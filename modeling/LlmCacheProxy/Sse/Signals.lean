import LlmCacheProxy.Sse.Passing
import LlmCacheProxy.Sse.Terminal
import Mathlib.Data.List.Flatten

/-!
# Signals beside the text

A chat completion chunk carries more than text: the reason why a choice ended,
and the identities of its tool calls. Synthetic frames hold neither, so a signal
reaches the client exactly when its frame is passed through.
-/

namespace LlmCacheProxy.Sse

/-! ### Reading items -/

/-- Only Gemini has deferred frames. -/
theorem collected_eq_nil {ctx : SseCtx} (hp : ctx.provider ≠ .gemini) (frames : List Bytes) :
    collected ctx frames = [] := by
  rw [collected, List.flatMap_eq_nil_iff]
  intro frame _
  split
  · rfl
  · unfold deferredFor deferredOf
    split
    · rw [if_neg hp]
    · rfl

theorem OpenAiFamily.ne_gemini {p : Provider} (hp : OpenAiFamily p) : p ≠ .gemini := by
  rcases hp with rfl | rfl <;> simp

section Reading

variable {σ : Type} {ctx : SseCtx} {frames : List Bytes} {st : RestoreState}
  {read : Json → List σ}

/-- Where synthetic frames hold nothing to read, only the upstream's part counts. -/
theorem Finished.readAll_made (h : Finished ctx frames st) (hp : ctx.provider ≠ .gemini)
    (hread : ∀ key text, key.OfProvider ctx.provider → read (syntheticValue key text) = [])
    {es : List Emission} (hes : ∀ e ∈ es, e ∈ st.items) :
    readAll ctx read (es.filter fun e => !e.made) = readAll ctx read es := by
  apply filter_flatMap_eq_iff.mpr
  intro e he hne
  cases e with
  | passthrough frame => rfl
  | raw bytes => rfl
  | synthetic key text =>
      obtain ⟨-, cut, hcut, rfl, -⟩ := h.synthetic_mem (hes _ he)
      exact absurd (hread _ text (h.ofProvider hcut)) hne
  | deferred extra =>
      have hmem : .deferred extra ∈ st.items.filter Emission.isDeferred :=
        List.mem_filter.mpr ⟨hes _ he, rfl⟩
      rw [h.deferred_items, collected_eq_nil hp] at hmem
      cases hmem

/-- Everything that arrives is read from the items exactly when no frame with
something to read carries content. -/
theorem Finished.readAll_items_iff (h : Finished ctx frames st) (hp : ctx.provider ≠ .gemini)
    (hread : ∀ key text, key.OfProvider ctx.provider → read (syntheticValue key text) = []) :
    readAll ctx read st.items = readAll ctx read (arrived frames) ↔
      ∀ frame ∈ frames, readAll ctx read (arrived [frame]) ≠ [] → extracted ctx frame = [] := by
  rw [← h.readAll_made hp hread fun _ he => he, h.filter_items, passed, arrived, readAll, readAll,
    List.flatMap_map, List.flatMap_map, filter_flatMap_eq_iff]
  simp [readAll, arrived]

end Reading

/-! ### Chat completion chunks -/

/-- A frame without the event line of a Responses API event. -/
def ChatFrame (frame : Bytes) : Prop :=
  ∀ et ∈ eventType frame, (lit "response.").isPrefixOf et = false

theorem sampleFrame_chat (v : Json) : ChatFrame (sampleFrame v) := by
  intro et het
  rw [sampleFrame_eventType] at het
  cases het

/-- A delta without text to restore. Of the empty strings only those of
`reasoning_content` and `refusal` count as text. -/
structure Bare (delta : Json) : Prop where
  content : ∀ text, (delta.index "content").asStr = some text → text = Text.empty
  reasoning : (delta.index "reasoning_content").asStr = none
  toolCalls : ∀ toolCall ∈ ((delta.get "tool_calls").bind Json.asArray).getD [],
    ∀ text, ((toolCall.index "function").index "arguments").asStr = some text → text = Text.empty
  functionCall : ∀ text,
    ((delta.index "function_call").index "arguments").asStr = some text → text = Text.empty
  refusal : (delta.index "refusal").asStr = none

/-- A chunk whose delta, if it has one, is bare. -/
def BareChunk (v : Json) : Prop :=
  ∀ delta, v.pointer ["choices", "0", "delta"] = some delta → Bare delta

private theorem stringField_eq_nil_iff {key : FieldKey} {j : Json} {name : Text} :
    stringField key j name = [] ↔ (j.index name).asStr = none := by
  unfold stringField
  cases (j.index name).asStr <;> simp

private theorem nonemptyStringField_eq_nil_iff {key : FieldKey} {j : Json} {name : Text} :
    nonemptyStringField key j name = [] ↔
      ∀ text, (j.index name).asStr = some text → text = Text.empty := by
  unfold nonemptyStringField
  cases (j.index name).asStr <;> simp

theorem extractChatCompletion_eq_nil_iff (v : Json) :
    extractChatCompletion v = [] ↔ BareChunk v := by
  unfold extractChatCompletion BareChunk
  cases hdelta : v.pointer ["choices", "0", "delta"] with
  | none => simp
  | some delta =>
      simp only [List.append_eq_nil_iff, List.flatMap_eq_nil_iff, stringField_eq_nil_iff,
        nonemptyStringField_eq_nil_iff, extractToolCall, Option.some.injEq, forall_eq']
      constructor
      · rintro ⟨⟨⟨⟨hcontent, hreasoning⟩, htools⟩, hcall⟩, hrefusal⟩
        exact ⟨hcontent, hreasoning, htools, hcall, hrefusal⟩
      · rintro ⟨hcontent, hreasoning, htools, hcall, hrefusal⟩
        exact ⟨⟨⟨⟨hcontent, hreasoning⟩, htools⟩, hcall⟩, hrefusal⟩

theorem extractFields_chat {p : Provider} (hp : OpenAiFamily p) {et : Option Bytes}
    (het : ∀ et' ∈ et, (lit "response.").isPrefixOf et' = false) (v : Json) :
    extractFields v p et = extractChatCompletion v := by
  cases et with
  | none => rcases hp with rfl | rfl <;> rfl
  | some et =>
      have hchat := het et rfl
      rcases hp with rfl | rfl <;> simp [extractFields, hchat]

/-- Nothing is extracted from a chat frame exactly when its chunk is bare. -/
theorem extracted_eq_nil_iff {ctx : SseCtx} (hp : OpenAiFamily ctx.provider) {frame : Bytes}
    (hchat : ChatFrame frame) :
    extracted ctx frame = [] ↔ ∀ v, frameValue ctx frame = some v → BareChunk v := by
  unfold extracted frameValue
  cases (dataContent frame).bind ctx.crates.parse with
  | none => simp
  | some v => simp [extractFields_chat hp hchat, extractChatCompletion_eq_nil_iff]

/-- A signal is apart from text in every frame that has one. -/
def Apart {σ : Type} (ctx : SseCtx) (read : Json → List σ) (frames : List Bytes) : Prop :=
  ∀ frame ∈ frames, ∀ v, frameValue ctx frame = some v → read v ≠ [] → BareChunk v

/-- The signals of a chat arrive exactly when they are apart from its text. -/
theorem Finished.readAll_items_iff_apart {σ : Type} {ctx : SseCtx} {frames : List Bytes}
    {st : RestoreState} {read : Json → List σ} (h : Finished ctx frames st)
    (hp : OpenAiFamily ctx.provider) (hchat : ∀ frame ∈ frames, ChatFrame frame)
    (hread : ∀ key text, key.OfProvider ctx.provider → read (syntheticValue key text) = []) :
    readAll ctx read st.items = readAll ctx read (arrived frames) ↔ Apart ctx read frames := by
  rw [h.readAll_items_iff hp.ne_gemini hread]
  apply forall₂_congr
  intro frame hframe
  rw [readAll_arrived_one, extracted_eq_nil_iff hp (hchat frame hframe)]
  cases hv : frameValue ctx frame with
  | none => simp
  | some v => simp

/-- A frame with a signal stands in the items behind the signals of the frames
before it. -/
theorem Finished.signal_before {σ : Type} {ctx : SseCtx} {front back : List Bytes} {frame : Bytes}
    {st : RestoreState} {read : Json → List σ} (h : Finished ctx (front ++ frame :: back) st)
    (hp : OpenAiFamily ctx.provider) (hchat : ∀ f ∈ front ++ frame :: back, ChatFrame f)
    (hread : ∀ key text, key.OfProvider ctx.provider → read (syntheticValue key text) = [])
    (hapart : Apart ctx read (front ++ frame :: back))
    (hsignal : readAll ctx read (arrived [frame]) ≠ []) :
    ∃ st₀ st₁ before after, runFrames ctx front RestoreState.init = .ok st₀ ∧
      processOneFrame ctx frame st₀ = .ok st₁ ∧ extracted ctx frame = [] ∧
      st₁.outputQueue = before ++ [.passthrough frame] ∧
      st.items = before ++ .passthrough frame :: after ∧
      readAll ctx read before = readAll ctx read (arrived front) := by
  have hbare (f : Bytes) (hf : f ∈ front ++ frame :: back)
      (hne : readAll ctx read (arrived [f]) ≠ []) : extracted ctx f = [] := by
    rw [extracted_eq_nil_iff hp (hchat f hf)]
    intro v hv
    apply hapart f hf v hv
    simpa [readAll_arrived_one, hv] using hne
  have hext := hbare frame (by simp) hsignal
  obtain ⟨st₀, st₁, before, after, hfront, hframe, -, hqueue, hitems⟩ := h.passing hext
  refine ⟨st₀, st₁, before, after, hfront, hframe, hext, hqueue, hitems, ?_⟩
  have hmem : ∀ e ∈ before, e ∈ st.items := by
    intro e he
    rw [hitems]
    exact List.mem_append_left _ he
  rw [← h.readAll_made hp.ne_gemini hread hmem, filter_queue hfront hframe hext hqueue, passed,
    arrived, readAll, readAll, List.flatMap_map, List.flatMap_map]
  apply filter_flatMap_eq_iff.mpr
  intro f hf hne
  have hnil := hbare f (List.mem_append_left _ hf) (by simpa [readAll, arrived] using hne)
  simp [hnil]

/-! ### Finish reasons -/

/-- The reason why the choice ended, if the chunk says so. -/
def finishReason (v : Json) : List Json :=
  ((v.pointer ["choices", "0", "finish_reason"]).filter fun reason => !reason.isNull).toList

private theorem finishReason_syntheticValue {p : Provider} (hp : OpenAiFamily p) (key : FieldKey)
    (text : Text) (hkey : key.OfProvider p) : finishReason (syntheticValue key text) = [] := by
  cases key with
  | anthropicDelta | geminiText | geminiCodeExecOutput | geminiFuncCallArg =>
      rcases hp with rfl | rfl <;> simp [FieldKey.OfProvider] at hkey
  | _ => rfl

/-- Each finish reason reaches the client once, and behind all the text that was
received up to its frame. -/
structure FinishKept (ctx : SseCtx) (frames : List Bytes) (st : RestoreState) : Prop where
  once : readAll ctx finishReason st.items = readAll ctx finishReason (arrived frames)
  behind : ∀ front frame back, frames = front ++ frame :: back →
    readAll ctx finishReason (arrived [frame]) ≠ [] →
    ∃ before e after, st.items = before ++ e :: after ∧
      readAll ctx finishReason [e] = readAll ctx finishReason (arrived [frame]) ∧
      readAll ctx finishReason before = readAll ctx finishReason (arrived front) ∧
      ∀ key, ∃ text, RestoredTo ctx text (emittedTexts key before) ∧
        text ++ textFor key (e.fields ctx) = received ctx key (front ++ [frame])

/-- A chunk with a finish reason and no text ends the stream. -/
theorem terminalScope_of_finishReason {ctx : SseCtx} (hp : OpenAiFamily ctx.provider)
    {frame : Bytes} (hext : extracted ctx frame = [])
    (hsignal : readAll ctx finishReason (arrived [frame]) ≠ []) :
    terminalScope ctx frame = some .stream := by
  rw [readAll_arrived_one, frameValue] at hsignal
  cases hdata : dataContent frame with
  | none => simp [hdata] at hsignal
  | some dataStr =>
      cases hparse : ctx.crates.parse dataStr with
      | none => simp [hdata, hparse] at hsignal
      | some v =>
          have hfields : extractFields v ctx.provider (eventType frame) = [] := by
            simpa [extracted, hdata, hparse] using hext
          have hreason : ((v.pointer ["choices", "0", "finish_reason"]).any
              fun reason => !reason.isNull) = true := by
            simp only [hdata, hparse, Option.bind_some, Option.map_some, Option.getD_some,
              finishReason] at hsignal
            cases hv : v.pointer ["choices", "0", "finish_reason"] with
            | none => simp [hv] at hsignal
            | some reason =>
                cases hn : reason.isNull with
                | true => simp [hv, hn, Option.filter] at hsignal
                | false => simp [hn]
          simp only [terminalScope, hdata, hparse, hfields]
          unfold classifyTerminal
          rcases hp with hp | hp <;> simp [hp, hreason]

/-- What arrived before a terminal frame is shown in front of it. -/
theorem restoredTo_before_terminal {ctx : SseCtx} {front : List Bytes} {frame : Bytes}
    {st₀ st₁ : RestoreState} {before : List Emission}
    (hfront : runFrames ctx front RestoreState.init = .ok st₀)
    (hframe : processOneFrame ctx frame st₀ = .ok st₁)
    (hscope : terminalScope ctx frame = some .stream)
    (hqueue : st₁.outputQueue = before ++ [.passthrough frame]) (key : FieldKey) :
    RestoredTo ctx (received ctx key (front ++ [frame])) (emittedTexts key before) := by
  have hrun := runFrames_snoc hfront hframe
  have hshown := runFrames_restoredTo hrun key
  obtain ⟨cuts, hflushed⟩ := processOneFrame_terminal hscope hframe
  have hconserved := runFrames_conserves hrun key
  rw [hflushed.emptied key rfl, Text.append_empty] at hconserved
  rwa [hconserved, hqueue, emittedTexts_append, emittedTexts_passthrough,
    List.append_nil] at hshown

/-- Finish reasons are kept exactly when no chunk with one carries anything that
counts as text, be it an empty `reasoning_content` or `refusal`. -/
theorem finishKept_iff {ctx : SseCtx} (hr : RestoresText ctx.crates ctx.entries)
    (hp : OpenAiFamily ctx.provider) {frames : List Bytes}
    (hchat : ∀ frame ∈ frames, ChatFrame frame) :
    ∃ st, Finished ctx frames st ∧
      (FinishKept ctx frames st ↔ Apart ctx finishReason frames) := by
  have hread := finishReason_syntheticValue hp
  obtain ⟨st, h⟩ := hr.finished frames
  refine ⟨st, h, fun hkept => (h.readAll_items_iff_apart hp hchat hread).mp hkept.once, ?_⟩
  intro hapart
  refine ⟨(h.readAll_items_iff_apart hp hchat hread).mpr hapart, ?_⟩
  rintro front frame back rfl hsignal
  obtain ⟨st₀, st₁, before, after, hfront, hframe, hext, hqueue, hitems, hbefore⟩ :=
    h.signal_before hp hchat hread hapart hsignal
  refine ⟨before, _, after, hitems, rfl, hbefore, fun key => ?_⟩
  have hscope := terminalScope_of_finishReason hp hext hsignal
  refine ⟨_, restoredTo_before_terminal hfront hframe hscope hqueue key, ?_⟩
  rw [Emission.fields_passthrough, hext]
  exact Text.append_empty _

/-- The last chunk of a chat with a reasoning model, as some servers send it. -/
def emptyReasoning : Json :=
  .object [("choices", .array [.object [("delta", .object [("reasoning_content", .string "")]),
    ("finish_reason", .string "stop")]])]

def emptyDelta : Json :=
  .object [("choices", .array [.object [("delta", .object []), ("finish_reason", .string "stop")]])]

theorem finishKept_emptyDelta : ∃ st, Finished (sampleCtx .openRouter [emptyDelta])
    [sampleFrame emptyDelta] st ∧
    FinishKept (sampleCtx .openRouter [emptyDelta]) [sampleFrame emptyDelta] st := by
  have hchat : ∀ frame ∈ [sampleFrame emptyDelta], ChatFrame frame :=
    List.forall_mem_singleton.mpr (sampleFrame_chat _)
  obtain ⟨st, hst, hiff⟩ :=
    finishKept_iff (sampleCtx_restoresText .openRouter [emptyDelta]) (Or.inr rfl) hchat
  refine ⟨st, hst, hiff.mpr ?_⟩
  intro frame hframe v hv _
  obtain rfl := List.mem_singleton.mp hframe
  obtain rfl : emptyDelta = v := Option.some.inj ((sampleFrame_value (by simp)).symm.trans hv)
  exact (extractChatCompletion_eq_nil_iff emptyDelta).mp rfl

/-- An empty `reasoning_content` beside a finish reason keeps it from the client. -/
theorem finishReason_lost : ∃ st, Finished (sampleCtx .openAi [emptyReasoning])
    [sampleFrame emptyReasoning] st ∧
    readAll (sampleCtx .openAi [emptyReasoning]) finishReason st.items = [] ∧
    readAll (sampleCtx .openAi [emptyReasoning]) finishReason
      (arrived [sampleFrame emptyReasoning]) = [.string "stop"] := by
  obtain ⟨st, hst⟩ := (sampleCtx_restoresText .openAi [emptyReasoning]).finished
    [sampleFrame emptyReasoning]
  have hext : extracted (sampleCtx .openAi [emptyReasoning]) (sampleFrame emptyReasoning) =
      [⟨.openAiReasoning, ""⟩] := sampleFrame_extracted (by simp)
  refine ⟨st, hst, ?_, ?_⟩
  · rw [← hst.readAll_made (by simp [sampleCtx]) (finishReason_syntheticValue (Or.inl rfl))
      fun _ he => he, hst.filter_items, passed]
    simp [hext, readAll]
  · rw [readAll_arrived_one]
    have hv : frameValue (sampleCtx .openAi [emptyReasoning]) (sampleFrame emptyReasoning) =
        some emptyReasoning := sampleFrame_value (by simp)
    rw [hv]
    rfl

/-! ### Tool calls -/

/-- What an element of `tool_calls` says about the call at its index. -/
structure ToolIdentity where
  index : UInt64
  id : Json
  name : Json

def toolIdentity (toolCall : Json) : Option ToolIdentity :=
  let id := toolCall.index "id"
  let name := (toolCall.index "function").index "name"
  if id.isNull && name.isNull then none
  else some ⟨((toolCall.get "index").bind Json.asU64).getD 0, id, name⟩

def toolIdentities (v : Json) : List ToolIdentity :=
  (((v.pointer ["choices", "0", "delta", "tool_calls"]).bind Json.asArray).getD []).filterMap
    toolIdentity

private theorem toolIdentities_syntheticValue {p : Provider} (hp : OpenAiFamily p)
    (key : FieldKey) (text : Text) (hkey : key.OfProvider p) :
    toolIdentities (syntheticValue key text) = [] := by
  cases key with
  | anthropicDelta | geminiText | geminiCodeExecOutput | geminiFuncCallArg =>
      rcases hp with rfl | rfl <;> simp [FieldKey.OfProvider] at hkey
  | _ => rfl

/-- Each identity reaches the client once, and before any arguments that arrived
in its frame or later. -/
structure IdentityKept (ctx : SseCtx) (frames : List Bytes) (st : RestoreState) : Prop where
  once : readAll ctx toolIdentities st.items = readAll ctx toolIdentities (arrived frames)
  inTime : ∀ front frame back, frames = front ++ frame :: back →
    readAll ctx toolIdentities (arrived [frame]) ≠ [] →
    ∃ before e after, st.items = before ++ e :: after ∧
      readAll ctx toolIdentities [e] = readAll ctx toolIdentities (arrived [frame]) ∧
      readAll ctx toolIdentities before = readAll ctx toolIdentities (arrived front) ∧
      ∀ index, ∃ early late, early ++ late = received ctx (.openAiToolCall index) front ∧
        RestoredTo ctx early (emittedTexts (.openAiToolCall index) before)

/-- In front of a frame without content stands text of the frames before it. -/
theorem restoredTo_before {ctx : SseCtx} {front : List Bytes} {frame : Bytes}
    {st₀ st₁ : RestoreState} {before : List Emission}
    (hfront : runFrames ctx front RestoreState.init = .ok st₀)
    (hframe : processOneFrame ctx frame st₀ = .ok st₁) (hext : extracted ctx frame = [])
    (hqueue : st₁.outputQueue = before ++ [.passthrough frame]) (key : FieldKey) :
    ∃ early late, early ++ late = received ctx key front ∧
      RestoredTo ctx early (emittedTexts key before) := by
  have hrun := runFrames_snoc hfront hframe
  have hshown := runFrames_restoredTo hrun key
  rw [hqueue, emittedTexts_append, emittedTexts_passthrough, List.append_nil] at hshown
  refine ⟨st₁.handed key, st₁.accum key, ?_, hshown⟩
  rw [runFrames_conserves hrun]
  simp [received, hext, textFor]

/-- Tool calls keep their identities exactly when no chunk with one carries
anything that counts as text, such as the first piece of the arguments. -/
theorem identityKept_iff {ctx : SseCtx} (hr : RestoresText ctx.crates ctx.entries)
    (hp : OpenAiFamily ctx.provider) {frames : List Bytes}
    (hchat : ∀ frame ∈ frames, ChatFrame frame) :
    ∃ st, Finished ctx frames st ∧
      (IdentityKept ctx frames st ↔ Apart ctx toolIdentities frames) := by
  have hread := toolIdentities_syntheticValue hp
  obtain ⟨st, h⟩ := hr.finished frames
  refine ⟨st, h, fun hkept => (h.readAll_items_iff_apart hp hchat hread).mp hkept.once, ?_⟩
  intro hapart
  refine ⟨(h.readAll_items_iff_apart hp hchat hread).mpr hapart, ?_⟩
  rintro front frame back rfl hsignal
  obtain ⟨st₀, st₁, before, after, hfront, hframe, hext, hqueue, hitems, hbefore⟩ :=
    h.signal_before hp hchat hread hapart hsignal
  exact ⟨before, _, after, hitems, rfl, hbefore,
    fun _ => restoredTo_before hfront hframe hext hqueue _⟩

/-- The first chunk of a tool call, with these arguments. -/
def toolCallStart (arguments : Text) : Json :=
  .object [("choices", .array [.object [("delta", .object [("tool_calls", .array [
    .object [("index", .number (.ofU64 0)), ("id", .string "call_1"),
      ("function", .object [("name", .string "f"), ("arguments", .string arguments)])]])])]])]

theorem identityKept_toolCallStart : ∃ st, Finished (sampleCtx .openAi [toolCallStart ""])
    [sampleFrame (toolCallStart "")] st ∧
    IdentityKept (sampleCtx .openAi [toolCallStart ""]) [sampleFrame (toolCallStart "")] st := by
  have hchat : ∀ frame ∈ [sampleFrame (toolCallStart "")], ChatFrame frame :=
    List.forall_mem_singleton.mpr (sampleFrame_chat _)
  obtain ⟨st, hst, hiff⟩ :=
    identityKept_iff (sampleCtx_restoresText .openAi [toolCallStart ""]) (Or.inl rfl) hchat
  refine ⟨st, hst, hiff.mpr ?_⟩
  intro frame hframe v hv _
  obtain rfl := List.mem_singleton.mp hframe
  obtain rfl : toolCallStart "" = v := Option.some.inj ((sampleFrame_value (by simp)).symm.trans hv)
  exact (extractChatCompletion_eq_nil_iff _).mp rfl

/-- A chunk that brings identity and arguments together loses the identity. -/
theorem identity_lost : ∃ st, Finished (sampleCtx .openAi [toolCallStart "x"])
    [sampleFrame (toolCallStart "x")] st ∧
    readAll (sampleCtx .openAi [toolCallStart "x"]) toolIdentities st.items = [] ∧
    readAll (sampleCtx .openAi [toolCallStart "x"]) toolIdentities
      (arrived [sampleFrame (toolCallStart "x")]) = [⟨0, .string "call_1", .string "f"⟩] := by
  obtain ⟨st, hst⟩ := (sampleCtx_restoresText .openAi [toolCallStart "x"]).finished
    [sampleFrame (toolCallStart "x")]
  have hext : (extracted (sampleCtx .openAi [toolCallStart "x"])
      (sampleFrame (toolCallStart "x"))).isEmpty = false := by
    rw [sampleFrame_extracted (List.mem_singleton_self _)]
    rfl
  refine ⟨st, hst, ?_, ?_⟩
  · rw [← hst.readAll_made (by simp [sampleCtx]) (toolIdentities_syntheticValue (Or.inl rfl))
      fun _ he => he, hst.filter_items, passed]
    simp [hext, readAll]
  · have hv : frameValue (sampleCtx .openAi [toolCallStart "x"])
        (sampleFrame (toolCallStart "x")) = some (toolCallStart "x") :=
      sampleFrame_value (List.mem_singleton_self _)
    have hidentities : toolIdentities (toolCallStart "x") =
        [⟨(JsonNumber.asU64 (.ofU64 0)).getD 0, .string "call_1", .string "f"⟩] := rfl
    rw [readAll_arrived_one, hv, Option.map_some, Option.getD_some, hidentities,
      JsonNumber.asU64_ofU64, Option.getD_some]

end LlmCacheProxy.Sse
