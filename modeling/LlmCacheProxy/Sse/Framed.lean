import LlmCacheProxy.Sse.Resume
import LlmCacheProxy.Sse.Finished
import LlmCacheProxy.Foundation.JsonCanonical

/-!
# The framing of the output

Every frame that is queued is one block of the event stream format: upstream
frames because they were cut out as blocks, made frames because no line break is
printed inside their lines. So a client that splits the output at empty lines
gets back the queued frames, whatever the restored texts are.
-/

namespace LlmCacheProxy.Sse

open Framing

/-! ### What printing is relied on for -/

/-- Values of strings, integers, arrays and objects in name order, no deeper
than `n`. -/
inductive Plain : Nat → Json → Prop where
  | string {n : Nat} (s : Text) : Plain n (.string s)
  | integer {n : Nat} (m : UInt64) : Plain n (.number (.ofU64 m))
  | array {n : Nat} {elems : List Json} (h : ∀ j ∈ elems, Plain n j) : Plain (n + 1) (.array elems)
  | object {n : Nat} {members : List (Text × Json)}
      (names : (members.map Prod.fst).Pairwise (· < ·)) (h : ∀ p ∈ members, Plain n p.2) :
      Plain (n + 1) (.object members)

/-- Values are printed on one line, and plain ones are read back; the parser's
recursion limit is 128. -/
structure PrintsLines (c : Serde) : Prop where
  oneLine : ∀ v, OneLine (c.serialize v).bytes
  readBack : ∀ v, Plain 127 v → c.parse (c.serialize v).bytes = some v

theorem Plain.mono {m n : Nat} (h : m ≤ n) {v : Json} (hv : Plain m v) : Plain n v := by
  induction hv generalizing n with
  | string s => exact .string s
  | integer k => exact .integer k
  | array _ ih =>
      obtain ⟨n, rfl⟩ := Nat.exists_eq_add_of_lt (Nat.lt_of_lt_of_le (Nat.succ_pos _) h)
      exact .array fun j hj => ih j hj (by omega)
  | object names _ ih =>
      obtain ⟨n, rfl⟩ := Nat.exists_eq_add_of_lt (Nat.lt_of_lt_of_le (Nat.succ_pos _) h)
      exact .object names fun p hp => ih p hp (by omega)

private theorem plain_ofMembers {n : Nat} {members : List (Text × Json)}
    (h : ∀ p ∈ members, Plain n p.2) : Plain (n + 1) (.ofMembers members) := by
  obtain ⟨ms, hms, names, hsub⟩ := Json.ofMembers_object members
  rw [hms]
  exact .object names fun p hp => h p (hsub p hp)

private theorem plain_one {n : Nat} {v : Json} (hv : Plain n v) (name : Text) :
    Plain (n + 1) (.ofMembers [(name, v)]) :=
  plain_ofMembers (by simpa using hv)

private theorem plain_element {n : Nat} {v : Json} (hv : Plain n v) : Plain (n + 1) (.array [v]) :=
  .array (by simpa using hv)

/-- What a synthetic frame prints is plain. -/
theorem plain_syntheticValue (key : FieldKey) (text : Text) :
    Plain 127 (syntheticValue key text) := by
  have hchat {n : Nat} {delta : Json} (h : Plain n delta) : Plain (n + 3) (chatDelta delta) :=
    plain_one (plain_element (plain_one h "delta")) "choices"
  have hgemini {n : Nat} {part : Json} (h : Plain n part) : Plain (n + 5) (geminiPart part) :=
    plain_one (plain_element (plain_one (plain_one (plain_element h) "parts") "content"))
      "candidates"
  have hstring (name : Text) : Plain 1 (.ofMembers [(name, .string text)]) :=
    plain_one (.string text) name
  cases key with
  | anthropicDelta deltaType index =>
      have hdelta : Plain 1 (.ofMembers [("type", .string deltaType),
          (anthropicTextField deltaType, .string text)]) :=
        plain_ofMembers (by simp [Plain.string])
      have hmembers : Plain 2 (syntheticValue (.anthropicDelta deltaType index) text) :=
        plain_ofMembers (by simp [Plain.string, Plain.integer, hdelta])
      exact hmembers.mono (by decide)
  | openAiContent => exact (hchat (hstring "content")).mono (by decide)
  | openAiToolCall index =>
      have hfunction := hstring "arguments"
      have hcall : Plain 2 (.ofMembers [("index", .number (.ofU64 index)),
          ("function", .ofMembers [("arguments", .string text)])]) :=
        plain_ofMembers (by simp [Plain.integer, hfunction])
      exact (hchat (plain_one (plain_element hcall) "tool_calls")).mono (by decide)
  | openAiReasoning => exact (hchat (hstring "reasoning_content")).mono (by decide)
  | openAiFunctionCallArgs =>
      exact (hchat (plain_one (hstring "arguments") "function_call")).mono (by decide)
  | openAiRefusal => exact (hchat (hstring "refusal")).mono (by decide)
  | responsesApiDelta eventType => exact (hstring "delta").mono (by decide)
  | responsesApiDone eventType => exact (hstring "text").mono (by decide)
  | geminiText thought => exact (hgemini (hstring "text")).mono (by decide)
  | geminiCodeExecOutput partIndex =>
      exact (hgemini (plain_one (hstring "output") "codeExecutionResult")).mono (by decide)
  | geminiFuncCallArg partIndex argKey =>
      exact (hgemini (plain_one (plain_one (hstring argKey) "args") "functionCall")).mono
        (by decide)

/-! ### Made frames are blocks -/

theorem isBlock_dataFrame {c : Crates} (hc : PrintsLines c.toSerde) (v : Json) :
    IsBlock 0x0A (dataFrame c v) := by
  have hline : OneLine (lit "data: " ++ (c.serialize v).bytes) :=
    OneLine.append (by decide) (hc.oneLine v)
  exact IsBlock.append_line hline.1 (isBlock_pair 0x0A)

theorem isBlock_eventFrame {c : Crates} (hc : PrintsLines c.toSerde) {event : Text}
    (he : OneLine event.bytes) (v : Json) : IsBlock 0x0A (eventFrame c event v) := by
  have hfirst : OneLine (lit "event: " ++ event.bytes) := OneLine.append (by decide) he
  rw [eventFrame_eq]
  exact IsBlock.append_line hfirst.1 (IsBlock.cons_newline (by decide) (isBlock_dataFrame hc v))

/-- The event types of a provider's keys stand on a line. -/
theorem oneLine_event {p : Provider} {key : FieldKey} (hkey : key.OfProvider p) {event : Text}
    (h : key.event = some event) : OneLine event.bytes ∧ event ≠ Text.empty := by
  cases key with
  | anthropicDelta deltaType index =>
      obtain rfl := Option.some.inj h
      decide
  | responsesApiDelta eventType =>
      obtain rfl := Option.some.inj h
      rcases hkey.2 with rfl | rfl <;> decide
  | responsesApiDone eventType =>
      obtain rfl := Option.some.inj h
      rw [hkey.2]
      decide
  | _ => cases h

/-- The only data line of a frame holds a value that was printed, and the text
is all that is read from it. -/
structure CarriesText (ctx : SseCtx) (frame : Bytes) (key : FieldKey) (text : Text) : Prop where
  dataLine : (lines frame).filter isDataLine =
    [lit "data: " ++ (ctx.crates.serialize (syntheticValue key text)).bytes]
  value : (dataContent frame).bind ctx.crates.parse = some (syntheticValue key text)
  fields : extracted ctx frame = [⟨key.readBack, text⟩]

theorem carriesText_synthetic {ctx : SseCtx} (hc : PrintsLines ctx.crates.toSerde)
    {key : FieldKey} (hkey : key.OfProvider ctx.provider) {text : Text} (ht : text ≠ Text.empty) :
    CarriesText ctx (buildSyntheticSseFrame ctx.crates key text) key text := by
  have hprinted := hc.oneLine (syntheticValue key text)
  have hread := hc.readBack _ (plain_syntheticValue key text)
  have hlines : (lines (buildSyntheticSseFrame ctx.crates key text)).filter isDataLine =
      [lit "data: " ++ (ctx.crates.serialize (syntheticValue key text)).bytes] ∧
      dataContent (buildSyntheticSseFrame ctx.crates key text) =
        some (ctx.crates.serialize (syntheticValue key text)).bytes ∧
      eventType (buildSyntheticSseFrame ctx.crates key text) = key.event.map Text.bytes := by
    rw [buildSyntheticSseFrame_eq]
    cases hevent : key.event with
    | none =>
        exact ⟨dataLines_dataFrame hprinted, dataContent_dataFrame hprinted,
          eventType_dataFrame hprinted⟩
    | some event =>
        obtain ⟨he, hne⟩ := oneLine_event hkey hevent
        exact ⟨dataLines_eventFrame he hprinted, dataContent_eventFrame he hprinted,
          eventType_eventFrame he hne hprinted⟩
  obtain ⟨hdataLine, hdata, hevent⟩ := hlines
  have hvalue : (dataContent (buildSyntheticSseFrame ctx.crates key text)).bind
      ctx.crates.parse = some (syntheticValue key text) := by
    rw [hdata]
    exact hread
  refine ⟨hdataLine, hvalue, ?_⟩
  rw [extracted, hvalue, hevent]
  exact extractFields_syntheticValue hkey ht

/-! ### Queued frames -/

/-- An item that is one block; restored text stands under a key of the provider. -/
structure Framed (ctx : SseCtx) (e : Emission) : Prop where
  isBlock : IsBlock 0x0A (e.bytes ctx.crates)
  carries : ∀ key text, e = .synthetic key text → CarriesText ctx (e.bytes ctx.crates) key text

theorem framed_passthrough {ctx : SseCtx} {frame : Bytes} (h : IsBlock 0x0A frame) :
    Framed ctx (.passthrough frame) :=
  ⟨h, fun _ _ heq => by cases heq⟩

theorem framed_deferred {ctx : SseCtx} (hc : PrintsLines ctx.crates.toSerde) {e : Emission}
    (h : e.isDeferred = true) : Framed ctx e := by
  cases e with
  | deferred extra => exact ⟨isBlock_dataFrame hc extra, fun _ _ heq => by cases heq⟩
  | synthetic | passthrough | raw => cases h

theorem framed_synthetic {ctx : SseCtx} (hc : PrintsLines ctx.crates.toSerde) {key : FieldKey}
    (hkey : key.OfProvider ctx.provider) {text : Text} (ht : text ≠ Text.empty) :
    Framed ctx (.synthetic key text) := by
  constructor
  · rw [Emission.bytes, buildSyntheticSseFrame_eq]
    cases hevent : key.event with
    | none => exact isBlock_dataFrame hc _
    | some event => exact isBlock_eventFrame hc (oneLine_event hkey hevent).1 _
  · intro key' text' heq
    obtain ⟨rfl, rfl⟩ := Emission.synthetic.inj heq
    exact carriesText_synthetic hc hkey ht

/-! ### The state of a stream -/

/-- Everything queued is framed, and text waits under keys of the provider. -/
structure FramesOnly (ctx : SseCtx) (st : RestoreState) : Prop where
  queue : ∀ e ∈ st.outputQueue, Framed ctx e
  waiting : ∀ e ∈ st.deferredPassthrough, e.isDeferred = true
  keys : ∀ key, st.accum key ≠ Text.empty → key.OfProvider ctx.provider

theorem FramesOnly.init (ctx : SseCtx) : FramesOnly ctx .init :=
  ⟨fun _ he => absurd he List.not_mem_nil, fun _ he => absurd he List.not_mem_nil,
    fun _ hne => absurd rfl hne⟩

section Steps

variable {ctx : SseCtx} {st st' : RestoreState}

/-- Text for a key is there only if the key is one of the provider. -/
private theorem ofProvider_of_text (hst : FramesOnly ctx st) {frame : Bytes} {key : FieldKey}
    (h : st.accum key ++ textFor key (extracted ctx frame) ≠ Text.empty) :
    key.OfProvider ctx.provider := by
  by_cases haccum : st.accum key = Text.empty
  · have hfilter : ((extracted ctx frame).filter fun f => f.key = key) ≠ [] := by
      intro hnil
      rw [haccum, textFor, hnil] at h
      exact h rfl
    obtain ⟨f, hf⟩ := List.exists_mem_of_ne_nil _ hfilter
    obtain ⟨hf, hkey⟩ := List.mem_filter.mp hf
    rw [← of_decide_eq_true hkey]
    exact extracted_ofProvider hf
  · exact hst.keys key haccum

/-- A step of a key's window finds text that is left or cut off. -/
private theorem keyStep_text {key : FieldKey} {input : KeyInput} {accum rest : Text}
    {cuts : List Cut} (h : keyStep ctx key input accum = .ok (rest, cuts))
    (hne : rest ≠ Text.empty ∨ cuts ≠ []) : accum ++ input.text ≠ Text.empty := by
  rw [← keyStep_concat h]
  intro hempty
  obtain ⟨hsegments, hrest⟩ := List.append_eq_nil_iff.mp (Text.eq_empty_iff.mp hempty)
  rcases hne with hne | hne
  · exact hne (Text.eq_empty_iff.mpr hrest)
  · obtain ⟨cut, hcut⟩ := List.exists_mem_of_ne_nil _ hne
    apply (keyStep_sound h cut hcut).1
    have hall := Text.concat_eq_empty_iff.mp (Text.eq_empty_iff.mpr hsegments)
    exact hall _ (List.mem_map_of_mem hcut)

/-- The cuts that a step adds were made for keys that had text. -/
private theorem mem_added {key : FieldKey} {added cuts : List Cut}
    (hcuts : st'.cuts = st.cuts ++ added) (hfor : st'.cutsFor key = st.cutsFor key ++ cuts)
    {cut : Cut} (hcut : cut ∈ added) (hkey : cut.key = key) : cut ∈ cuts := by
  rw [RestoreState.cutsFor, RestoreState.cutsFor, hcuts, List.filter_append] at hfor
  rw [← List.append_cancel_left hfor]
  exact List.mem_filter.mpr ⟨hcut, by simpa using hkey⟩

private theorem framed_cuts (hc : PrintsLines ctx.crates.toSerde) {cuts : List Cut}
    (hkeys : ∀ cut ∈ cuts, cut.key.OfProvider ctx.provider) :
    ∀ e ∈ cuts.flatMap Cut.emission, Framed ctx e := by
  intro e he
  obtain ⟨cut, hcut, he⟩ := List.mem_flatMap.mp he
  unfold Cut.emission at he
  split at he
  · cases he
  · rename_i hne
    obtain rfl := List.mem_singleton.mp he
    exact framed_synthetic hc (hkeys cut hcut) hne

theorem FramesOnly.step (hc : PrintsLines ctx.crates.toSerde) (hst : FramesOnly ctx st)
    {frame : Bytes} (hframe : IsBlock 0x0A frame) (h : processOneFrame ctx frame st = .ok st') :
    FramesOnly ctx st' := by
  have hkeys : ∀ key, st'.accum key ≠ Text.empty → key.OfProvider ctx.provider := by
    intro key hne
    obtain ⟨cuts, hstep, -⟩ := processOneFrame_key h key
    have htext := keyStep_text hstep (Or.inl hne)
    rw [keyInput_text] at htext
    exact ofProvider_of_text hst htext
  have hadded {added : List Cut} (hcuts : st'.cuts = st.cuts ++ added) :
      ∀ e ∈ added.flatMap Cut.emission, Framed ctx e := by
    apply framed_cuts hc
    intro cut hcut
    obtain ⟨cuts, hstep, hfor⟩ := processOneFrame_key h cut.key
    have hmem := mem_added hcuts hfor hcut rfl
    have htext := keyStep_text hstep (Or.inr (List.ne_nil_of_mem hmem))
    rw [keyInput_text] at htext
    exact ofProvider_of_text hst htext
  rcases processOneFrame_cases h with ⟨-, -, rfl⟩ | ⟨scope, r, -, -, -, rfl⟩ | ⟨r, -, -, -, rfl⟩
  · refine ⟨fun e he => ?_, hst.waiting, hkeys⟩
    rcases List.mem_append.mp he with he | he
    · exact hst.queue e he
    · obtain rfl := List.mem_singleton.mp he
      exact framed_passthrough hframe
  · have hcuts : ((beforeTerminal ctx (st.flushed r)).push (.passthrough frame)).cuts =
        st.cuts ++ r.2 := by
      unfold beforeTerminal
      split <;> rfl
    have hqueue : (beforeTerminal ctx (st.flushed r)).outputQueue =
        st.outputQueue ++ r.2.flatMap Cut.emission ++
          if ctx.provider = .gemini then st.deferredPassthrough else [] := by
      unfold beforeTerminal
      split <;> simp [RestoreState.drainDeferred, RestoreState.flushed]
    refine ⟨fun e he => ?_, fun e he => ?_, hkeys⟩
    · rw [RestoreState.push, hqueue, List.mem_append, List.mem_append, List.mem_append] at he
      rcases he with ((he | he) | he) | he
      · exact hst.queue e he
      · exact hadded hcuts e he
      · split at he
        · exact framed_deferred hc (hst.waiting e he)
        · cases he
      · obtain rfl := List.mem_singleton.mp he
        exact framed_passthrough hframe
    · unfold beforeTerminal at he
      split at he
      · cases he
      · exact hst.waiting e he
  · refine ⟨fun e he => ?_, fun e he => ?_, hkeys⟩
    · rcases List.mem_append.mp he with he | he
      · exact hst.queue e he
      · exact hadded rfl e he
    · rcases List.mem_append.mp he with he | he
      · exact hst.waiting e he
      · exact isDeferred_deferredFor e he

theorem FramesOnly.run (hc : PrintsLines ctx.crates.toSerde) {frames : List Bytes}
    (hframes : ∀ frame ∈ frames, IsBlock 0x0A frame) (hst : FramesOnly ctx st)
    (h : runFrames ctx frames st = .ok st') : FramesOnly ctx st' := by
  have hrun : (∀ frame ∈ frames, IsBlock 0x0A frame) → FramesOnly ctx st' := by
    apply runFrames_invariant _ _ h
    · exact fun _ => hst
    · intro front frame st₁ st₂ hfront hframe hblocks
      rw [List.forall_mem_append, List.forall_mem_singleton] at hblocks
      exact (hfront hblocks.1).step hc hblocks.2 hframe
  exact hrun hframes

theorem FramesOnly.flushAll (hc : PrintsLines ctx.crates.toSerde) (hst : FramesOnly ctx st)
    (h : flushAllAccumulators ctx st = .ok st') :
    ∀ e ∈ st'.outputQueue ++ st'.deferredPassthrough, Framed ctx e := by
  have hkey := flushAllAccumulators_key h
  obtain ⟨r, -, rfl⟩ := flushAllAccumulators_cases h
  have hadded : ∀ e ∈ r.2.flatMap Cut.emission, Framed ctx e := by
    apply framed_cuts hc
    intro cut hcut
    obtain ⟨cuts, hstep, hfor⟩ := hkey cut.key
    have hmem := mem_added rfl hfor hcut rfl
    have htext := keyStep_text hstep (Or.inr (List.ne_nil_of_mem hmem))
    exact hst.keys cut.key (by simpa [KeyInput.text] using htext)
  intro e he
  rcases List.mem_append.mp he with he | he
  · rcases List.mem_append.mp he with he | he
    · exact hst.queue e he
    · exact hadded e he
  · exact framed_deferred hc (hst.waiting e he)

end Steps

end LlmCacheProxy.Sse
