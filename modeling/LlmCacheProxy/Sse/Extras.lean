import LlmCacheProxy.Sse.Deferred
import LlmCacheProxy.Sse.Passing
import LlmCacheProxy.Sse.Terminal

/-!
# Gemini content that is not restored

What a content frame holds besides text follows in a deferred frame, behind the
next terminal frame's text or at the end. All of it arrives exactly when no
content frame has a second function call to put off.
-/

namespace LlmCacheProxy.Sse

/-- Among the frames that the proxy made, the client finds what the content
frames hold besides text: each thing once, unchanged and in order. -/
def ExtrasKept (ctx : SseCtx) (frames : List Bytes) (es : List Emission) : Prop :=
  readAll ctx nonText (es.filter Emission.made) =
    readAll ctx nonText (arrived (frames.filter fun frame => !(extracted ctx frame).isEmpty))

/-- No content frame has two function calls with a name or with arguments that
are no strings. -/
def OneCall (ctx : SseCtx) (frames : List Bytes) : Prop :=
  ∀ frame ∈ frames, extracted ctx frame ≠ [] →
    ∀ v, frameValue ctx frame = some v → (loudCalls v).length ≤ 1

/-- A frame without content that says why the answer ended. -/
def GeminiFinish (ctx : SseCtx) (frame : Bytes) : Prop :=
  extracted ctx frame = [] ∧ ∃ v, frameValue ctx frame = some v ∧
    ((v.pointer ["candidates", "0", "finishReason"]).any fun reason => !reason.isNull) = true

theorem terminalScope_of_geminiFinish {ctx : SseCtx} (hp : ctx.provider = .gemini) {frame : Bytes}
    (h : GeminiFinish ctx frame) : terminalScope ctx frame = some .stream := by
  obtain ⟨hext, v, hv, hreason⟩ := h
  obtain ⟨dataStr, hdata, hparse⟩ := Option.bind_eq_some_iff.mp hv
  have hfields : extractFields v ctx.provider (eventType frame) = [] := by
    simpa [extracted, hdata, hparse] using hext
  simp only [terminalScope, hdata, hparse, hfields]
  simp only [classifyTerminal, hp, if_pos hreason]

section Gemini

variable {ctx : SseCtx} {frames : List Bytes} {st : RestoreState}

/-- Synthetic frames of Gemini hold nothing but text. -/
private theorem nonText_syntheticValue {key : FieldKey} (hkey : key.OfProvider .gemini)
    (text : Text) : nonText (syntheticValue key text) = [] := by
  cases key with
  | geminiText thought => rfl
  | geminiCodeExecOutput partIndex => rfl
  | geminiFuncCallArg partIndex argKey => rfl
  | anthropicDelta deltaType index => exact absurd hkey.1 (by decide)
  | responsesApiDelta eventType => rcases hkey.1 with h | h <;> cases h
  | responsesApiDone eventType => rcases hkey.1 with h | h <;> cases h
  | openAiContent | openAiToolCall | openAiReasoning | openAiFunctionCallArgs | openAiRefusal =>
      rcases hkey with h | h <;> cases h

/-- Of what the proxy made, the deferred frames alone count. -/
private theorem readAll_made (hp : ctx.provider = .gemini) (h : Finished ctx frames st)
    {es : List Emission} (hes : ∀ e ∈ es, e ∈ st.items) :
    readAll ctx nonText (es.filter Emission.made) =
      readAll ctx nonText (es.filter Emission.isDeferred) := by
  have hdeferred : es.filter Emission.isDeferred =
      (es.filter Emission.made).filter Emission.isDeferred := by
    rw [List.filter_filter]
    apply List.filter_congr
    intro e _
    cases e <;> rfl
  rw [hdeferred]
  symm
  apply filter_flatMap_eq_iff.mpr
  intro e he hne
  obtain ⟨he, hmade⟩ := List.mem_filter.mp he
  cases e with
  | synthetic key text =>
      obtain ⟨-, cut, hcut, rfl, -⟩ := h.synthetic_mem (hes _ he)
      have hkey := h.ofProvider hcut
      rw [hp] at hkey
      exact absurd (nonText_syntheticValue hkey text) hne
  | deferred extra => rfl
  | passthrough frame => cases hmade
  | raw bytes => cases hmade

/-- What a frame puts off, as the client reads it. -/
private theorem readAll_deferredFor (hp : ctx.provider = .gemini) (frame : Bytes) :
    readAll ctx nonText (deferredFor ctx frame) =
      ((frameValue ctx frame).map fun v => nonText (geminiExtra v)).getD [] := by
  unfold deferredFor deferredOf frameValue
  cases (dataContent frame).bind ctx.crates.parse with
  | none => rfl
  | some v =>
      simp only [if_pos hp]
      split
      · rename_i hempty
        rw [Option.map_some, nonText_of_empty hempty]
        rfl
      · simp [readAll, Emission.value]

/-- What all frames put off is everything exactly when no frame has two calls. -/
private theorem readAll_collected_iff (hp : ctx.provider = .gemini) :
    readAll ctx nonText (collected ctx frames) =
        readAll ctx nonText
          (arrived (frames.filter fun frame => !(extracted ctx frame).isEmpty)) ↔
      OneCall ctx frames := by
  have hcollected : readAll ctx nonText (collected ctx frames) =
      frames.flatMap fun frame => if (extracted ctx frame).isEmpty then []
        else ((frameValue ctx frame).map fun v => nonText (geminiExtra v)).getD [] := by
    rw [collected, readAll, List.flatMap_assoc]
    apply List.flatMap_congr
    intro frame _
    split
    · rfl
    · exact readAll_deferredFor hp frame
  have harrived : readAll ctx nonText
      (arrived (frames.filter fun frame => !(extracted ctx frame).isEmpty)) =
        frames.flatMap fun frame => if (extracted ctx frame).isEmpty then []
          else ((frameValue ctx frame).map nonText).getD [] := by
    rw [readAll, arrived, List.flatMap_map, filter_flatMap]
    apply List.flatMap_congr
    intro frame _
    cases (extracted ctx frame).isEmpty <;> rfl
  rw [hcollected, harrived, flatMap_eq_flatMap_iff]
  · apply forall₂_congr
    intro frame _
    cases hext : extracted ctx frame with
    | nil => simp
    | cons f fields =>
        cases hv : frameValue ctx frame with
        | none => simp
        | some v => simp [nonText_extra_iff]
  · intro frame _
    split
    · exact le_rfl
    · cases frameValue ctx frame with
      | none => exact le_rfl
      | some v => exact nonText_extra_length v

end Gemini

/-- Gemini's other content is kept exactly when no content frame has two calls:
all of it has arrived when the stream ends, and already when a frame without
content has given the reason for its end. -/
theorem extrasKept_iff {ctx : SseCtx} (hr : RestoresText ctx.crates ctx.entries)
    (hp : ctx.provider = .gemini) (frames : List Bytes) :
    ∃ st₀ st, runFrames ctx frames RestoreState.init = .ok st₀ ∧
      flushAllAccumulators ctx st₀ = .ok st ∧
      (ExtrasKept ctx frames st.items ↔ OneCall ctx frames) ∧
      ∀ front last, frames = front ++ [last] → GeminiFinish ctx last →
        (ExtrasKept ctx frames st₀.outputQueue ↔ OneCall ctx frames) := by
  obtain ⟨st₀, hrun⟩ := hr.runFrames frames RestoreState.init
  obtain ⟨st, hflush⟩ := hr.flushAllAccumulators st₀
  have h : Finished ctx frames st := ⟨st₀, hrun, hflush⟩
  refine ⟨st₀, st, hrun, hflush, ?_, ?_⟩
  · rw [ExtrasKept, readAll_made hp h fun _ he => he, h.deferred_items, readAll_collected_iff hp]
  · rintro front last rfl hfinish
    have hmem : ∀ e ∈ st₀.outputQueue, e ∈ st.items := by
      intro e he
      obtain ⟨r, -, rfl⟩ := flushAllAccumulators_cases hflush
      exact List.mem_append_left _ (List.mem_append_left _ he)
    have hdrained : st₀.deferredPassthrough = [] := by
      obtain ⟨st₁, -, hstep⟩ := runFrames_unsnoc hrun
      obtain ⟨cuts, hflushed⟩ :=
        processOneFrame_terminal (terminalScope_of_geminiFinish hp hfinish) hstep
      exact hflushed.drained hp
    have hout := (runFrames_outputInOrder hrun).deferred
    rw [hdrained, List.append_nil] at hout
    rw [ExtrasKept, readAll_made hp h hmem, hout, readAll_collected_iff hp]

/-- An event with a text and calls of functions without arguments. -/
def namesEvent (names : List Text) : Json :=
  .object [("candidates", .array [.object [("content", .object [("parts", .array
    (.object [("text", .string "a")] ::
      names.map fun name => .object [("functionCall", .object [("name", .string name)])]))])]])]

def namesCtx (names : List Text) : SseCtx := sampleCtx .gemini [namesEvent names]

private theorem namesCtx_restoresText (names : List Text) :
    RestoresText (namesCtx names).crates (namesCtx names).entries :=
  sampleCtx_restoresText _ _

private theorem frameValue_names (names : List Text) :
    frameValue (namesCtx names) (sampleFrame (namesEvent names)) = some (namesEvent names) :=
  sampleFrame_value (List.mem_singleton_self _)

theorem extrasKept_oneName : ∃ st₀ st,
    runFrames (namesCtx ["f"]) [sampleFrame (namesEvent ["f"])] RestoreState.init = .ok st₀ ∧
    flushAllAccumulators (namesCtx ["f"]) st₀ = .ok st ∧
    ExtrasKept (namesCtx ["f"]) [sampleFrame (namesEvent ["f"])] st.items := by
  obtain ⟨st₀, st, hrun, hflush, hiff, -⟩ := extrasKept_iff (namesCtx_restoresText ["f"]) rfl
    [sampleFrame (namesEvent ["f"])]
  refine ⟨st₀, st, hrun, hflush, hiff.mpr ?_⟩
  intro frame hframe _ v hv
  obtain rfl := List.mem_singleton.mp hframe
  obtain rfl : namesEvent ["f"] = v := Option.some.inj ((frameValue_names _).symm.trans hv)
  exact le_rfl

/-- Of two function calls in one frame the first is overwritten. -/
theorem callName_lost : ∃ st,
    Finished (namesCtx ["f", "g"]) [sampleFrame (namesEvent ["f", "g"])] st ∧
    readAll (namesCtx ["f", "g"]) nonText (arrived [sampleFrame (namesEvent ["f", "g"])]) =
      [.callName (.string "f"), .callName (.string "g")] ∧
    readAll (namesCtx ["f", "g"]) nonText (st.items.filter Emission.made) =
      [.callName (.string "g")] ∧
    ¬ ExtrasKept (namesCtx ["f", "g"]) [sampleFrame (namesEvent ["f", "g"])] st.items := by
  obtain ⟨st, hst⟩ := (namesCtx_restoresText ["f", "g"]).finished
    [sampleFrame (namesEvent ["f", "g"])]
  have hext : (extracted (namesCtx ["f", "g"])
      (sampleFrame (namesEvent ["f", "g"]))).isEmpty = false := by
    rw [namesCtx, sampleFrame_extracted (List.mem_singleton_self _)]
    rfl
  have harrived : readAll (namesCtx ["f", "g"]) nonText
      (arrived [sampleFrame (namesEvent ["f", "g"])]) =
        [.callName (.string "f"), .callName (.string "g")] := by
    rw [readAll_arrived_one, frameValue_names]
    rfl
  have hmade : readAll (namesCtx ["f", "g"]) nonText (st.items.filter Emission.made) =
      [.callName (.string "g")] := by
    rw [readAll_made rfl hst fun _ he => he, hst.deferred_items, collected, List.flatMap_singleton,
      if_neg (by simp [hext]), readAll_deferredFor rfl, frameValue_names]
    rfl
  refine ⟨st, hst, harrived, hmade, fun hkept => ?_⟩
  have hfilter : [sampleFrame (namesEvent ["f", "g"])].filter
      (fun frame => !(extracted (namesCtx ["f", "g"]) frame).isEmpty) =
        [sampleFrame (namesEvent ["f", "g"])] := by
    simp [hext]
  rw [ExtrasKept, hmade, hfilter, harrived] at hkept
  exact absurd (congrArg List.length hkept) (by decide)

end LlmCacheProxy.Sse
