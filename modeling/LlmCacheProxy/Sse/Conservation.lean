import LlmCacheProxy.Sse.KeyWindow

/-!
# Conservation of text

Nothing that arrives for a key is lost, repeated or reordered: what was handed
to restore for it, followed by what still waits, is what arrived. The flush at
the end of the stream leaves nothing waiting.
-/

namespace LlmCacheProxy.Sse

/-- The text handed to restore for a key so far. -/
def RestoreState.handed (st : RestoreState) (key : FieldKey) : Text :=
  Text.concat ((st.cutsFor key).map Cut.segment)

/-- The text that a list of frames carries for a key. -/
def received (ctx : SseCtx) (key : FieldKey) (frames : List Bytes) : Text :=
  Text.concat (frames.map fun frame => textFor key (extracted ctx frame))

theorem received_append (ctx : SseCtx) (key : FieldKey) (front back : List Bytes) :
    received ctx key (front ++ back) = received ctx key front ++ received ctx key back := by
  rw [received, List.map_append, Text.concat_append]
  rfl

theorem received_cons (ctx : SseCtx) (key : FieldKey) (frame : Bytes) (frames : List Bytes) :
    received ctx key (frame :: frames) =
      textFor key (extracted ctx frame) ++ received ctx key frames := by
  simp [received]

/-- Nothing was received for a key if all its fields are empty, and only then. -/
theorem received_eq_empty_iff {ctx : SseCtx} {key : FieldKey} {frames : List Bytes} :
    received ctx key frames = Text.empty ↔
      ∀ frame ∈ frames, ∀ f ∈ extracted ctx frame, f.key = key → f.text = Text.empty := by
  simp only [received, textFor, Text.concat_eq_empty_iff, List.forall_mem_map, List.mem_filter,
    decide_eq_true_eq, and_imp]

/-- A run of a key's window conserves text. -/
theorem run_conserves {ctx : SseCtx} {key : FieldKey} {inputs : List KeyInput}
    {accum rest : Text} {cuts : List Cut}
    (h : Transducer.run (keyStep ctx key) inputs accum = .ok (rest, cuts)) :
    Text.concat (cuts.map Cut.segment) ++ rest =
      accum ++ Text.concat (inputs.map KeyInput.text) := by
  induction inputs generalizing accum cuts with
  | nil =>
      obtain ⟨rfl, rfl⟩ := by simpa using h
      simp
  | cons input inputs ih =>
      obtain ⟨next, cuts₁, cuts₂, hstep, hrest, rfl⟩ := Transducer.run_cons h
      calc
        Text.concat ((cuts₁ ++ cuts₂).map Cut.segment) ++ rest =
            Text.concat (cuts₁.map Cut.segment) ++
              (Text.concat (cuts₂.map Cut.segment) ++ rest) := by
          rw [List.map_append, Text.concat_append, Text.append_assoc]
        _ = Text.concat (cuts₁.map Cut.segment) ++ next ++
            Text.concat (inputs.map KeyInput.text) := by
          rw [ih hrest, Text.append_assoc]
        _ = accum ++ Text.concat ((input :: inputs).map KeyInput.text) := by
          rw [keyStep_concat hstep, Text.append_assoc, List.map_cons, Text.concat_cons]

/-- At every point of a run of frames, each key's text is conserved. -/
theorem runFrames_conserves {ctx : SseCtx} {frames : List Bytes} {st : RestoreState}
    (h : runFrames ctx frames RestoreState.init = .ok st) (key : FieldKey) :
    st.handed key ++ st.accum key = received ctx key frames := by
  obtain ⟨cuts, hrun, hcuts⟩ := runFrames_key h key
  have hinit : RestoreState.init.cutsFor key = [] := rfl
  have hempty : RestoreState.init.accum key = Text.empty := rfl
  have htext : KeyInput.text ∘ keyInput ctx key = fun frame => textFor key (extracted ctx frame) :=
    funext (keyInput_text ctx key)
  calc
    st.handed key ++ st.accum key = Text.concat (cuts.map Cut.segment) ++ st.accum key := by
      rw [RestoreState.handed, hcuts, hinit, List.nil_append]
    _ = Text.concat ((frames.map (keyInput ctx key)).map KeyInput.text) := by
      rw [run_conserves hrun, hempty, Text.empty_append]
    _ = received ctx key frames := by rw [List.map_map, htext, received]

/-- The flush at the end hands over what waits and leaves nothing. -/
theorem flushAll_conserves {ctx : SseCtx} {st st' : RestoreState}
    (h : flushAllAccumulators ctx st = .ok st') (key : FieldKey) :
    st'.accum key = Text.empty ∧ st'.handed key = st.handed key ++ st.accum key := by
  obtain ⟨cuts, hstep, hcuts⟩ := flushAllAccumulators_key h key
  have hempty := keyStep_terminal hstep
  refine ⟨hempty, ?_⟩
  have hconcat := keyStep_concat hstep
  rw [hempty, Text.append_empty] at hconcat
  rw [RestoreState.handed, hcuts, List.map_append, Text.concat_append, hconcat]
  simp [KeyInput.text, RestoreState.handed]

/-- Every run of frames completes, conserves the text of every key at its end,
and can be flushed to empty accumulators; every cut of a flush is a character
boundary inside its accumulator. -/
theorem runFrames_total_conserves {ctx : SseCtx} (hr : RestoresText ctx.crates ctx.entries)
    (frames : List Bytes) :
    (∃ st, runFrames ctx frames RestoreState.init = .ok st ∧
      (∀ key, st.handed key ++ st.accum key = received ctx key frames) ∧
      ∃ st', flushAllAccumulators ctx st = .ok st' ∧
        ∀ key, st'.accum key = Text.empty ∧ st'.handed key = received ctx key frames) ∧
    ∀ (holdWindow : Nat) (accum : Text),
      cutPoint ctx.entries holdWindow accum.bytes ≤ accum.length ∧
      Utf8.isCharBoundary accum.bytes (cutPoint ctx.entries holdWindow accum.bytes) = true := by
  obtain ⟨st, hst⟩ := hr.runFrames frames RestoreState.init
  obtain ⟨st', hst'⟩ := hr.flushAllAccumulators st
  refine ⟨⟨st, hst, runFrames_conserves hst, st', hst', fun key => ?_⟩, fun w accum => ?_⟩
  · obtain ⟨hempty, hhanded⟩ := flushAll_conserves hst' key
    exact ⟨hempty, hhanded.trans (runFrames_conserves hst key)⟩
  · exact ⟨(cutPoint_le _ _ _).trans (Nat.sub_le _ _), isCharBoundary_cutPoint _ _ _⟩

/-- A chat completion chunk with a fake in it, and the end of its stream. -/
theorem runFrames_total_conserves_chat :
    (∃ st, runFrames chatCtx [chatChunk, chatDone] RestoreState.init = .ok st ∧
      (∀ key, st.handed key ++ st.accum key = received chatCtx key [chatChunk, chatDone]) ∧
      ∃ st', flushAllAccumulators chatCtx st = .ok st' ∧
        ∀ key, st'.accum key = Text.empty ∧
          st'.handed key = received chatCtx key [chatChunk, chatDone]) ∧
    ∀ (holdWindow : Nat) (accum : Text),
      cutPoint alikeEntries holdWindow accum.bytes ≤ accum.length ∧
      Utf8.isCharBoundary accum.bytes (cutPoint alikeEntries holdWindow accum.bytes) = true :=
  runFrames_total_conserves (leftmostCrates_restoresText _ _) [chatChunk, chatDone]

end LlmCacheProxy.Sse
