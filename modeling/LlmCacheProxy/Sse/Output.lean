import LlmCacheProxy.Sse.KeyWindow

/-!
# What the output queue holds

The queue holds every frame without content, every restored text that is not
empty and every deferred frame that has been released, each of them once and in
the order in which it arose.
-/

namespace LlmCacheProxy.Sse

/-- The restored texts sent in frames of their own for a key. -/
def emittedTexts (key : FieldKey) (queue : List Emission) : List Text :=
  queue.filterMap fun e =>
    match e with
    | .synthetic k text => if k = key then some text else none
    | _ => none

/-- The restored text of a cut, unless it is empty. -/
def Cut.shown (cut : Cut) : Option Text :=
  if cut.restored = Text.empty then none else some cut.restored

def Emission.isDeferred : Emission → Bool
  | .deferred _ => true
  | _ => false

/-- The upstream frames among the queued items. -/
def passedFrames (queue : List Emission) : List Bytes :=
  queue.filterMap fun e =>
    match e with
    | .passthrough frame => some frame
    | _ => none

/-- The deferred frames that a list of frames gives rise to. -/
def collected (ctx : SseCtx) (frames : List Bytes) : List Emission :=
  frames.flatMap fun frame => if (extracted ctx frame).isEmpty then [] else deferredFor ctx frame

/-- What the queue of a run over `frames` holds. -/
structure OutputInOrder (ctx : SseCtx) (frames : List Bytes) (st : RestoreState) : Prop where
  waiting : ∀ e ∈ st.deferredPassthrough, e.isDeferred = true
  deferred : st.outputQueue.filter Emission.isDeferred ++ st.deferredPassthrough =
    collected ctx frames
  emitted : ∀ key, emittedTexts key st.outputQueue = (st.cutsFor key).filterMap Cut.shown
  passed : passedFrames st.outputQueue =
    frames.filter fun frame => (extracted ctx frame).isEmpty

/-! ### What each part of the queue contributes -/

theorem isDeferred_deferredFor {ctx : SseCtx} {frame : Bytes} :
    ∀ e ∈ deferredFor ctx frame, e.isDeferred = true := by
  intro e he
  unfold deferredFor deferredOf at he
  split at he
  · split at he
    · split at he
      · cases he
      · obtain rfl := List.mem_singleton.mp he
        rfl
    · cases he
  · cases he

theorem emittedTexts_append (key : FieldKey) (q r : List Emission) :
    emittedTexts key (q ++ r) = emittedTexts key q ++ emittedTexts key r :=
  List.filterMap_append

theorem passedFrames_append (q r : List Emission) :
    passedFrames (q ++ r) = passedFrames q ++ passedFrames r :=
  List.filterMap_append

theorem emittedTexts_of_deferred {key : FieldKey} {q : List Emission}
    (h : ∀ e ∈ q, e.isDeferred = true) : emittedTexts key q = [] := by
  rw [emittedTexts, List.filterMap_eq_nil_iff]
  intro e he
  have := h e he
  cases e <;> simp_all [Emission.isDeferred]

theorem passedFrames_of_deferred {q : List Emission}
    (h : ∀ e ∈ q, e.isDeferred = true) : passedFrames q = [] := by
  rw [passedFrames, List.filterMap_eq_nil_iff]
  intro e he
  have := h e he
  cases e <;> simp_all [Emission.isDeferred]

/-- Each cut shows under its own key. -/
theorem emittedTexts_cuts (key : FieldKey) (cuts : List Cut) :
    emittedTexts key (cuts.flatMap Cut.emission) =
      (cuts.filter fun cut => cut.key = key).filterMap Cut.shown := by
  induction cuts with
  | nil => rfl
  | cons cut cuts ih =>
      rw [List.flatMap_cons, emittedTexts_append, ih]
      by_cases hk : cut.key = key
      · by_cases he : cut.restored = Text.empty
        · simp [emittedTexts, Cut.emission, Cut.shown, he, hk]
        · simp [emittedTexts, Cut.emission, Cut.shown, he, hk]
      · by_cases he : cut.restored = Text.empty
        · simp [emittedTexts, Cut.emission, he, hk]
        · simp [emittedTexts, Cut.emission, he, hk]

private theorem mem_emissions {cuts : List Cut} {e : Emission}
    (h : e ∈ cuts.flatMap Cut.emission) : ∃ key text, e = .synthetic key text := by
  obtain ⟨cut, -, he⟩ := List.mem_flatMap.mp h
  unfold Cut.emission at he
  split at he
  · cases he
  · exact ⟨_, _, List.mem_singleton.mp he⟩

theorem filter_deferred_cuts (cuts : List Cut) :
    (cuts.flatMap Cut.emission).filter Emission.isDeferred = [] := by
  rw [List.filter_eq_nil_iff]
  intro e he
  obtain ⟨key, text, rfl⟩ := mem_emissions he
  simp [Emission.isDeferred]

theorem passedFrames_cuts (cuts : List Cut) : passedFrames (cuts.flatMap Cut.emission) = [] := by
  rw [passedFrames, List.filterMap_eq_nil_iff]
  intro e he
  obtain ⟨key, text, rfl⟩ := mem_emissions he
  rfl

@[simp] theorem emittedTexts_passthrough (key : FieldKey) (frame : Bytes) :
    emittedTexts key [.passthrough frame] = [] := rfl

@[simp] theorem passedFrames_passthrough (frame : Bytes) :
    passedFrames [.passthrough frame] = [frame] := rfl

/-! ### Runs -/

theorem OutputInOrder.init (ctx : SseCtx) : OutputInOrder ctx [] RestoreState.init :=
  ⟨by simp [RestoreState.init], rfl, fun _ => rfl, rfl⟩

/-- Rounds of flushes show their cuts. -/
theorem OutputInOrder.flushed_emitted {ctx : SseCtx} {frames : List Bytes}
    {st : RestoreState} (h : OutputInOrder ctx frames st)
    (r : SortedMap FieldKey Text × List Cut) (key : FieldKey) :
    emittedTexts key (st.outputQueue ++ r.2.flatMap Cut.emission) =
      ((st.flushed r).cutsFor key).filterMap Cut.shown := by
  rw [emittedTexts_append, h.emitted, emittedTexts_cuts]
  simp [RestoreState.cutsFor, RestoreState.flushed]

/-- One frame keeps the queue in order. -/
theorem OutputInOrder.step {ctx : SseCtx} {frames : List Bytes} {frame : Bytes}
    {st st' : RestoreState} (hst : OutputInOrder ctx frames st)
    (h : processOneFrame ctx frame st = .ok st') : OutputInOrder ctx (frames ++ [frame]) st' := by
  have hcollected : collected ctx (frames ++ [frame]) = collected ctx frames ++
      if (extracted ctx frame).isEmpty then [] else deferredFor ctx frame := by
    simp [collected]
  rcases processOneFrame_cases h with ⟨hext, -, rfl⟩ | ⟨scope, r, hext, -, -, rfl⟩ |
    ⟨r, hext, -, -, rfl⟩
  · refine ⟨hst.waiting, ?_, fun key => ?_, ?_⟩
    · rw [hcollected, ← hst.deferred]
      simp [RestoreState.push, hext, Emission.isDeferred]
    · simp only [RestoreState.push, emittedTexts_append, hst.emitted]
      simp [RestoreState.cutsFor]
    · simp only [RestoreState.push, passedFrames_append, hst.passed]
      simp [hext]
  · have hqueue : ((beforeTerminal ctx (st.flushed r)).push (.passthrough frame)).outputQueue =
        st.outputQueue ++ r.2.flatMap Cut.emission ++
          (if ctx.provider = .gemini then st.deferredPassthrough else []) ++
          [.passthrough frame] := by
      unfold beforeTerminal
      split <;> simp [RestoreState.push, RestoreState.drainDeferred, RestoreState.flushed]
    have hmoved : ∀ e ∈ (if ctx.provider = .gemini then st.deferredPassthrough else []),
        e.isDeferred = true := by
      split
      · exact hst.waiting
      · exact fun _ he => absurd he List.not_mem_nil
    refine ⟨?_, ?_, fun key => ?_, ?_⟩
    · unfold beforeTerminal
      split
      · exact fun _ he => absurd he List.not_mem_nil
      · exact hst.waiting
    · rw [hcollected, ← hst.deferred, hqueue, List.filter_append, List.filter_append,
        List.filter_append, filter_deferred_cuts, List.filter_eq_self.mpr hmoved]
      unfold beforeTerminal
      split <;> simp [hext, Emission.isDeferred, RestoreState.push, RestoreState.drainDeferred,
        RestoreState.flushed]
    · rw [hqueue, emittedTexts_append, emittedTexts_append, hst.flushed_emitted,
        emittedTexts_of_deferred hmoved]
      unfold beforeTerminal
      split <;> simp [RestoreState.cutsFor, RestoreState.push, RestoreState.drainDeferred]
    · rw [hqueue, passedFrames_append, passedFrames_append, passedFrames_append, hst.passed,
        passedFrames_cuts, passedFrames_of_deferred hmoved]
      simp [hext]
  · refine ⟨fun e he => ?_, ?_, fun key => ?_, ?_⟩
    · rcases List.mem_append.mp he with he | he
      · exact hst.waiting e he
      · exact isDeferred_deferredFor e he
    · rw [hcollected, ← hst.deferred]
      simp [RestoreState.flushed, hext, filter_deferred_cuts]
    · exact hst.flushed_emitted r key
    · simp only [RestoreState.flushed, passedFrames_append, hst.passed, passedFrames_cuts]
      simp [hext]

/-- In every reachable state the queue is in order. -/
theorem runFrames_outputInOrder {ctx : SseCtx} {frames : List Bytes} {st : RestoreState}
    (h : runFrames ctx frames RestoreState.init = .ok st) : OutputInOrder ctx frames st :=
  runFrames_invariant (OutputInOrder.init ctx) (fun _ _ _ _ => OutputInOrder.step) h

end LlmCacheProxy.Sse
