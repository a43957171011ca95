import LlmCacheProxy.Sse.Conservation
import LlmCacheProxy.Sse.Output

/-!
# Terminal events

A terminal frame is queued behind everything that was received for the keys in
its scope, and behind Gemini's deferred frames. It empties the accumulators in
its scope and touches no other.
-/

namespace LlmCacheProxy.Sse

/-- A block ends exactly the deltas of its index, of every type. -/
theorem TerminalScope.contains_block {n : UInt64} {key : FieldKey} :
    (TerminalScope.block n).contains key = true ↔
      ∃ deltaType, key = .anthropicDelta deltaType n := by
  cases key <;> simp [TerminalScope.contains]

theorem TerminalScope.contains_stream (key : FieldKey) :
    TerminalScope.stream.contains key = true := rfl

/-! ### The terminal frame -/

/-- What a terminal frame does to the state it finds. -/
structure FlushedBefore (ctx : SseCtx) (scope : TerminalScope) (frame : Bytes)
    (st st' : RestoreState) (cuts : List Cut) : Prop where
  cuts_eq : st'.cuts = st.cuts ++ cuts
  /-- Restored text first, then what Gemini deferred, then the terminal itself. -/
  queue_eq : st'.outputQueue = st.outputQueue ++ cuts.flatMap Cut.emission ++
    (if ctx.provider = .gemini then st.deferredPassthrough else []) ++ [.passthrough frame]
  in_scope : ∀ cut ∈ cuts, scope.contains cut.key = true
  emptied : ∀ key, scope.contains key = true → st'.accum key = Text.empty
  untouched : ∀ key, scope.contains key = false →
    st'.accum key = st.accum key ∧ st'.cutsFor key = st.cutsFor key
  drained : ctx.provider = .gemini → st'.deferredPassthrough = []

/-- A terminal frame flushes its scope and nothing else. -/
theorem processOneFrame_terminal {ctx : SseCtx} {frame : Bytes} {scope : TerminalScope}
    {st st' : RestoreState} (hscope : terminalScope ctx frame = some scope)
    (h : processOneFrame ctx frame st = .ok st') :
    ∃ cuts, FlushedBefore ctx scope frame st st' cuts := by
  have hkey := processOneFrame_key h
  rcases processOneFrame_cases h with ⟨-, hnone, -⟩ | ⟨scope', r, hext, hscope', hvisit, heq⟩ |
    ⟨r, -, hnone, -, -⟩
  · rw [hscope] at hnone
    cases hnone
  · obtain rfl : scope = scope' := by simpa using hscope.symm.trans hscope'
    have hinput (key : FieldKey) : keyInput ctx key frame =
        if scope.contains key then .terminal else .other := by
      simp only [keyInput, hext, hscope]
    have hcuts : st'.cuts = st.cuts ++ r.2 := by
      rw [heq, beforeTerminal]
      split <;> rfl
    have hkeyCuts (key : FieldKey) : st'.cutsFor key =
        st.cutsFor key ++ r.2.filter fun cut => cut.key = key := by
      rw [RestoreState.cutsFor, hcuts, List.filter_append]
      rfl
    have hout (key : FieldKey) (hc : scope.contains key = false) :
        st'.accum key = st.accum key ∧ st'.cutsFor key = st.cutsFor key := by
      obtain ⟨cuts, hstep, hcuts'⟩ := hkey key
      rw [hinput, hc] at hstep
      obtain ⟨haccum, rfl⟩ : st.accum key = st'.accum key ∧ cuts = [] := by
        simpa [keyStep, eq_comm] using hstep
      exact ⟨haccum.symm, by simpa using hcuts'⟩
    refine ⟨r.2, hcuts, ?_, ?_, ?_, hout, ?_⟩
    · rw [heq, beforeTerminal]
      split <;> simp [RestoreState.push, RestoreState.drainDeferred, RestoreState.flushed]
    · intro cut hcut
      by_contra hc
      have hfor := (hout cut.key (by simpa using hc)).2
      rw [hkeyCuts, List.append_right_eq_self, List.filter_eq_nil_iff] at hfor
      exact hfor cut hcut (by simp)
    · intro key hc
      obtain ⟨cuts, hstep, -⟩ := hkey key
      rw [hinput, hc] at hstep
      exact keyStep_terminal hstep
    · intro hp
      rw [heq, beforeTerminal, if_pos hp]
      rfl
  · rw [hscope] at hnone
    cases hnone

/-- In every reachable state a terminal frame is queued behind all the text
received for the keys in its scope, and for Gemini behind all deferred frames.
Whatever was handed to restore shows in the queue. -/
theorem terminal_after_received {ctx : SseCtx} (hr : RestoresText ctx.crates ctx.entries)
    {frames : List Bytes} {st : RestoreState}
    (hst : runFrames ctx frames RestoreState.init = .ok st) {frame : Bytes}
    {scope : TerminalScope} (hscope : terminalScope ctx frame = some scope) :
    ∃ st' cuts, processOneFrame ctx frame st = .ok st' ∧
      FlushedBefore ctx scope frame st st' cuts ∧
      (∀ key, scope.contains key = true → st'.handed key = received ctx key frames) ∧
      (∀ key, emittedTexts key st'.outputQueue = (st'.cutsFor key).filterMap Cut.shown) ∧
      (ctx.provider = .gemini →
        st'.outputQueue.filter Emission.isDeferred = collected ctx frames) := by
  obtain ⟨st', hst'⟩ := hr.processOneFrame frame st
  obtain ⟨cuts, hflushed⟩ := processOneFrame_terminal hscope hst'
  have hext : extracted ctx frame = [] := by
    rcases processOneFrame_cases hst' with ⟨hext, -⟩ | ⟨-, -, hext, -⟩ | ⟨-, -, hnone, -⟩
    · exact hext
    · exact hext
    · rw [hscope] at hnone
      cases hnone
  have hrun : runFrames ctx (frames ++ [frame]) RestoreState.init = .ok st' :=
    runFrames_snoc hst hst'
  have hout := runFrames_outputInOrder hrun
  refine ⟨st', cuts, hst', hflushed, fun key hc => ?_, hout.emitted, fun hp => ?_⟩
  · have hconserved := runFrames_conserves hrun key
    rw [hflushed.emptied key hc, Text.append_empty] at hconserved
    rw [hconserved]
    simp [received, hext, textFor]
  · have heq := hout.deferred
    rw [hflushed.drained hp, List.append_nil] at heq
    rw [heq]
    simp [collected, hext]

/-- The end of a chat, behind its only chunk. -/
theorem terminal_after_received_chat :
    ∃ st st' cuts, runFrames chatCtx [chatChunk] RestoreState.init = .ok st ∧
      processOneFrame chatCtx chatDone st = .ok st' ∧
      FlushedBefore chatCtx .stream chatDone st st' cuts ∧
      (∀ key, TerminalScope.stream.contains key = true →
        st'.handed key = received chatCtx key [chatChunk]) ∧
      (∀ key, emittedTexts key st'.outputQueue = (st'.cutsFor key).filterMap Cut.shown) ∧
      (chatCtx.provider = .gemini →
        st'.outputQueue.filter Emission.isDeferred = collected chatCtx [chatChunk]) := by
  have hr : RestoresText chatCtx.crates chatCtx.entries := leftmostCrates_restoresText _ _
  obtain ⟨st, hst⟩ := hr.runFrames [chatChunk] RestoreState.init
  have hscope : terminalScope chatCtx chatDone = some .stream := by decide
  obtain ⟨st', cuts, h⟩ := terminal_after_received hr hst hscope
  exact ⟨st, st', cuts, hst, h⟩

end LlmCacheProxy.Sse
