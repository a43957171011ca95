import LlmCacheProxy.Sse.Finished
import LlmCacheProxy.Sse.Stream

/-!
# Frames without content

A frame from which nothing is extracted is queued unchanged while it is being
processed. Without the frames that the proxy makes itself, the queue is the
upstream's, with the content frames left out.
-/

namespace LlmCacheProxy.Sse

/-- Frames that the proxy makes itself. -/
def Emission.made : Emission → Bool
  | .synthetic _ _ => true
  | .deferred _ => true
  | .passthrough _ => false
  | .raw _ => false

theorem Emission.made_of_isDeferred {e : Emission} (h : e.isDeferred = true) : e.made = true := by
  cases e with
  | deferred extra => rfl
  | synthetic | passthrough | raw => cases h

private theorem filter_made_eq_nil {q : List Emission} (h : ∀ e ∈ q, e.made = true) :
    (q.filter fun e => !e.made) = [] := by
  rw [List.filter_eq_nil_iff]
  intro e he
  simp [h e he]

private theorem made_cuts (cuts : List Cut) : ∀ e ∈ cuts.flatMap Cut.emission, e.made = true := by
  intro e he
  obtain ⟨cut, -, he⟩ := List.mem_flatMap.mp he
  unfold Cut.emission at he
  split at he
  · cases he
  · obtain rfl := List.mem_singleton.mp he
    rfl

/-- The frames of a list that carry no content, as queued items. -/
def passed (ctx : SseCtx) (frames : List Bytes) : List Emission :=
  (frames.filter fun frame => (extracted ctx frame).isEmpty).map .passthrough

/-- One frame: it is added to the upstream's part of the queue if it carries no
content, at the very end; otherwise nothing is added to that part. -/
theorem processOneFrame_passes {ctx : SseCtx} {frame : Bytes} {st st' : RestoreState}
    (hwait : ∀ e ∈ st.deferredPassthrough, e.isDeferred = true)
    (h : processOneFrame ctx frame st = .ok st') :
    (∀ e ∈ st'.deferredPassthrough, e.isDeferred = true) ∧
    (st'.outputQueue.filter fun e => !e.made) =
      (st.outputQueue.filter fun e => !e.made) ++ passed ctx [frame] ∧
    (extracted ctx frame = [] →
      ∃ queue, st.outputQueue <+: queue ∧ st'.outputQueue = queue ++ [.passthrough frame]) := by
  rcases processOneFrame_cases h with ⟨hext, -, rfl⟩ | ⟨scope, r, hext, -, -, rfl⟩ |
    ⟨r, hext, -, -, rfl⟩
  · refine ⟨hwait, ?_, fun _ => ⟨_, List.prefix_rfl, rfl⟩⟩
    simp [RestoreState.push, passed, hext, Emission.made]
  · have hqueue : (beforeTerminal ctx (st.flushed r)).outputQueue =
        st.outputQueue ++ (r.2.flatMap Cut.emission ++
          if ctx.provider = .gemini then st.deferredPassthrough else []) := by
      unfold beforeTerminal
      split <;> simp [RestoreState.drainDeferred, RestoreState.flushed]
    have hmade : ∀ e ∈ r.2.flatMap Cut.emission ++
        (if ctx.provider = .gemini then st.deferredPassthrough else []), e.made = true := by
      intro e he
      rcases List.mem_append.mp he with he | he
      · exact made_cuts _ e he
      · split at he
        · exact Emission.made_of_isDeferred (hwait e he)
        · cases he
    refine ⟨?_, ?_, fun _ => ⟨_, ?_, rfl⟩⟩
    · unfold beforeTerminal
      split
      · exact fun _ he => absurd he List.not_mem_nil
      · exact hwait
    · rw [RestoreState.push, hqueue, List.filter_append, List.filter_append,
        filter_made_eq_nil hmade]
      simp [passed, hext, Emission.made]
    · rw [hqueue]
      exact List.prefix_append _ _
  · refine ⟨fun e he => ?_, ?_, fun hnil => absurd hnil hext⟩
    · rcases List.mem_append.mp he with he | he
      · exact hwait e he
      · exact isDeferred_deferredFor e he
    · simp [RestoreState.flushed, filter_made_eq_nil (made_cuts r.2), passed, hext]

/-- A run adds to the upstream's part of the queue the frames without content. -/
theorem runFrames_passes {ctx : SseCtx} {frames : List Bytes} {st st' : RestoreState}
    (hwait : ∀ e ∈ st.deferredPassthrough, e.isDeferred = true)
    (h : runFrames ctx frames st = .ok st') :
    (∀ e ∈ st'.deferredPassthrough, e.isDeferred = true) ∧
    (st'.outputQueue.filter fun e => !e.made) =
      (st.outputQueue.filter fun e => !e.made) ++ passed ctx frames := by
  apply runFrames_invariant _ _ h
  · exact ⟨hwait, by simp [passed]⟩
  · rintro front frame st₁ st₂ ⟨hwait₁, hqueue₁⟩ hframe
    obtain ⟨hwait₂, hqueue₂, -⟩ := processOneFrame_passes hwait₁ hframe
    refine ⟨hwait₂, ?_⟩
    calc
      (st₂.outputQueue.filter fun e => !e.made) =
          (st.outputQueue.filter fun e => !e.made) ++ passed ctx front ++ passed ctx [frame] := by
        rw [hqueue₂, hqueue₁]
      _ = (st.outputQueue.filter fun e => !e.made) ++ passed ctx (front ++ [frame]) := by
        rw [List.append_assoc, passed, passed, passed, ← List.map_append, ← List.filter_append]

/-- What one pass over a chunk adds to the upstream's part of the queue: the
complete frames without content of the text so far, after its returns have been
dropped. -/
theorem processSseChunk_passes {ctx : SseCtx} {rawFragment chunk rest : Bytes}
    {st st' : RestoreState} (hwait : ∀ e ∈ st.deferredPassthrough, e.isDeferred = true)
    (hv : Utf8.Valid (rawFragment ++ chunk))
    (h : processSseChunk ctx rawFragment chunk st = .ok (rest, st')) :
    ∃ frames, frames.flatten ++ rest = Framing.collapse 0x0D 0x0A (rawFragment ++ chunk) ∧
      (st'.outputQueue.filter fun e => !e.made) =
        (st.outputQueue.filter fun e => !e.made) ++ passed ctx frames := by
  obtain ⟨hrun, rfl⟩ := processSseChunk_ok hv h
  exact ⟨_, Framing.blocks_flatten 0x0A _, (runFrames_passes hwait hrun).2⟩

private theorem init_waiting : ∀ e ∈ RestoreState.init.deferredPassthrough, e.isDeferred = true :=
  fun _ he => absurd he List.not_mem_nil

/-- A frame without content is found in the items where it was queued, right
behind what the queue held when it was processed. -/
theorem Finished.passing {ctx : SseCtx} {front back : List Bytes} {frame : Bytes}
    {st : RestoreState} (h : Finished ctx (front ++ frame :: back) st)
    (hext : extracted ctx frame = []) :
    ∃ st₀ st₁ queue after, runFrames ctx front RestoreState.init = .ok st₀ ∧
      processOneFrame ctx frame st₀ = .ok st₁ ∧ st₀.outputQueue <+: queue ∧
      st₁.outputQueue = queue ++ [.passthrough frame] ∧
      st.items = queue ++ .passthrough frame :: after := by
  obtain ⟨st₀, st₁, after, hfront, hframe, hitems⟩ := h.split
  obtain ⟨-, -, hlast⟩ := processOneFrame_passes (runFrames_passes init_waiting hfront).1 hframe
  obtain ⟨queue, hpre, hqueue⟩ := hlast hext
  refine ⟨st₀, st₁, queue, after, hfront, hframe, hpre, hqueue, ?_⟩
  rw [hitems, hqueue, List.append_assoc]
  rfl

/-- The upstream's part of the items. -/
theorem Finished.filter_items {ctx : SseCtx} {frames : List Bytes} {st : RestoreState}
    (h : Finished ctx frames st) : (st.items.filter fun e => !e.made) = passed ctx frames := by
  obtain ⟨st₀, hrun, hflush⟩ := h
  obtain ⟨r, -, rfl⟩ := flushAllAccumulators_cases hflush
  obtain ⟨hwait, hqueue⟩ := runFrames_passes init_waiting hrun
  have hwaiting := filter_made_eq_nil fun e he => Emission.made_of_isDeferred (hwait e he)
  simp only [RestoreState.items, RestoreState.flushed, List.filter_append, hqueue, hwaiting,
    filter_made_eq_nil (made_cuts r.2), List.append_nil]
  rfl

/-- The upstream's part of what stands in front of a frame without content. -/
theorem filter_queue {ctx : SseCtx} {front : List Bytes} {frame : Bytes} {st₀ st₁ : RestoreState}
    {queue : List Emission} (hfront : runFrames ctx front RestoreState.init = .ok st₀)
    (hframe : processOneFrame ctx frame st₀ = .ok st₁) (hext : extracted ctx frame = [])
    (hqueue : st₁.outputQueue = queue ++ [.passthrough frame]) :
    (queue.filter fun e => !e.made) = passed ctx front := by
  have hpasses := (runFrames_passes init_waiting (runFrames_snoc hfront hframe)).2
  rw [hqueue, List.filter_append, passed, List.filter_append, List.map_append] at hpasses
  have hlast : ([frame].filter fun frame => (extracted ctx frame).isEmpty) = [frame] := by
    simp [hext]
  rw [hlast] at hpasses
  exact List.append_cancel_right hpasses

/-- Without synthetic and deferred frames, the items of a stream are the frames
without content, each once, unchanged and in order, and each was queued while it
was processed. Passes over chunks add the frames of the text without returns. -/
theorem finished_passes {ctx : SseCtx} {frames : List Bytes} {st : RestoreState}
    (h : Finished ctx frames st) :
    (st.items.filter fun e => !e.made) = passed ctx frames ∧
    (∀ front frame back, frames = front ++ frame :: back → extracted ctx frame = [] →
      ∃ st₀ st₁ queue after, runFrames ctx front RestoreState.init = .ok st₀ ∧
        processOneFrame ctx frame st₀ = .ok st₁ ∧ st₀.outputQueue <+: queue ∧
        st₁.outputQueue = queue ++ [.passthrough frame] ∧
        st.items = queue ++ .passthrough frame :: after) ∧
    ∀ rawFragment chunk rest st₀ st₁, (∀ e ∈ st₀.deferredPassthrough, e.isDeferred = true) →
      Utf8.Valid (rawFragment ++ chunk) →
      processSseChunk ctx rawFragment chunk st₀ = .ok (rest, st₁) →
      ∃ complete, complete.flatten ++ rest =
          Framing.collapse 0x0D 0x0A (rawFragment ++ chunk) ∧
        (st₁.outputQueue.filter fun e => !e.made) =
          (st₀.outputQueue.filter fun e => !e.made) ++ passed ctx complete := by
  refine ⟨h.filter_items, ?_, fun _ _ _ _ _ => processSseChunk_passes⟩
  rintro front frame back rfl hext
  exact h.passing hext

/-- A comment and the end of a chat pass, its only chunk does not. -/
theorem finished_passes_ping : ∃ st, Finished chatCtx [lit ": ping\n\n", chatChunk, chatDone] st ∧
    (st.items.filter fun e => !e.made) =
      [.passthrough (lit ": ping\n\n"), .passthrough chatDone] := by
  have hr : RestoresText chatCtx.crates chatCtx.entries := leftmostCrates_restoresText _ _
  obtain ⟨st, hst⟩ := hr.finished [lit ": ping\n\n", chatChunk, chatDone]
  have hplain : ([lit ": ping\n\n", chatChunk, chatDone].filter
      fun frame => (extracted chatCtx frame).isEmpty) = [lit ": ping\n\n", chatDone] := by decide
  refine ⟨st, hst, ?_⟩
  rw [(finished_passes hst).1, passed, hplain]
  rfl

end LlmCacheProxy.Sse
