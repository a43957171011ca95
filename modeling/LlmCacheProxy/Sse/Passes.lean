import LlmCacheProxy.Foundation.Returns
import LlmCacheProxy.Sse.Finished
import LlmCacheProxy.Sse.Resume

/-!
# The passes of a stream

Each turn of the poll loop makes a pass over the stored bytes. Whatever a script
of polls looks like, the run of the stream is told by the frames that its passes
cut off and by the bytes they leave: the frames are processed in order, and the
end of the stream finds the rest.
-/

namespace LlmCacheProxy.Sse

open Framing

/-! ### One pass -/

/-- The complete frames of a text. -/
def completeFrames (text : Bytes) : List Bytes := (blocks 0x0A (collapse 0x0D 0x0A text)).1

/-- The frames that a pass cuts off the stored bytes, and what it leaves. -/
def cutFrames (raw : Bytes) : List Bytes × Bytes :=
  if Utf8.Valid raw then blocks 0x0A (collapse 0x0D 0x0A raw) else ([], raw)

theorem cutFrames_of_valid {raw : Bytes} (h : Utf8.Valid raw) :
    cutFrames raw = blocks 0x0A (collapse 0x0D 0x0A raw) := if_pos h

theorem cutFrames_of_not_valid {raw : Bytes} (h : ¬ Utf8.Valid raw) : cutFrames raw = ([], raw) :=
  if_neg h

@[simp] theorem cutFrames_nil : cutFrames [] = ([], []) :=
  (cutFrames_of_valid Utf8.valid_nil).trans (blocks_of_none rfl)

/-- A pass processes the frames it cuts off. -/
theorem processSseChunk_eq (ctx : SseCtx) (rawFragment newChunk : Bytes) (st : RestoreState) :
    processSseChunk ctx rawFragment newChunk st =
      (runFrames ctx (cutFrames (rawFragment ++ newChunk)).1 st).map
        fun st => ((cutFrames (rawFragment ++ newChunk)).2, st) := by
  unfold processSseChunk cutFrames
  simp only
  split
  · rfl
  · rfl

theorem RestoresText.processSseChunk {ctx : SseCtx} (hr : RestoresText ctx.crates ctx.entries)
    (rawFragment newChunk : Bytes) (st : RestoreState) :
    ∃ st', Sse.runFrames ctx (cutFrames (rawFragment ++ newChunk)).1 st = .ok st' ∧
      Sse.processSseChunk ctx rawFragment newChunk st =
        .ok ((cutFrames (rawFragment ++ newChunk)).2, st') := by
  obtain ⟨st', hst'⟩ := hr.runFrames (cutFrames (rawFragment ++ newChunk)).1 st
  refine ⟨st', hst', ?_⟩
  rw [processSseChunk_eq, hst']
  rfl

/-- A pass only takes returns away. -/
theorem cutFrames_thinned (raw : Bytes) :
    Thinned 0x0D ((cutFrames raw).1.flatten ++ (cutFrames raw).2) raw := by
  by_cases hv : Utf8.Valid raw
  · rw [cutFrames_of_valid hv, blocks_flatten]
    exact collapse_thinned _ _ _
  · rw [cutFrames_of_not_valid hv]
    exact Thinned.refl raw

/-- Later bytes complete a text behind the rest as they do behind the whole. -/
theorem cutFrames_valid (raw t : Bytes) :
    Utf8.Valid ((cutFrames raw).2 ++ t) ↔ Utf8.Valid (raw ++ t) := by
  by_cases hv : Utf8.Valid raw
  · have hrest : Utf8.Valid (blocks 0x0A (collapse 0x0D 0x0A raw)).2 := by
      have h := valid_resume hv (by rwa [List.append_nil])
      rwa [List.append_nil] at h
    rw [cutFrames_of_valid hv, hrest.append_iff, hv.append_iff]
  · rw [cutFrames_of_not_valid hv]

theorem isBlock_of_mem_cutFrames {raw frame : Bytes} (h : frame ∈ (cutFrames raw).1) :
    IsBlock 0x0A frame := by
  by_cases hv : Utf8.Valid raw
  · rw [cutFrames_of_valid hv] at h
    exact isBlock_of_mem_blocks h
  · rw [cutFrames_of_not_valid hv] at h
    cases h

/-- What a pass leaves of a text holds no complete frame. -/
theorem nextBlock_cutFrames {raw : Bytes} (h : Utf8.Valid (cutFrames raw).2) :
    nextBlock 0x0A (cutFrames raw).2 = none := by
  by_cases hv : Utf8.Valid raw
  · rw [cutFrames_of_valid hv]
    exact nextBlock_rest _ _
  · rw [cutFrames_of_not_valid hv] at h
    exact absurd h hv

/-- A pass that cuts off a frame uses up bytes. -/
theorem length_cutFrames_lt {raw : Bytes} (h : (cutFrames raw).1 ≠ []) :
    (cutFrames raw).2.length < raw.length := by
  have hlen := (cutFrames_thinned raw).sublist.length_le
  rw [List.length_append] at hlen
  obtain ⟨frame, frames, hframes⟩ := List.exists_cons_of_ne_nil h
  have hmem : frame ∈ (cutFrames raw).1 := by
    rw [hframes]
    exact List.mem_cons_self ..
  have hblock := isBlock_of_mem_cutFrames hmem
  have htwo := (nextBlock_eq_append hblock).2
  rw [hframes, List.flatten_cons, List.length_append] at hlen
  omega

/-! ### All passes -/

/-- The passes over the stored bytes and over the chunks of a script: the frames
they cut off and what they leave in the end. There may be any number of passes
between two polls. -/
inductive Passes : Bytes → List Polled → List Bytes → Bytes → Prop
  | done (raw : Bytes) : Passes raw [] [] raw
  | again {raw left : Bytes} {script : List Polled} {frames : List Bytes}
      (tail : Passes (cutFrames raw).2 script frames left) :
      Passes raw script ((cutFrames raw).1 ++ frames) left
  | pending {raw left : Bytes} {script : List Polled} {frames : List Bytes}
      (tail : Passes raw script frames left) : Passes raw (.pending :: script) frames left
  | chunk {raw bytes left : Bytes} {script : List Polled} {frames : List Bytes}
      (tail : Passes (cutFrames (raw ++ bytes)).2 script frames left) :
      Passes raw (.chunk bytes :: script) ((cutFrames (raw ++ bytes)).1 ++ frames) left

namespace Passes

variable {raw left : Bytes} {script : List Polled} {frames : List Bytes}

theorem append {mid : Bytes} {script' : List Polled} {frames' : List Bytes}
    (h : Passes raw script frames mid) (h' : Passes mid script' frames' left) :
    Passes raw (script ++ script') (frames ++ frames') left := by
  induction h with
  | done raw => exact h'
  | again tail ih =>
      rw [List.append_assoc]
      exact .again (ih h')
  | pending tail ih => exact .pending (ih h')
  | chunk tail ih =>
      rw [List.append_assoc]
      exact .chunk (ih h')

theorem next (h : Passes raw script frames left) :
    Passes raw script (frames ++ (cutFrames left).1) (cutFrames left).2 := by
  have hnext := h.append (.again (.done (cutFrames left).2))
  rwa [List.append_nil, List.append_nil] at hnext

theorem receive (h : Passes raw script frames left) (bytes : Bytes) :
    Passes raw (script ++ [.chunk bytes]) (frames ++ (cutFrames (left ++ bytes)).1)
      (cutFrames (left ++ bytes)).2 := by
  have hnext := h.append (.chunk (.done (cutFrames (left ++ bytes)).2))
  rwa [List.append_nil] at hnext

theorem emptyChunk (h : Passes [] script frames left) :
    Passes [] (.chunk [] :: script) frames left := by
  have hcut : cutFrames ([] ++ []) = ([], []) := cutFrames_nil
  have hchunk : Passes [] (.chunk [] :: script) ((cutFrames ([] ++ [])).1 ++ frames) left :=
    .chunk (by rwa [hcut])
  rwa [hcut] at hchunk

theorem isBlock (h : Passes raw script frames left) : ∀ frame ∈ frames, IsBlock 0x0A frame := by
  induction h with
  | done raw => exact fun _ hmem => absurd hmem List.not_mem_nil
  | again tail ih =>
      intro frame hmem
      exact (List.mem_append.mp hmem).elim isBlock_of_mem_cutFrames (ih frame)
  | pending tail ih => exact ih
  | chunk tail ih =>
      intro frame hmem
      exact (List.mem_append.mp hmem).elim isBlock_of_mem_cutFrames (ih frame)

end Passes

/-! ### What the passes keep of the bytes -/

/-- The bytes seen so far went into the frames that are done and into the stored
ones. Neither the later framing nor whether later bytes complete a text depends
on which of them were cut off already; without `cr cr nl` no frame does. -/
structure Accounts (seen : Bytes) (done : List Bytes) (raw : Bytes) : Prop where
  thinned : Thinned 0x0D (done.flatten ++ raw) seen
  valid : ∀ t, Utf8.Valid (raw ++ t) ↔ Utf8.Valid (seen ++ t)
  frames : ∀ t, ¬ [0x0D, 0x0D, 0x0A] <:+: seen ++ t → ¬ [0x0D, 0x0D, 0x0A] <:+: raw ++ t ∧
    blocks 0x0A (collapse 0x0D 0x0A (seen ++ t)) =
      (done ++ completeFrames (raw ++ t), (blocks 0x0A (collapse 0x0D 0x0A (raw ++ t))).2)

namespace Accounts

variable {seen raw : Bytes} {done : List Bytes}

theorem refl (raw : Bytes) : Accounts raw [] raw :=
  ⟨Thinned.refl raw, fun _ => Iff.rfl, fun _ h => ⟨h, rfl⟩⟩

theorem receive (h : Accounts seen done raw) (bytes : Bytes) :
    Accounts (seen ++ bytes) done (raw ++ bytes) := by
  refine ⟨?_, fun t => ?_, fun t => ?_⟩
  · rw [← List.append_assoc]
    exact h.thinned.append (Thinned.refl bytes)
  · rw [List.append_assoc, List.append_assoc]
    exact h.valid (bytes ++ t)
  · rw [List.append_assoc, List.append_assoc]
    exact h.frames (bytes ++ t)

theorem cut (h : Accounts seen done raw) :
    Accounts seen (done ++ (cutFrames raw).1) (cutFrames raw).2 := by
  refine ⟨?_, fun t => (cutFrames_valid raw t).trans (h.valid t), fun t ht => ?_⟩
  · rw [List.flatten_append, List.append_assoc]
    exact ((Thinned.refl _).append (cutFrames_thinned raw)).trans h.thinned
  · obtain ⟨hraw, hframes⟩ := h.frames t ht
    by_cases hv : Utf8.Valid raw
    · rw [cutFrames_of_valid hv]
      refine ⟨noTriple_resume hraw, hframes.trans ?_⟩
      rw [List.append_assoc, completeFrames, blocks_resume hraw]
      rfl
    · rw [cutFrames_of_not_valid hv, List.append_nil]
      exact ⟨hraw, hframes⟩

end Accounts

theorem Passes.accounts {raw left : Bytes} {script : List Polled} {frames : List Bytes}
    (h : Passes raw script frames left) {seen : Bytes} {done : List Bytes}
    (hseen : Accounts seen done raw) :
    Accounts (seen ++ scriptBytes script) (done ++ frames) left := by
  induction h generalizing seen done with
  | done raw =>
      rw [scriptBytes, List.append_nil, List.append_nil]
      exact hseen
  | again tail ih =>
      rw [← List.append_assoc]
      exact ih hseen.cut
  | pending tail ih => exact ih hseen
  | chunk tail ih =>
      rw [scriptBytes, ← List.append_assoc, ← List.append_assoc]
      exact ih (hseen.receive _).cut

theorem scriptBytes_append (script later : List Polled) :
    scriptBytes (script ++ later) = scriptBytes script ++ scriptBytes later := by
  induction script with
  | nil => rfl
  | cons p script ih => cases p <;> simp [scriptBytes, ih]

theorem scriptBytes_pending (script : List Polled) :
    scriptBytes (script ++ [.pending]) = scriptBytes script := by
  rw [scriptBytes_append]
  exact List.append_nil _

theorem scriptBytes_chunk (script : List Polled) (bytes : Bytes) :
    scriptBytes (script ++ [.chunk bytes]) = scriptBytes script ++ bytes := by
  rw [scriptBytes_append]
  simp [scriptBytes]

/-- What holds of the script read so far and of the frames that are done, if each
pass and each poll preserves it. -/
theorem Passes.invariant {I : List Polled → List Bytes → Prop}
    {raw left : Bytes} {script : List Polled} {frames : List Bytes}
    (h : Passes raw script frames left)
    (hagain : ∀ {pre done} raw, Accounts (scriptBytes pre) done raw → I pre done →
      I pre (done ++ (cutFrames raw).1))
    (hpending : ∀ pre done, I pre done → I (pre ++ [.pending]) done)
    (hchunk : ∀ pre bytes done raw, Accounts (scriptBytes (pre ++ [.chunk bytes])) done raw →
      I pre done → I (pre ++ [.chunk bytes]) (done ++ (cutFrames raw).1))
    {pre : List Polled} {done : List Bytes} (hseen : Accounts (scriptBytes pre) done raw)
    (hstart : I pre done) : I (pre ++ script) (done ++ frames) := by
  induction h generalizing pre done with
  | done raw => rwa [List.append_nil, List.append_nil]
  | @again raw left script frames tail ih =>
      rw [← List.append_assoc]
      exact ih hseen.cut (hagain raw hseen hstart)
  | @pending raw left script frames tail ih =>
      rw [List.append_cons]
      exact ih (by rwa [scriptBytes_pending]) (hpending pre done hstart)
  | @chunk raw bytes left script frames tail ih =>
      have hnow : Accounts (scriptBytes (pre ++ [.chunk bytes])) done (raw ++ bytes) := by
        rw [scriptBytes_chunk]
        exact hseen.receive bytes
      rw [List.append_cons, ← List.append_assoc]
      exact ih hnow.cut (hchunk pre bytes done _ hnow hstart)

/-- The rest is a text exactly if all of it is one. -/
theorem Passes.valid {raw left : Bytes} {script : List Polled} {frames : List Bytes}
    (h : Passes raw script frames left) :
    Utf8.Valid left ↔ Utf8.Valid (raw ++ scriptBytes script) := by
  have hvalid := (h.accounts (Accounts.refl raw)).valid []
  rwa [List.append_nil, List.append_nil] at hvalid

/-- Without `cr cr nl` each pass leaves settled bytes. -/
theorem Passes.settled {raw left : Bytes} {script : List Polled} {frames : List Bytes}
    (h : Passes raw script frames left)
    (hcr : ¬ [0x0D, 0x0D, 0x0A] <:+: raw ++ scriptBytes script) (hraw : Settled raw) :
    Settled left := by
  have hcut {x t : Bytes} (hx : ¬ [0x0D, 0x0D, 0x0A] <:+: x ++ t) :
      ¬ [0x0D, 0x0D, 0x0A] <:+: (cutFrames x).2 ++ t ∧ Settled (cutFrames x).2 := by
    by_cases hv : Utf8.Valid x
    · rw [cutFrames_of_valid hv]
      exact ⟨noTriple_resume hx,
        settled_resume fun hi => hx (hi.trans (List.prefix_append _ _).isInfix)⟩
    · rw [cutFrames_of_not_valid hv]
      exact ⟨hx, fun hv' => absurd hv' hv⟩
  induction h with
  | done raw => exact hraw
  | again tail ih => exact ih (hcut hcr).1 (hcut hcr).2
  | pending tail ih => exact ih hcr hraw
  | chunk tail ih =>
      rw [scriptBytes, ← List.append_assoc] at hcr
      exact ih (hcut hcr).1 (hcut hcr).2

/-- A text without `cr cr nl` is cut into its frames and its rest. -/
theorem Passes.whole {left : Bytes} {script : List Polled} {frames : List Bytes}
    (h : Passes [] script frames left) (hv : Utf8.Valid (scriptBytes script))
    (hcr : ¬ [0x0D, 0x0D, 0x0A] <:+: scriptBytes script) :
    blocks 0x0A (collapse 0x0D 0x0A (scriptBytes script)) = (frames, left) := by
  have hframes := ((h.accounts (Accounts.refl [])).frames [] (by simpa using hcr)).2
  have hleft := h.settled hcr settled_nil (h.valid.mpr hv)
  rw [List.append_nil, List.append_nil, List.nil_append, List.nil_append, completeFrames, hleft,
    List.append_nil] at hframes
  exact hframes

/-! ### What is handed out -/

/-- The items that wait in a state, the next one first. -/
def SseState.queue : SseState → List Emission
  | .streamingSse _ st _ => st.outputQueue
  | .emitting queue => queue
  | _ => []

/-- The items that are taken from the queue, from a state to the end. -/
inductive Delivers (ctx : SseCtx) : SseState → List Emission → Prop
  | finished {s s' : SseState} (h : loopBody ctx s = .ret .finished s') : Delivers ctx s []
  | again {s s' : SseState} {es : List Emission} (h : loopBody ctx s = .again s')
      (tail : Delivers ctx s' es) : Delivers ctx s es
  | pending {s s' : SseState} {es : List Emission} (h : loopBody ctx s = .ret .pending s')
      (tail : Delivers ctx s' es) : Delivers ctx s es
  | item {s s' : SseState} {e : Emission} {es : List Emission}
      (h : loopBody ctx s = .ret (.item (e.bytes ctx.crates)) s')
      (queued : s.queue.head? = some e) (tail : Delivers ctx s' es) : Delivers ctx s (e :: es)

/-- A reader receives the bytes of the items. -/
theorem Delivers.drains {ctx : SseCtx} {s : SseState} {es : List Emission}
    (h : Delivers ctx s es) : Drains ctx s (es.map fun e => e.bytes ctx.crates) := by
  induction h with
  | finished h => exact Drains.finished (pollNext_ret h)
  | again h _ ih => exact Drains.again h ih
  | pending h _ ih => exact Drains.pending (pollNext_ret h) ih
  | item h _ _ ih => exact Drains.item (pollNext_ret h) ih

/-- A reader receives nothing else. -/
theorem Delivers.drains_iff {ctx : SseCtx} {s : SseState} {es : List Emission}
    (h : Delivers ctx s es) (out : List Bytes) :
    Drains ctx s out ↔ out = es.map fun e => e.bytes ctx.crates := by
  refine ⟨fun hout => hout.deterministic h.drains, ?_⟩
  rintro rfl
  exact h.drains

theorem delivers_emitting (ctx : SseCtx) (queue : List Emission) :
    Delivers ctx (.emitting queue) queue := by
  induction queue with
  | nil => exact Delivers.finished rfl
  | cons e queue ih =>
      apply Delivers.item rfl rfl
      cases queue with
      | nil => exact Delivers.finished rfl
      | cons e' queue => exact ih

theorem delivers_queue {ctx : SseCtx} {inner : List Polled} {st : RestoreState}
    {rawFragment : Bytes} {es : List Emission}
    (h : Delivers ctx (.streamingSse inner { st with outputQueue := [] } rawFragment) es) :
    Delivers ctx (.streamingSse inner st rawFragment) (st.outputQueue ++ es) := by
  obtain ⟨accumulators, queue, deferred, cuts⟩ := st
  simp only at h ⊢
  induction queue with
  | nil => exact h
  | cons e queue ih => exact Delivers.item rfl rfl ih

/-! ### Runs -/

/-- From the state `s`, with `script` ahead and whatever follows it, a reader gets
`delivered`; then the wrapped stream is polled with nothing queued. On the way
`frames` were processed. -/
structure Reads (ctx : SseCtx) (s : List Polled → SseState) (st : RestoreState)
    (frames : List Bytes) (delivered : List Emission) (st' : RestoreState) (left : Bytes) :
    Prop where
  processed : runFrames ctx frames st = .ok (st'.prepend delivered)
  settled : Utf8.Valid left → nextBlock 0x0A left = none
  delivers : ∀ more es,
    (∀ s', loopBody ctx s' = pollInner ctx more st' left → Delivers ctx s' es) →
    Delivers ctx (s more) (delivered ++ es)

theorem prepend_outputQueue (st : RestoreState) :
    RestoreState.prepend st.outputQueue { st with outputQueue := [] } = st := by
  simp [RestoreState.prepend]

/-- Items that wait already are handed out first. -/
theorem Reads.queue {ctx : SseCtx} {st st' : RestoreState} {raw left : Bytes}
    {frames : List Bytes} {delivered : List Emission}
    (h : Reads ctx (fun more => .streamingSse more { st with outputQueue := [] } raw)
      { st with outputQueue := [] } frames delivered st' left) :
    Reads ctx (fun more => .streamingSse more st raw) st frames
      (st.outputQueue ++ delivered) st' left := by
  refine ⟨?_, h.settled, fun more es hes => ?_⟩
  · have hrun := runFrames_prepend st.outputQueue h.processed
    rw [prepend_outputQueue] at hrun
    rw [hrun]
    simp [RestoreState.prepend]
  · rw [List.append_assoc]
    exact delivers_queue (h.delivers more es hes)

/-- Until the wrapped stream is polled, each pass that queues something uses up
stored bytes. -/
theorem reads_stored {ctx : SseCtx} (hr : RestoresText ctx.crates ctx.entries) (n : Nat)
    {raw : Bytes} (hn : raw.length ≤ n) (st : RestoreState) :
    ∃ frames delivered st' left, Passes (cutFrames raw).2 [] frames left ∧
      Reads ctx (fun more => .streamingSse more st raw) st ((cutFrames raw).1 ++ frames)
        delivered st' left := by
  induction n generalizing raw st with
  | zero =>
      obtain rfl : raw = [] := List.length_eq_zero_iff.mp (by omega)
      rw [cutFrames_nil]
      have hreads : Reads ctx (fun more => .streamingSse more { st with outputQueue := [] } [])
          { st with outputQueue := [] } [] [] { st with outputQueue := [] } [] :=
        ⟨rfl, fun _ => rfl, fun more es hes => hes _ (by simp [loopBody])⟩
      exact ⟨[], _, _, [], .done [], hreads.queue⟩
  | succ n ih =>
      by_cases hraw : raw = []
      · exact ih (by simp [hraw]) st
      have hraw' : raw.isEmpty = false := by simpa using hraw
      obtain ⟨st₁, hrun, hpass⟩ := hr.processSseChunk raw [] { st with outputQueue := [] }
      rw [List.append_nil] at hrun hpass
      by_cases hq : st₁.outputQueue = []
      · -- the pass queued nothing
        have hreads : Reads ctx (fun more => .streamingSse more { st with outputQueue := [] } raw)
            { st with outputQueue := [] } ((cutFrames raw).1 ++ []) [] st₁ (cutFrames raw).2 := by
          refine ⟨?_, nextBlock_cutFrames, fun more es hes => hes _ ?_⟩
          · rw [List.append_nil, hrun]
            rfl
          · simp [loopBody, hraw', hpass, hq]
        exact ⟨[], _, st₁, _, .done _, hreads.queue⟩
      · have hcut : (cutFrames raw).1 ≠ [] := by
          intro hnil
          rw [hnil] at hrun
          obtain rfl := runFrames_nil hrun
          exact hq rfl
        have hlt := length_cutFrames_lt hcut
        have hle : (cutFrames raw).2.length ≤ n := by omega
        obtain ⟨frames, delivered, st', left, hpasses, hlater⟩ := ih hle st₁
        have hreads : Reads ctx (fun more => .streamingSse more { st with outputQueue := [] } raw)
            { st with outputQueue := [] } ((cutFrames raw).1 ++ ((cutFrames (cutFrames raw).2).1 ++
              frames)) delivered st' left := by
          refine ⟨runFrames_append hrun hlater.processed, hlater.settled, fun more es hes => ?_⟩
          apply Delivers.again _ (hlater.delivers more es hes)
          simp [loopBody, hraw', hpass, hq]
        exact ⟨_, _, st', left, hpasses.again, hreads.queue⟩

/-- One more poll, with the frames it completes, and reading on behind it. -/
theorem Reads.trans {ctx : SseCtx} {s s' : List Polled → SseState} {st st₁ st₂ st' : RestoreState}
    {frames cut frames' : List Bytes} {delivered delivered' : List Emission} {mid left : Bytes}
    {p : Polled} (h : Reads ctx s st frames delivered st₁ mid)
    (hcut : runFrames ctx cut st₁ = .ok st₂)
    (hpoll : ∀ more es t, loopBody ctx t = pollInner ctx (p :: more) st₁ mid →
      Delivers ctx (s' more) es → Delivers ctx t es)
    (h' : Reads ctx s' st₂ frames' delivered' st' left) :
    Reads ctx (fun more => s (p :: more)) st (frames ++ (cut ++ frames'))
      (delivered ++ delivered') st' left := by
  refine ⟨?_, h'.settled, fun more es hes => ?_⟩
  · refine (runFrames_append h.processed (runFrames_prepend delivered
      (runFrames_append hcut h'.processed))).trans ?_
    simp [RestoreState.prepend]
  · rw [List.append_assoc]
    exact h.delivers _ _ fun t ht => hpoll more _ t ht (h'.delivers more es hes)

/-- Reading a script goes on from the poll at which it starts. -/
theorem Reads.script {ctx : SseCtx} (hr : RestoresText ctx.crates ctx.entries)
    {script : List Polled} (herr : ErrorFree script) {s : List Polled → SseState}
    {st st₁ : RestoreState} {frames : List Bytes} {delivered : List Emission} {mid : Bytes}
    (h : Reads ctx s st frames delivered st₁ mid) :
    ∃ later delivered' st' left, Passes mid script later left ∧
      Reads ctx (fun more => s (script ++ more)) st (frames ++ later)
        (delivered ++ delivered') st' left := by
  induction script generalizing s frames delivered st₁ mid with
  | nil =>
      refine ⟨[], [], st₁, mid, .done mid, ?_⟩
      rw [List.append_nil, List.append_nil]
      exact h
  | cons p script ih =>
      cases p with
      | pending =>
          obtain ⟨frames', delivered', st₂, next, hpasses, hstored⟩ :=
            reads_stored hr mid.length le_rfl st₁
          have hnone : runFrames ctx [] st₁ = .ok st₁ := rfl
          have hnow := h.trans (p := .pending) hnone
            (fun _ _ _ ht htail => Delivers.pending ht htail) hstored
          obtain ⟨later, delivered'', st', left, hlater, hreads⟩ := ih herr.tail hnow
          refine ⟨_, delivered' ++ delivered'', st', left, (hpasses.again.append hlater).pending,
            ?_⟩
          simpa only [List.append_assoc, List.nil_append, List.cons_append] using hreads
      | chunk bytes =>
          obtain ⟨st₂, hrun, hpass⟩ := hr.processSseChunk mid bytes st₁
          obtain ⟨frames', delivered', st₃, next, hpasses, hstored⟩ :=
            reads_stored hr (cutFrames (mid ++ bytes)).2.length le_rfl st₂
          have hnow := h.trans (p := .chunk bytes) hrun
            (fun _ _ _ ht htail => Delivers.again (ht.trans (by simp only [pollInner, hpass]))
              htail)
            hstored
          obtain ⟨later, delivered'', st', left, hlater, hreads⟩ := ih herr.tail hnow
          refine ⟨_, delivered' ++ delivered'', st', left,
            (Passes.chunk hpasses.again).append hlater, ?_⟩
          simpa only [List.append_assoc, List.nil_append, List.cons_append] using hreads
      | failed message => exact absurd (List.mem_cons_self ..) (herr message)

/-- Reading a script from a streaming state. -/
theorem reads_streaming {ctx : SseCtx} (hr : RestoresText ctx.crates ctx.entries)
    {script : List Polled} (herr : ErrorFree script) (raw : Bytes) (st : RestoreState) :
    ∃ frames delivered st' left, Passes (cutFrames raw).2 script frames left ∧
      Reads ctx (fun more => .streamingSse (script ++ more) st raw) st
        ((cutFrames raw).1 ++ frames) delivered st' left := by
  obtain ⟨frames, delivered, st₁, mid, hpasses, hstored⟩ := reads_stored hr _ le_rfl st
  obtain ⟨later, delivered', st', left, hlater, hreads⟩ := hstored.script hr herr
  refine ⟨frames ++ later, delivered ++ delivered', st', left, hpasses.append hlater, ?_⟩
  rw [← List.append_assoc]
  exact hreads

/-- Reading a script that starts with an event stream. -/
theorem reads_detecting {ctx : SseCtx} (hr : RestoresText ctx.crates ctx.entries)
    {script : List Polled} (herr : ErrorFree script)
    (hfirst : (firstChunk script).any isSseFirstChunk = true) :
    ∃ frames delivered st left, Passes [] script frames left ∧
      Reads ctx (fun more => .detecting (script ++ more)) RestoreState.init frames
        delivered st left := by
  induction script with
  | nil => cases hfirst
  | cons p script ih =>
      cases p with
      | pending =>
          obtain ⟨frames, delivered, st, left, hpasses, hreads⟩ := ih herr.tail hfirst
          refine ⟨frames, delivered, st, left, hpasses.pending, hreads.processed, hreads.settled,
            ?_⟩
          exact fun more es hes => .pending rfl (hreads.delivers more es hes)
      | failed message => exact absurd (List.mem_cons_self ..) (herr message)
      | chunk bytes =>
          by_cases hb : bytes = []
          · subst hb
            obtain ⟨frames, delivered, st, left, hpasses, hreads⟩ := ih herr.tail hfirst
            refine ⟨frames, delivered, st, left, hpasses.emptyChunk, hreads.processed, hreads.settled,
              ?_⟩
            exact fun more es hes => .again rfl (hreads.delivers more es hes)
          · have hb' : bytes.isEmpty = false := by simpa using hb
            have hsse : isSseFirstChunk bytes = true := by simpa [firstChunk, hb'] using hfirst
            obtain ⟨frames, delivered, st, left, hpasses, hreads⟩ :=
              reads_streaming hr herr.tail bytes RestoreState.init
            refine ⟨_, delivered, st, left, Passes.chunk hpasses, hreads.processed,
              hreads.settled, fun more es hes => ?_⟩
            apply Delivers.again _ (hreads.delivers more es hes)
            simp [loopBody, hb', hsse]

/-- At the end everything is flushed; the queue, the deferred frames and the rest
are handed out. -/
theorem Reads.ends {ctx : SseCtx} (hr : RestoresText ctx.crates ctx.entries)
    {s : List Polled → SseState} {st : RestoreState} {frames : List Bytes}
    {delivered : List Emission} {left : Bytes}
    (h : Reads ctx s RestoreState.init frames delivered st left) :
    ∃ st', Finished ctx frames st' ∧ Delivers ctx (s []) (st'.items ++ tailEmission left) := by
  obtain ⟨st', hflush⟩ := hr.flushAllAccumulators st
  refine ⟨st'.prepend delivered, ⟨st.prepend delivered, h.processed, ?_⟩, ?_⟩
  · rw [flushAllAccumulators_prepend, hflush]
    rfl
  · have hitems : (st'.prepend delivered).items ++ tailEmission left =
        delivered ++ (st'.outputQueue ++ st'.deferredPassthrough ++ tailEmission left) := by
      simp [RestoreState.items, RestoreState.prepend]
    rw [hitems]
    refine h.delivers _ _ fun s' hs' => ?_
    apply Delivers.again _ (delivers_emitting ctx _)
    rw [hs']
    simp only [pollInner, hflush]

/-- The run of an event stream: its passes, the end, and what is handed out. -/
theorem ends_detecting {ctx : SseCtx} (hr : RestoresText ctx.crates ctx.entries)
    {script : List Polled} (herr : ErrorFree script)
    (hfirst : (firstChunk script).any isSseFirstChunk = true) :
    ∃ frames st left, Passes [] script frames left ∧ Finished ctx frames st ∧
      Delivers ctx (.detecting script) (st.items ++ tailEmission left) ∧
      (Utf8.Valid left → nextBlock 0x0A left = none) := by
  obtain ⟨frames, delivered, st₀, left, hpasses, hreads⟩ := reads_detecting hr herr hfirst
  obtain ⟨st, hfinished, hdelivers⟩ := hreads.ends hr
  rw [List.append_nil] at hdelivers
  exact ⟨frames, st, left, hpasses, hfinished, hdelivers, hreads.settled⟩

end LlmCacheProxy.Sse
