import LlmCacheProxy.Sse.Conservation
import LlmCacheProxy.Sse.Detection
import LlmCacheProxy.Sse.Passes

/-!
# Reading the restoring stream to its end

Whatever the wrapped stream and restore do, a reader that polls again and again
comes to the end of the restoring stream. It never panics, an error is its last
item, and no error of the wrapped stream is swallowed.
-/

namespace LlmCacheProxy.Sse

/-! ### What a turn uses up -/

/-- What is left of the input, of the stored bytes and of the queue. -/
def SseState.rank : SseState → Nat × Nat × Nat
  | .detecting inner => (2 * inner.length + 5, 0, 0)
  | .collectingNonSse inner _ => (2 * inner.length + 4, 0, 0)
  | .processing _ => (3, 0, 0)
  | .streamingSse inner st rawFragment =>
      (2 * inner.length + 4, rawFragment.length, st.outputQueue.length)
  | .emitting queue => (1, 0, queue.length)
  | .done => (0, 0, 0)

/-- The first number that differs is smaller. -/
def SseState.Below (s' s : SseState) : Prop :=
  Prod.Lex (· < ·) (Prod.Lex (· < ·) (· < ·)) s'.rank s.rank

theorem SseState.wellFounded_below : WellFounded SseState.Below :=
  InvImage.wf SseState.rank
    (Prod.lex ⟨_, Nat.lt_wfRel.wf⟩ (Prod.lex ⟨_, Nat.lt_wfRel.wf⟩ ⟨_, Nat.lt_wfRel.wf⟩)).wf

theorem SseState.below_of_input {s' s : SseState} (h : s'.rank.1 < s.rank.1) : s'.Below s :=
  Prod.lex_def.mpr (.inl h)

theorem SseState.below_of_stored {inner : List Polled} {st st' : RestoreState} {raw raw' : Bytes}
    (h : raw'.length < raw.length) :
    (SseState.streamingSse inner st' raw').Below (.streamingSse inner st raw) :=
  Prod.lex_def.mpr (.inr ⟨rfl, Prod.lex_def.mpr (.inl h)⟩)

/-- The wrapped stream, while a state holds it. -/
def SseState.wrapped : SseState → Option (List Polled)
  | .detecting inner => some inner
  | .collectingNonSse inner _ => some inner
  | .streamingSse inner _ _ => some inner
  | .processing _ | .emitting _ | .done => none

/-! ### Where an error comes from -/

/-- Where an error item comes from: it is the first error of the wrapped stream,
or restore returned it for a segment of the text that had been received for a
key, or for the whole body. -/
inductive Explains (ctx : SseCtx) (script : List Polled) : IoError → Prop
  | wrapped {early later : List Polled} {message : Text}
      (hscript : script = early ++ .failed message :: later) (hfree : ErrorFree early) :
      Explains ctx script (.inner message)
  | text {early : List Polled} {frames : List Bytes} {left : Bytes} {key : FieldKey}
      {segment : Text} {e : IoError} (hearly : early <+: script)
      (hpasses : Passes [] early frames left)
      (hin : segment.bytes <:+: (received ctx key frames).bytes)
      (h : ctx.crates.restoreText ctx.entries segment = .error e) : Explains ctx script e
  | body {message : Text}
      (h : ctx.crates.restoreStream ctx.entries (scriptBytes script) = .error message) :
      Explains ctx script (.restore message)

/-- The flush at the end stops only with an I/O error out of restore, on a segment
of what waits for a key. -/
theorem flushAllAccumulators_error {ctx : SseCtx} {st : RestoreState} {fault : Fault}
    (h : flushAllAccumulators ctx st = .error fault) :
    ∃ key segment e, segment.bytes <+: (st.accum key).bytes ∧
      ctx.crates.restoreText ctx.entries segment = .error e ∧ fault = .io e := by
  rw [scopeFlush_stream] at h
  cases hvisit : st.accumulators.visit (scopeFlush ctx .stream) with
  | ok r => simp [hvisit, Except.map] at h
  | error fault' =>
      obtain rfl : fault' = fault := by simpa [hvisit, Except.map] using h
      obtain ⟨p, hp, hv⟩ := SortedMap.visit_error hvisit
      unfold scopeFlush at hv
      split at hv
      · cases hv
      · obtain ⟨segment, e, hpre, he, hfault⟩ := flushSafePrefix_error hv
        refine ⟨p.1, segment, e, ?_, he, hfault⟩
        rwa [RestoreState.accum, SortedMap.getD_of_mem hp]

section Faults

variable {ctx : SseCtx} {script early : List Polled} {frames cut : List Bytes} {left : Bytes}
variable {st : RestoreState} {delivered : List Emission} {fault : Fault}

/-- A pass fails only where restore does. -/
theorem explains_of_pass (hearly : early <+: script)
    (hpasses : Passes [] early (frames ++ cut) left)
    (hrun : runFrames ctx frames RestoreState.init = .ok (st.prepend delivered))
    (h : runFrames ctx cut st = .error fault) : ∃ e, fault = .io e ∧ Explains ctx script e := by
  obtain ⟨front, frame, back, st', rfl, hfront, hframe⟩ := runFrames_error h
  obtain ⟨key, segment, e, hin, he, rfl⟩ := processOneFrame_error hframe
  have hconserves := runFrames_conserves
    (runFrames_append hrun (runFrames_prepend delivered hfront)) key
  -- the frame that fails adds its text to what had been received for the key
  have hseen : received ctx key (frames ++ (front ++ frame :: back)) =
      (st'.prepend delivered).handed key ++ (st'.accum key ++ textFor key (extracted ctx frame)) ++
        received ctx key back := by
    rw [← List.append_assoc, received_append, ← hconserves, received_cons]
    simp only [Text.append_assoc]
    rfl
  have hwithin : segment.bytes <:+:
      (received ctx key (frames ++ (front ++ frame :: back))).bytes := by
    rw [hseen, Text.bytes_append, Text.bytes_append]
    exact hin.trans ⟨_, _, rfl⟩
  exact ⟨e, rfl, .text hearly hpasses hwithin he⟩

/-- So does the flush at the end. -/
theorem explains_of_flush (hearly : early <+: script) (hpasses : Passes [] early frames left)
    (hrun : runFrames ctx frames RestoreState.init = .ok (st.prepend delivered))
    (h : flushAllAccumulators ctx st = .error fault) :
    ∃ e, fault = .io e ∧ Explains ctx script e := by
  obtain ⟨key, segment, e, hpre, he, rfl⟩ := flushAllAccumulators_error h
  have haccum : (st.prepend delivered).accum key = st.accum key := rfl
  have hwithin : segment.bytes <:+: (received ctx key frames).bytes := by
    rw [← runFrames_conserves hrun, haccum, Text.bytes_append]
    exact hpre.isInfix.trans (List.suffix_append _ _).isInfix
  exact ⟨e, rfl, .text hearly hpasses hwithin he⟩

end Faults

/-! ### Turns -/

/-- What a turn can do. -/
inductive Turn (s : SseState) : LoopStep → Prop
  | again {s' : SseState} (below : s'.Below s) : Turn s (.again s')
  | pending {s' : SseState} (below : s'.Below s) : Turn s (.ret .pending s')
  | item {bytes : Bytes} {s' : SseState} (below : s'.Below s) : Turn s (.ret (.item bytes) s')
  | failed {e : IoError} (below : SseState.done.Below s) : Turn s (.ret (.failed e) .done)
  | finished : Turn s (.ret .finished .done)

/-- A pass fails only where restore does. -/
theorem processSseChunk_error {ctx : SseCtx} {raw newChunk : Bytes} {st : RestoreState}
    {fault : Fault} (h : processSseChunk ctx raw newChunk st = .error fault) :
    runFrames ctx (cutFrames (raw ++ newChunk)).1 st = .error fault := by
  rw [processSseChunk_eq] at h
  cases hrun : runFrames ctx (cutFrames (raw ++ newChunk)).1 st with
  | ok st' => simp [hrun, Except.map] at h
  | error fault' =>
      obtain rfl : fault' = fault := by simpa [hrun, Except.map] using h
      rfl

theorem runFrames_of_processSseChunk {ctx : SseCtx} {raw newChunk raw' : Bytes}
    {st st' : RestoreState}
    (h : processSseChunk ctx raw newChunk st = .ok (raw', st')) :
    runFrames ctx (cutFrames (raw ++ newChunk)).1 st = .ok st' ∧
      (cutFrames (raw ++ newChunk)).2 = raw' := by
  rw [processSseChunk_eq] at h
  cases hrun : runFrames ctx (cutFrames (raw ++ newChunk)).1 st with
  | error fault => simp [hrun, Except.map] at h
  | ok st₁ =>
      rw [hrun] at h
      obtain ⟨rfl, rfl⟩ := Prod.mk.inj (Except.ok.inj h)
      exact ⟨rfl, rfl⟩

private theorem turn_of_fault {s : SseState} {fault : Fault} (below : SseState.done.Below s)
    (h : ∃ e, fault = .io e) : Turn s (.ret fault.poll .done) := by
  obtain ⟨e, rfl⟩ := h
  exact .failed below

theorem runFrames_io {ctx : SseCtx} {frames : List Bytes} {st : RestoreState} {fault : Fault}
    (h : runFrames ctx frames st = .error fault) : ∃ e, fault = .io e := by
  obtain ⟨front, frame, back, st', -, -, hframe⟩ := runFrames_error h
  obtain ⟨key, segment, e, -, -, rfl⟩ := processOneFrame_error hframe
  exact ⟨e, rfl⟩

/-- The part of a streaming turn that polls the wrapped stream uses up a poll. -/
theorem turn_pollInner (ctx : SseCtx) (inner : List Polled) (st st₀ : RestoreState)
    (raw raw₀ : Bytes) :
    Turn (.streamingSse inner st₀ raw₀) (pollInner ctx inner st raw) := by
  have hdone : SseState.done.Below (.streamingSse inner st₀ raw₀) :=
    SseState.below_of_input (by simp [SseState.rank])
  unfold pollInner
  split
  · split
    · rename_i h
      exact turn_of_fault hdone (runFrames_io (processSseChunk_error h))
    · exact .again (SseState.below_of_input (by simp [SseState.rank]))
  · exact .failed hdone
  · exact .pending (SseState.below_of_input (by simp [SseState.rank]))
  · split
    · rename_i h
      obtain ⟨key, segment, e, -, -, rfl⟩ := flushAllAccumulators_error h
      exact .failed hdone
    · exact .again (SseState.below_of_input (by simp [SseState.rank]))

/-- A pass over the stored bytes that queues something has cut a frame off them. -/
theorem length_processSseChunk_lt {ctx : SseCtx} {raw raw' : Bytes} {st st' : RestoreState}
    (hqueue : st.outputQueue = []) (hqueue' : ¬st'.outputQueue.isEmpty)
    (h : processSseChunk ctx raw [] st = .ok (raw', st')) : raw'.length < raw.length := by
  obtain ⟨hrun, rfl⟩ := runFrames_of_processSseChunk h
  rw [List.append_nil] at hrun ⊢
  apply length_cutFrames_lt
  intro hnil
  rw [hnil] at hrun
  obtain rfl := runFrames_nil hrun
  simp [hqueue] at hqueue'

/-- Every turn is one of these. -/
theorem turn (ctx : SseCtx) (s : SseState) : Turn s (loopBody ctx s) := by
  cases s with
  | detecting inner =>
      cases inner with
      | nil => exact .finished
      | cons p rest =>
          cases p with
          | pending => exact .pending (SseState.below_of_input (by simp [SseState.rank]))
          | failed message =>
              exact .failed (SseState.below_of_input (by simp [SseState.rank]))
          | chunk bytes =>
              have hlt : 2 * rest.length + 5 < 2 * (Polled.chunk bytes :: rest).length + 5 :=
                by simp
              simp only [loopBody]
              split
              · exact .again (SseState.below_of_input hlt)
              split
              · exact .again (SseState.below_of_input ((Nat.lt_succ_self _).trans hlt))
              · exact .again (SseState.below_of_input ((Nat.lt_succ_self _).trans hlt))
  | collectingNonSse inner rawBuf =>
      cases inner with
      | nil => exact .again (SseState.below_of_input (by simp [SseState.rank]))
      | cons p rest =>
          cases p with
          | pending => exact .pending (SseState.below_of_input (by simp [SseState.rank]))
          | failed message =>
              exact .failed (SseState.below_of_input (by simp [SseState.rank]))
          | chunk bytes => exact .again (SseState.below_of_input (by simp [SseState.rank]))
  | processing rawBuf =>
      simp only [loopBody]
      split
      · exact .failed (SseState.below_of_input (by simp [SseState.rank]))
      · exact .again (SseState.below_of_input (by simp [SseState.rank]))
  | streamingSse inner st rawFragment =>
      simp only [loopBody]
      split
      · rename_i e queue hqueue
        have hlt : queue.length < st.outputQueue.length := by simp [hqueue]
        exact .item (Prod.lex_def.mpr (.inr ⟨rfl, Prod.lex_def.mpr (.inr ⟨rfl, hlt⟩)⟩))
      · rename_i hqueue
        split
        · rename_i h
          split at h
          · cases h
          · exact turn_of_fault (SseState.below_of_input (by simp [SseState.rank]))
              (runFrames_io (processSseChunk_error h))
        · rename_i raw' st' hpass
          split
          · exact turn_pollInner ctx inner st' st raw' rawFragment
          · -- What is queued now came from frames of the stored bytes.
            rename_i hne
            split at hpass
            · obtain ⟨rfl, rfl⟩ := Prod.mk.inj (Except.ok.inj hpass)
              simp [hqueue] at hne
            · exact .again (SseState.below_of_stored (length_processSseChunk_lt hqueue hne hpass))
  | emitting queue =>
      cases queue with
      | nil => exact .finished
      | cons e queue =>
          simp only [loopBody]
          split
          · exact .item (SseState.below_of_input (by simp [SseState.rank]))
          · have hlt : queue.length < (e :: queue).length := Nat.lt_succ_self _
            exact .item (Prod.lex_def.mpr (.inr ⟨rfl, Prod.lex_def.mpr (.inr ⟨rfl, hlt⟩)⟩))
  | done => exact .finished

/-! ### What a run has seen -/

/-- The run comes to a state that still holds the wrapped stream, with nothing
left of it. -/
def UsesUp (ctx : SseCtx) (script : List Polled) : Prop :=
  ∃ s, Reaches ctx (.detecting script) s ∧ s.wrapped = some []

/-- What a state knows of the script: what has been polled is free of errors, has
gone through the passes or is stored, and the rest is there. -/
inductive Follows (ctx : SseCtx) (script : List Polled) : SseState → Prop
  | detecting {early inner : List Polled} (hscript : script = early ++ inner)
      (hfree : ErrorFree early) (hnone : scriptBytes early = []) :
      Follows ctx script (.detecting inner)
  | collecting {early inner : List Polled} (hscript : script = early ++ inner)
      (hfree : ErrorFree early) :
      Follows ctx script (.collectingNonSse inner (scriptBytes early))
  | processing (hfree : ErrorFree script) (hused : UsesUp ctx script) :
      Follows ctx script (.processing (scriptBytes script))
  | streaming {early inner : List Polled} {st : RestoreState} {raw : Bytes}
      {frames : List Bytes} {delivered : List Emission} (hscript : script = early ++ inner)
      (hfree : ErrorFree early)
      (hpasses : Passes [] early (frames ++ (cutFrames raw).1) (cutFrames raw).2)
      (hrun : runFrames ctx frames RestoreState.init = .ok (st.prepend delivered)) :
      Follows ctx script (.streamingSse inner st raw)
  | emitting (queue : List Emission) (hfree : ErrorFree script) (hused : UsesUp ctx script) :
      Follows ctx script (.emitting queue)
  | done (hfree : ErrorFree script) (hused : UsesUp ctx script) : Follows ctx script .done

/-- What a turn makes of that. -/
inductive Kept (ctx : SseCtx) (script : List Polled) : LoopStep → Prop
  | again {s' : SseState} (next : Follows ctx script s') : Kept ctx script (.again s')
  | pending {s' : SseState} (next : Follows ctx script s') : Kept ctx script (.ret .pending s')
  | item {bytes : Bytes} {s' : SseState} (next : Follows ctx script s') :
      Kept ctx script (.ret (.item bytes) s')
  | failed {e : IoError} (why : Explains ctx script e) : Kept ctx script (.ret (.failed e) .done)
  | finished (hfree : ErrorFree script) (hused : UsesUp ctx script) :
      Kept ctx script (.ret .finished .done)

section Runs

variable {ctx : SseCtx} {script : List Polled}

private theorem kept_of_fault {fault : Fault} (h : ∃ e, fault = .io e ∧ Explains ctx script e) :
    Kept ctx script (.ret fault.poll .done) := by
  obtain ⟨e, rfl, he⟩ := h
  exact .failed he

theorem ErrorFree.append {early later : List Polled} (h : ErrorFree early)
    (h' : ErrorFree later) : ErrorFree (early ++ later) :=
  fun message hm => (List.mem_append.mp hm).elim (h message) (h' message)

theorem ErrorFree.pending {early : List Polled} (h : ErrorFree early) :
    ErrorFree (early ++ [.pending]) := h.append (by simp [ErrorFree])

theorem ErrorFree.chunk {early : List Polled} (h : ErrorFree early) (bytes : Bytes) :
    ErrorFree (early ++ [.chunk bytes]) := h.append (by simp [ErrorFree])

theorem passes_of_empty {early : List Polled} (hfree : ErrorFree early)
    (hnone : scriptBytes early = []) : Passes [] early [] [] := by
  induction early with
  | nil => exact .done []
  | cons p early ih =>
      cases p with
      | pending => exact .pending (ih hfree.tail hnone)
      | failed message => exact absurd (List.mem_cons_self ..) (hfree message)
      | chunk bytes =>
          obtain ⟨rfl, hrest⟩ := List.append_eq_nil_iff.mp hnone
          exact (ih hfree.tail hrest).emptyChunk

/-- A poll of the wrapped stream keeps what the state knows. -/
theorem kept_pollInner {early inner : List Polled} {st : RestoreState} {raw : Bytes}
    {frames : List Bytes} {delivered : List Emission} (hscript : script = early ++ inner)
    (hfree : ErrorFree early) (hpasses : Passes [] early frames raw)
    (hrun : runFrames ctx frames RestoreState.init = .ok (st.prepend delivered))
    (hused : inner = [] → UsesUp ctx script) :
    Kept ctx script (pollInner ctx inner st raw) := by
  have hearly : early <+: script := ⟨inner, hscript.symm⟩
  cases inner with
  | nil =>
      simp only [pollInner]
      split
      · rename_i h
        exact kept_of_fault (explains_of_flush hearly hpasses hrun h)
      · rw [List.append_nil] at hscript
        exact .again (.emitting _ (hscript ▸ hfree) (hused rfl))
  | cons p rest =>
      have hmore : script = early ++ [p] ++ rest := hscript.trans (List.append_cons ..)
      cases p with
      | pending =>
          refine .pending (.streaming hmore hfree.pending ?_ hrun)
          have hnext := hpasses.next.append (.pending (.done (cutFrames raw).2))
          rwa [List.append_nil] at hnext
      | failed message => exact .failed (.wrapped hscript hfree)
      | chunk bytes =>
          have hreceive := hpasses.receive bytes
          simp only [pollInner]
          split
          · rename_i h
            refine kept_of_fault (explains_of_pass ?_ hreceive hrun (processSseChunk_error h))
            exact ⟨rest, hmore.symm⟩
          · rename_i raw' st' h
            obtain ⟨hcut, rfl⟩ := runFrames_of_processSseChunk h
            exact .again (.streaming hmore (hfree.chunk bytes) hreceive.next
              (runFrames_append hrun (runFrames_prepend delivered hcut)))

theorem kept_detecting {early inner : List Polled} (hscript : script = early ++ inner)
    (hfree : ErrorFree early) (hnone : scriptBytes early = [])
    (hused : inner = [] → UsesUp ctx script) :
    Kept ctx script (loopBody ctx (.detecting inner)) := by
  cases inner with
  | nil =>
      rw [List.append_nil] at hscript
      exact .finished (hscript ▸ hfree) (hused rfl)
  | cons p rest =>
      have hmore : script = early ++ [p] ++ rest := hscript.trans (List.append_cons ..)
      cases p with
      | pending =>
          refine .pending (.detecting hmore hfree.pending ?_)
          rwa [scriptBytes_pending]
      | failed message => exact .failed (.wrapped hscript hfree)
      | chunk bytes =>
          have hbytes : scriptBytes (early ++ [.chunk bytes]) = bytes := by
            rw [scriptBytes_chunk, hnone, List.nil_append]
          simp only [loopBody]
          split
          · rename_i hempty
            refine .again (.detecting hmore (hfree.chunk bytes) ?_)
            rw [hbytes]
            simpa using hempty
          split
          · have hpasses : Passes [] (early ++ [.chunk bytes]) ([] ++ (cutFrames bytes).1)
                (cutFrames bytes).2 := (passes_of_empty hfree hnone).receive bytes
            have hrun : runFrames ctx [] RestoreState.init =
                .ok (RestoreState.init.prepend []) := rfl
            exact .again (.streaming hmore (hfree.chunk bytes) hpasses hrun)
          · have hcollects : Follows ctx script (.collectingNonSse _ _) :=
              .collecting hmore (hfree.chunk bytes)
            rw [hbytes] at hcollects
            exact .again hcollects

theorem kept_collecting {early inner : List Polled} (hscript : script = early ++ inner)
    (hfree : ErrorFree early) (hused : inner = [] → UsesUp ctx script) :
    Kept ctx script (loopBody ctx (.collectingNonSse inner (scriptBytes early))) := by
  cases inner with
  | nil =>
      rw [List.append_nil] at hscript
      subst hscript
      exact .again (.processing hfree (hused rfl))
  | cons p rest =>
      have hmore : script = early ++ [p] ++ rest := hscript.trans (List.append_cons ..)
      cases p with
      | pending =>
          have hcollects : Follows ctx script (.collectingNonSse _ _) :=
            .collecting hmore hfree.pending
          rw [scriptBytes_pending] at hcollects
          exact .pending hcollects
      | failed message => exact .failed (.wrapped hscript hfree)
      | chunk bytes =>
          have hcollects : Follows ctx script (.collectingNonSse _ _) :=
            .collecting hmore (hfree.chunk bytes)
          rw [scriptBytes_chunk] at hcollects
          exact .again hcollects

theorem kept_streaming {early inner : List Polled} {st : RestoreState} {raw : Bytes}
    {frames : List Bytes} {delivered : List Emission} (hscript : script = early ++ inner)
    (hfree : ErrorFree early)
    (hpasses : Passes [] early (frames ++ (cutFrames raw).1) (cutFrames raw).2)
    (hrun : runFrames ctx frames RestoreState.init = .ok (st.prepend delivered))
    (hused : inner = [] → UsesUp ctx script) :
    Kept ctx script (loopBody ctx (.streamingSse inner st raw)) := by
  simp only [loopBody]
  split
  · rename_i e queue hqueue
    have hrun' : runFrames ctx frames RestoreState.init =
        .ok (RestoreState.prepend (delivered ++ [e]) { st with outputQueue := queue }) := by
      rw [hrun]
      simp [RestoreState.prepend, hqueue]
    exact .item (.streaming hscript hfree hpasses hrun')
  · split
    · rename_i h
      split at h
      · cases h
      · have hcut := processSseChunk_error h
        rw [List.append_nil] at hcut
        exact kept_of_fault (explains_of_pass ⟨inner, hscript.symm⟩ hpasses hrun hcut)
    · rename_i raw' st' hpass
      have hcut : runFrames ctx (cutFrames raw).1 st = .ok st' ∧ (cutFrames raw).2 = raw' := by
        split at hpass
        · rename_i hempty
          obtain rfl : raw = [] := by simpa using hempty
          obtain ⟨rfl, rfl⟩ := Prod.mk.inj (Except.ok.inj hpass)
          rw [cutFrames_nil]
          exact ⟨rfl, rfl⟩
        · have hok := runFrames_of_processSseChunk hpass
          rwa [List.append_nil] at hok
      obtain ⟨hcut, rfl⟩ := hcut
      have hrun' := runFrames_append hrun (runFrames_prepend delivered hcut)
      split
      · exact kept_pollInner hscript hfree hpasses hrun' hused
      · exact .again (.streaming hscript hfree hpasses.next hrun')

/-- Every turn keeps it. -/
theorem Follows.turn {s : SseState} (h : Follows ctx script s)
    (hreach : Reaches ctx (.detecting script) s) : Kept ctx script (loopBody ctx s) := by
  have hend {inner : List Polled} (hs : s.wrapped = some inner) (hnil : inner = []) :
      UsesUp ctx script := ⟨s, hreach, hnil ▸ hs⟩
  cases h with
  | detecting hscript hfree hnone => exact kept_detecting hscript hfree hnone (hend rfl)
  | collecting hscript hfree => exact kept_collecting hscript hfree (hend rfl)
  | processing hfree hused =>
      simp only [loopBody]
      split
      · rename_i h
        exact .failed (.body h)
      · exact .again (.emitting _ hfree hused)
  | streaming hscript hfree hpasses hrun =>
      exact kept_streaming hscript hfree hpasses hrun (hend rfl)
  | emitting queue hfree hused =>
      cases queue with
      | nil => exact .finished hfree hused
      | cons e queue =>
          simp only [loopBody]
          split
          · exact .item (.done hfree hused)
          · exact .item (.emitting queue hfree hused)
  | done hfree hused => exact .finished hfree hused

end Runs

/-! ### Reading with errors -/

/-- A reader that polls until the stream has ended receives these items. It goes
on after an error. -/
inductive Receives (ctx : SseCtx) : SseState → List (Except IoError Bytes) → Prop
  | finished {s s' : SseState} (h : pollNext ctx s = (.finished, s')) : Receives ctx s []
  | pending {s s' : SseState} {out : List (Except IoError Bytes)}
      (h : pollNext ctx s = (.pending, s')) (tail : Receives ctx s' out) : Receives ctx s out
  | item {s s' : SseState} {bytes : Bytes} {out : List (Except IoError Bytes)}
      (h : pollNext ctx s = (.item bytes, s')) (tail : Receives ctx s' out) :
      Receives ctx s (.ok bytes :: out)
  | failed {s s' : SseState} {e : IoError} {out : List (Except IoError Bytes)}
      (h : pollNext ctx s = (.failed e, s')) (tail : Receives ctx s' out) :
      Receives ctx s (.error e :: out)

theorem Receives.of_pollNext_eq {ctx : SseCtx} {s s' : SseState} {out : List (Except IoError Bytes)}
    (h : pollNext ctx s = pollNext ctx s') (run : Receives ctx s' out) : Receives ctx s out := by
  cases run with
  | finished h' => exact .finished (h.trans h')
  | pending h' tail => exact .pending (h.trans h') tail
  | item h' tail => exact .item (h.trans h') tail
  | failed h' tail => exact .failed (h.trans h') tail

/-- A reader that receives no error drains the stream. -/
theorem Receives.drains {ctx : SseCtx} {s : SseState} {items : List (Except IoError Bytes)}
    (run : Receives ctx s items) : ∀ {out : List Bytes}, items = out.map .ok →
      Drains ctx s out := by
  induction run with
  | finished h =>
      intro out heq
      obtain rfl := List.map_eq_nil_iff.mp heq.symm
      exact .finished h
  | pending h _ ih => exact fun heq => .pending h (ih heq)
  | item h _ ih =>
      intro out heq
      obtain ⟨bytes', out, rfl, hbytes, hout⟩ := List.map_eq_cons_iff.mp heq.symm
      obtain rfl := Except.ok.inj hbytes
      exact .item h (ih hout.symm)
  | failed h _ _ =>
      intro out heq
      obtain ⟨bytes', out, rfl, hbytes, -⟩ := List.map_eq_cons_iff.mp heq.symm
      cases hbytes

/-- What a reader receives from a state on. -/
def readOut (ctx : SseCtx) (s : SseState) : List (Except IoError Bytes) :=
  match _h : loopBody ctx s with
  | .again s' => readOut ctx s'
  | .ret .pending s' => readOut ctx s'
  | .ret (.item bytes) s' => .ok bytes :: readOut ctx s'
  | .ret (.failed e) s' => .error e :: readOut ctx s'
  | .ret .finished _ => []
  | .ret .panicked _ => []
termination_by SseState.wellFounded_below.wrap s
decreasing_by
  all_goals
    have ht := turn ctx s
    rw [_h] at ht
    cases ht
    assumption

theorem readOut_eq (ctx : SseCtx) (s : SseState) :
    readOut ctx s = match loopBody ctx s with
      | .again s' => readOut ctx s'
      | .ret .pending s' => readOut ctx s'
      | .ret (.item bytes) s' => .ok bytes :: readOut ctx s'
      | .ret (.failed e) s' => .error e :: readOut ctx s'
      | .ret .finished _ => []
      | .ret .panicked _ => [] := by
  rw [readOut]
  split <;> simp only [*]

theorem readOut_done (ctx : SseCtx) : readOut ctx .done = [] := by
  rw [readOut_eq]
  rfl

/-- A reader receives what `readOut` computes. -/
theorem receives_readOut (ctx : SseCtx) (s : SseState) : Receives ctx s (readOut ctx s) := by
  induction s using SseState.wellFounded_below.induction with
  | _ s ih =>
      rw [readOut_eq]
      have ht := turn ctx s
      generalize hstep : loopBody ctx s = step at ht
      cases ht with
      | again below => exact (ih _ below).of_pollNext_eq (pollNext_again hstep)
      | pending below => exact .pending (pollNext_ret hstep) (ih _ below)
      | item below => exact .item (pollNext_ret hstep) (ih _ below)
      | failed below => exact .failed (pollNext_ret hstep) (ih _ below)
      | finished => exact .finished (pollNext_ret hstep)

/-- The items received are determined by the state. -/
theorem Receives.eq {ctx : SseCtx} {s : SseState} {out out' : List (Except IoError Bytes)}
    (run : Receives ctx s out) (run' : Receives ctx s out') : out = out' := by
  induction run generalizing out' with
  | finished h =>
      cases run' with
      | finished h' => rfl
      | pending h' _ => cases h.symm.trans h'
      | item h' _ => cases h.symm.trans h'
      | failed h' _ => cases h.symm.trans h'
  | pending h _ ih =>
      cases run' with
      | finished h' => cases h.symm.trans h'
      | pending h' tail' =>
          obtain rfl := congrArg Prod.snd (h.symm.trans h')
          exact ih tail'
      | item h' _ => cases h.symm.trans h'
      | failed h' _ => cases h.symm.trans h'
  | item h _ ih =>
      cases run' with
      | finished h' => cases h.symm.trans h'
      | pending h' _ => cases h.symm.trans h'
      | item h' tail' =>
          obtain ⟨hbytes, rfl⟩ := Prod.mk.inj (h.symm.trans h')
          obtain rfl := Poll.item.inj hbytes
          rw [ih tail']
      | failed h' _ => cases h.symm.trans h'
  | failed h _ ih =>
      cases run' with
      | finished h' => cases h.symm.trans h'
      | pending h' _ => cases h.symm.trans h'
      | item h' _ => cases h.symm.trans h'
      | failed h' tail' =>
          obtain ⟨he, rfl⟩ := Prod.mk.inj (h.symm.trans h')
          obtain rfl := Poll.failed.inj he
          rw [ih tail']

/-- Chunks, then at most one error, which ends them. -/
def endingIn (chunks : List Bytes) (err : Option IoError) : List (Except IoError Bytes) :=
  chunks.map .ok ++ err.toList.map .error

/-- How the items from a state on end. -/
theorem Follows.readOut {ctx : SseCtx} {script : List Polled} {s : SseState}
    (h : Follows ctx script s) (hreach : Reaches ctx (.detecting script) s) :
    ∃ chunks err, Sse.readOut ctx s = endingIn chunks err ∧
      (err = none → ErrorFree script ∧ UsesUp ctx script) ∧
      ∀ e, err = some e → Explains ctx script e := by
  induction s using SseState.wellFounded_below.induction with
  | _ s ih =>
      rw [readOut_eq]
      have ht := Sse.turn ctx s
      have hkept := h.turn hreach
      have hnext := hreach.snoc
      generalize loopBody ctx s = step at ht hkept hnext
      cases ht with
      | again below =>
          cases hkept with
          | again next => exact ih _ below next hnext
      | pending below =>
          cases hkept with
          | pending next => exact ih _ below next hnext
      | item below =>
          cases hkept with
          | item next =>
              obtain ⟨chunks, err, hout, hnone, hsome⟩ := ih _ below next hnext
              exact ⟨_ :: chunks, err, congrArg (Except.ok _ :: ·) hout, hnone, hsome⟩
      | @failed e below =>
          cases hkept with
          | failed why =>
              refine ⟨[], some e, by simp [readOut_done, endingIn], by simp, fun e' he' => ?_⟩
              obtain rfl := Option.some.inj he'
              exact why
      | finished =>
          cases hkept with
          | finished hfree hused => exact ⟨[], none, rfl, fun _ => ⟨hfree, hused⟩, by simp⟩

theorem exists_readOut (ctx : SseCtx) (script : List Polled) :
    ∃ chunks err, readOut ctx (.detecting script) = endingIn chunks err ∧
      (err = none → ErrorFree script ∧ UsesUp ctx script) ∧
      ∀ e, err = some e → Explains ctx script e :=
  have hfollows : Follows ctx script (.detecting script) :=
    .detecting (List.nil_append script).symm (by simp [ErrorFree]) rfl
  hfollows.readOut .refl

/-- Every response is read to its end without a panic: chunks, and at most one
error, which is the last item. A response whose reading ends without an error
was received whole, and the wrapped stream was polled to its end; an error is the
first one of the wrapped stream or one that restore returned for what had been
received. -/
theorem reading_ends (ctx : SseCtx) (script : List Polled) :
    ∃ chunks err,
      (∀ items, Receives ctx (.detecting script) items ↔ items = endingIn chunks err) ∧
      (err = none →
        Drains ctx (.detecting script) chunks ∧ ErrorFree script ∧ UsesUp ctx script) ∧
      ∀ e, err = some e → Explains ctx script e := by
  obtain ⟨chunks, err, hout, hnone, hsome⟩ := exists_readOut ctx script
  have hreads := receives_readOut ctx (.detecting script)
  rw [hout] at hreads
  refine ⟨chunks, err, fun items => ⟨fun h => h.eq hreads, ?_⟩, fun h => ⟨?_, hnone h⟩, hsome⟩
  · rintro rfl
    exact hreads
  · apply hreads.drains
    simp [h, endingIn]

/-! ### Responses that are no event stream -/

theorem readOut_again {ctx : SseCtx} {s s' : SseState} (h : loopBody ctx s = .again s') :
    readOut ctx s = readOut ctx s' := by
  rw [readOut_eq, h]

theorem readOut_emitting (ctx : SseCtx) (queue : List Emission) :
    readOut ctx (.emitting queue) = queue.map fun e => .ok (e.bytes ctx.crates) := by
  induction queue with
  | nil =>
      rw [readOut_eq]
      rfl
  | cons e queue ih =>
      rw [readOut_eq]
      cases queue with
      | nil => exact congrArg (List.cons _) (readOut_done ctx)
      | cons e' queue => exact congrArg (List.cons _) ih

/-- The restored items of a response that is restored as a whole. -/
def restoredWhole (ctx : SseCtx) (raw : Bytes) : List (Except IoError Bytes) :=
  match ctx.crates.restoreStream ctx.entries raw with
  | .error message => [.error (.restore message)]
  | .ok chunks => chunks.map .ok

theorem readOut_processing (ctx : SseCtx) (raw : Bytes) :
    readOut ctx (.processing raw) = restoredWhole ctx raw := by
  cases h : ctx.crates.restoreStream ctx.entries raw with
  | error message =>
      have hbody : loopBody ctx (.processing raw) = .ret (.failed (.restore message)) .done := by
        simp [loopBody, h]
      rw [readOut_eq, hbody]
      simp [restoredWhole, h, readOut_done]
  | ok chunks =>
      have hbody : loopBody ctx (.processing raw) = .again (.emitting (chunks.map .raw)) := by
        simp [loopBody, h]
      rw [readOut_again hbody, readOut_emitting, restoredWhole, h, List.map_map]
      rfl

theorem readOut_collecting (ctx : SseCtx) {script : List Polled} (herr : ErrorFree script)
    (raw : Bytes) :
    readOut ctx (.collectingNonSse script raw) = restoredWhole ctx (raw ++ scriptBytes script) := by
  induction script generalizing raw with
  | nil => rw [readOut_again rfl, readOut_processing, scriptBytes, List.append_nil]
  | cons p script ih =>
      cases p with
      | pending =>
          rw [readOut_eq]
          exact ih herr.tail raw
      | chunk bytes =>
          rw [readOut_again rfl, ih herr.tail, scriptBytes, List.append_assoc]
      | failed message => exact absurd (List.mem_cons_self ..) (herr message)

/-- A response that does not begin like an event stream is restored as a whole,
or empty like the response. -/
theorem readOut_whole (ctx : SseCtx) {script : List Polled} (herr : ErrorFree script)
    (hfirst : (firstChunk script).any isSseFirstChunk = false) :
    readOut ctx (.detecting script) =
      if scriptBytes script = [] then [] else restoredWhole ctx (scriptBytes script) := by
  induction script with
  | nil =>
      rw [readOut_eq]
      rfl
  | cons p script ih =>
      cases p with
      | pending =>
          rw [readOut_eq]
          exact ih herr.tail hfirst
      | chunk bytes =>
          by_cases hb : bytes = []
          · subst hb
            rw [readOut_again rfl]
            exact ih herr.tail hfirst
          · have hb' : bytes.isEmpty = false := by simpa using hb
            have hsse : isSseFirstChunk bytes = false := by simpa [firstChunk, hb'] using hfirst
            have hbody : loopBody ctx (.detecting (.chunk bytes :: script)) =
                .again (.collectingNonSse script bytes) := by
              simp [loopBody, hb', hsse]
            rw [readOut_again hbody, readOut_collecting ctx herr.tail, scriptBytes, if_neg]
            simp [hb]
      | failed message => exact absurd (List.mem_cons_self ..) (herr message)

end LlmCacheProxy.Sse
