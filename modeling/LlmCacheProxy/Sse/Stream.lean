import LlmCacheProxy.Foundation.Framing
import LlmCacheProxy.Sse.Frame

/-!
# The restoring stream

The wrapped stream is polled under a state machine that first decides whether
the response is an event stream. Event streams are cut into frames as the bytes
arrive; other responses are collected and restored as a whole.
-/

namespace LlmCacheProxy.Sse

/-- Whether the first bytes of a response look like an event stream. -/
def isSseFirstChunk (bytes : Bytes) : Bool :=
  (lit "data:").isPrefixOf bytes || (lit "event:").isPrefixOf bytes ||
    (lit ": ").isPrefixOf bytes || (lit ":\n").isPrefixOf bytes

/-- A result of polling the wrapped stream. After the last one it has ended. -/
inductive Polled where
  | pending
  | chunk (bytes : Bytes)
  | failed (message : Text)

/-- The bytes of a script of polls. -/
def scriptBytes : List Polled → Bytes
  | [] => []
  | .chunk bytes :: rest => bytes ++ scriptBytes rest
  | _ :: rest => scriptBytes rest

/-- The first chunk that is not empty, if the script gets that far. -/
def firstChunk : List Polled → Option Bytes
  | [] => none
  | .chunk bytes :: rest => if bytes.isEmpty then firstChunk rest else some bytes
  | .pending :: rest => firstChunk rest
  | .failed _ :: _ => none

inductive SseState where
  /-- Waiting for the first nonempty chunk. -/
  | detecting (inner : List Polled)
  | collectingNonSse (inner : List Polled) (rawBuf : Bytes)
  | processing (rawBuf : Bytes)
  | streamingSse (inner : List Polled) (st : RestoreState) (rawFragment : Bytes)
  | emitting (queue : List Emission)
  | done

/-- A result of polling the restoring stream. -/
inductive Poll where
  | pending
  | item (bytes : Bytes)
  | failed (error : IoError)
  | finished
  | panicked
  deriving DecidableEq

def Fault.poll : Fault → Poll
  | .panic => .panicked
  | .io e => .failed e

/-- Append a chunk, drop the return of each return-newline pair and process the
complete frames. Bytes that end inside a character wait for more. -/
def processSseChunk (ctx : SseCtx) (rawFragment newChunk : Bytes) (st : RestoreState) :
    Except Fault (Bytes × RestoreState) :=
  let raw := rawFragment ++ newChunk
  if Utf8.Valid raw then
    let framed := Framing.blocks 0x0A (Framing.collapse 0x0D 0x0A raw)
    (runFrames ctx framed.1 st).map fun st => (framed.2, st)
  else .ok (raw, st)

/-- A pass over text processes its complete frames and leaves the rest. -/
theorem processSseChunk_ok {ctx : SseCtx} {rawFragment newChunk rest : Bytes}
    {st st' : RestoreState} (hv : Utf8.Valid (rawFragment ++ newChunk))
    (h : processSseChunk ctx rawFragment newChunk st = .ok (rest, st')) :
    runFrames ctx (Framing.blocks 0x0A (Framing.collapse 0x0D 0x0A (rawFragment ++ newChunk))).1
        st = .ok st' ∧
      rest = (Framing.blocks 0x0A (Framing.collapse 0x0D 0x0A (rawFragment ++ newChunk))).2 := by
  rw [processSseChunk, if_pos hv] at h
  simp only at h
  cases hrun : runFrames ctx
      (Framing.blocks 0x0A (Framing.collapse 0x0D 0x0A (rawFragment ++ newChunk))).1 st with
  | error e =>
      rw [hrun] at h
      cases h
  | ok st₁ =>
      rw [hrun] at h
      obtain ⟨rfl, rfl⟩ := Prod.mk.inj (Except.ok.inj h)
      exact ⟨rfl, rfl⟩

/-- How one turn of the poll loop ends. -/
inductive LoopStep where
  | again (s : SseState)
  | ret (p : Poll) (s : SseState)

/-- Bytes that never completed a frame. -/
def tailEmission (rawFragment : Bytes) : List Emission :=
  if rawFragment.isEmpty then [] else [.raw rawFragment]

/-- The part of a streaming turn that polls the wrapped stream. -/
def pollInner (ctx : SseCtx) (inner : List Polled) (st : RestoreState) (rawFragment : Bytes) :
    LoopStep :=
  match inner with
  | .chunk bytes :: rest =>
      match processSseChunk ctx rawFragment bytes st with
      | .error fault => .ret fault.poll .done
      | .ok (rawFragment, st) => .again (.streamingSse rest st rawFragment)
  | .failed message :: _ => .ret (.failed (.inner message)) .done
  | .pending :: rest => .ret .pending (.streamingSse rest st rawFragment)
  | [] =>
      match flushAllAccumulators ctx st with
      | .error fault => .ret fault.poll .done
      | .ok st =>
          .again (.emitting (st.outputQueue ++ st.deferredPassthrough ++ tailEmission rawFragment))

/-- One turn of the poll loop. -/
def loopBody (ctx : SseCtx) : SseState → LoopStep
  | .detecting [] => .ret .finished .done
  | .detecting (.pending :: rest) => .ret .pending (.detecting rest)
  | .detecting (.failed message :: _) => .ret (.failed (.inner message)) .done
  | .detecting (.chunk bytes :: rest) =>
      if bytes.isEmpty then .again (.detecting rest)
      else if isSseFirstChunk bytes then .again (.streamingSse rest .init bytes)
      else .again (.collectingNonSse rest bytes)
  | .collectingNonSse [] rawBuf => .again (.processing rawBuf)
  | .collectingNonSse (.pending :: rest) rawBuf => .ret .pending (.collectingNonSse rest rawBuf)
  | .collectingNonSse (.failed message :: _) _ => .ret (.failed (.inner message)) .done
  | .collectingNonSse (.chunk bytes :: rest) rawBuf =>
      .again (.collectingNonSse rest (rawBuf ++ bytes))
  | .processing rawBuf =>
      match ctx.crates.restoreStream ctx.entries rawBuf with
      | .error message => .ret (.failed (.restore message)) .done
      | .ok chunks => .again (.emitting (chunks.map .raw))
  | .streamingSse inner st rawFragment =>
      match st.outputQueue with
      | e :: queue =>
          .ret (.item (e.bytes ctx.crates))
            (.streamingSse inner { st with outputQueue := queue } rawFragment)
      | [] =>
          -- The stored bytes are parsed again before more are asked for.
          match if rawFragment.isEmpty then .ok (rawFragment, st)
            else processSseChunk ctx rawFragment [] st with
          | .error fault => .ret fault.poll .done
          | .ok (rawFragment, st) =>
              if st.outputQueue.isEmpty then pollInner ctx inner st rawFragment
              else .again (.streamingSse inner st rawFragment)
  | .emitting [] => .ret .finished .done
  | .emitting (e :: queue) =>
      .ret (.item (e.bytes ctx.crates)) (if queue.isEmpty then .done else .emitting queue)
  | .done => .ret .finished .done

/-! ### A poll ends -/

/-- Turns that the loop may still take before it returns. -/
def SseState.turns : SseState → Nat
  | .detecting inner => 2 * inner.length + 3
  | .collectingNonSse inner _ => 2 * inner.length + 2
  | .processing _ => 1
  | .streamingSse inner st _ => 2 * inner.length + if st.outputQueue.isEmpty then 2 else 1
  | .emitting _ => 0
  | .done => 0

theorem pollInner_turns {ctx : SseCtx} {inner : List Polled} {st : RestoreState}
    {rawFragment : Bytes} {s : SseState} (h : pollInner ctx inner st rawFragment = .again s) :
    s.turns < 2 * inner.length + 2 := by
  unfold pollInner at h
  split at h
  · split at h
    · cases h
    · obtain rfl := LoopStep.again.inj h
      simp only [SseState.turns, List.length_cons]
      split <;> omega
  · cases h
  · cases h
  · split at h
    · cases h
    · obtain rfl := LoopStep.again.inj h
      simp [SseState.turns]

theorem loopBody_turns {ctx : SseCtx} {s s' : SseState} (h : loopBody ctx s = .again s') :
    s'.turns < s.turns := by
  unfold loopBody at h
  split at h
  · cases h
  · cases h
  · cases h
  · split at h
    · obtain rfl := LoopStep.again.inj h
      simp [SseState.turns]
    split at h
    · obtain rfl := LoopStep.again.inj h
      simp only [SseState.turns, List.length_cons]
      split <;> omega
    · obtain rfl := LoopStep.again.inj h
      simp only [SseState.turns, List.length_cons]
      omega
  · obtain rfl := LoopStep.again.inj h
    simp [SseState.turns]
  · cases h
  · cases h
  · obtain rfl := LoopStep.again.inj h
    simp [SseState.turns]
  · split at h
    · cases h
    · obtain rfl := LoopStep.again.inj h
      simp [SseState.turns]
  · split at h
    · cases h
    rename_i hqueue
    split at h
    · cases h
    split at h
    · have hlt := pollInner_turns h
      simpa [SseState.turns, hqueue] using hlt
    · rename_i hne
      obtain rfl := LoopStep.again.inj h
      simp [SseState.turns, hqueue, hne]
  · cases h
  · cases h
  · cases h

/-- `Stream::poll_next`: take turns until one returns. -/
def pollNext (ctx : SseCtx) (s : SseState) : Poll × SseState :=
  match _h : loopBody ctx s with
  | .again s' => pollNext ctx s'
  | .ret p s' => (p, s')
termination_by s.turns
decreasing_by exact loopBody_turns _h

theorem pollNext_again {ctx : SseCtx} {s s' : SseState} (h : loopBody ctx s = .again s') :
    pollNext ctx s = pollNext ctx s' := by
  rw [pollNext]
  split
  · rename_i s'' h'
    rw [h] at h'
    rw [LoopStep.again.inj h']
  · rename_i h'
    rw [h] at h'
    cases h'

theorem pollNext_ret {ctx : SseCtx} {s s' : SseState} {p : Poll}
    (h : loopBody ctx s = .ret p s') : pollNext ctx s = (p, s') := by
  rw [pollNext]
  split
  · rename_i h'
    rw [h] at h'
    cases h'
  · rename_i p' s'' h'
    rw [h] at h'
    obtain ⟨rfl, rfl⟩ := LoopStep.ret.inj h'
    rfl

/-! ### Reading the stream to its end -/

/-- A reader that polls until the stream has ended receives these items. -/
inductive Drains (ctx : SseCtx) : SseState → List Bytes → Prop
  | finished {s s' : SseState} (h : pollNext ctx s = (.finished, s')) : Drains ctx s []
  | pending {s s' : SseState} {out : List Bytes} (h : pollNext ctx s = (.pending, s'))
      (tail : Drains ctx s' out) : Drains ctx s out
  | item {s s' : SseState} {bytes : Bytes} {out : List Bytes}
      (h : pollNext ctx s = (.item bytes, s')) (tail : Drains ctx s' out) :
      Drains ctx s (bytes :: out)

/-- The items of a stream are determined by its state. -/
theorem Drains.deterministic {ctx : SseCtx} {s : SseState} {out : List Bytes}
    (run : Drains ctx s out) : ∀ {out'}, Drains ctx s out' → out = out' := by
  induction run with
  | finished h =>
      intro out' run'
      cases run' with
      | finished h' => rfl
      | pending h' _ => cases h.symm.trans h'
      | item h' _ => cases h.symm.trans h'
  | @pending s s' out h tail ih =>
      intro out' run'
      cases run' with
      | finished h' => cases h.symm.trans h'
      | @pending _ s'' _ h' tail' =>
          obtain rfl : s' = s'' := congrArg Prod.snd (h.symm.trans h')
          exact ih tail'
      | item h' _ => cases h.symm.trans h'
  | @item s s' bytes out h tail ih =>
      intro out' run'
      cases run' with
      | finished h' => cases h.symm.trans h'
      | pending h' _ => cases h.symm.trans h'
      | @item _ s'' bytes' out'' h' tail' =>
          have heq := h.symm.trans h'
          obtain rfl : s' = s'' := congrArg Prod.snd heq
          obtain rfl : bytes = bytes' := Poll.item.inj (congrArg Prod.fst heq)
          rw [ih tail']

/-- The reader sees a state through its next poll only. -/
theorem Drains.of_pollNext_eq {ctx : SseCtx} {s s' : SseState} {out : List Bytes}
    (h : pollNext ctx s = pollNext ctx s') (run : Drains ctx s' out) : Drains ctx s out := by
  cases run with
  | finished h' => exact Drains.finished (h.trans h')
  | pending h' tail => exact Drains.pending (h.trans h') tail
  | item h' tail => exact Drains.item (h.trans h') tail

/-- A turn that goes on changes nothing for the reader. -/
theorem Drains.again {ctx : SseCtx} {s s' : SseState} {out : List Bytes}
    (h : loopBody ctx s = .again s') (run : Drains ctx s' out) : Drains ctx s out :=
  run.of_pollNext_eq (pollNext_again h)

/-- The final queue is handed out item by item. -/
theorem drains_emitting (ctx : SseCtx) (queue : List Emission) :
    Drains ctx (.emitting queue) (queue.map fun e => e.bytes ctx.crates) := by
  induction queue with
  | nil => exact Drains.finished (pollNext_ret rfl)
  | cons e queue ih =>
      apply Drains.item (pollNext_ret rfl)
      cases queue with
      | nil => exact Drains.finished (pollNext_ret rfl)
      | cons e' queue => exact ih

end LlmCacheProxy.Sse
