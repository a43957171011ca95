import LlmCacheProxy.Sse.Restore
import LlmCacheProxy.Sse.KeyWindow
import LlmCacheProxy.Sse.Stream

/-!
# Framing is resumed

The bytes an early pass leaves over, followed by the later input, frame like the
whole text, and processing a frame does not look at what is queued already.
-/

namespace LlmCacheProxy.Sse

open Framing

/-! ### Carriage returns and UTF-8 -/

/-- Dropping returns does not move the automaton. -/
private theorem run_collapse (bs : Bytes) (s : Utf8.State) :
    Utf8.run s (collapse 0x0D 0x0A bs) = Utf8.run s bs := by
  fun_induction collapse (0x0D : UInt8) 0x0A bs generalizing s with
  | case1 a b rest hab ih =>
      obtain ⟨rfl, rfl⟩ := hab
      have hcr := Utf8.step_ascii (show (0x0D : UInt8).toNat < 0x80 by decide) s
      have hnl := Utf8.step_ascii (show (0x0A : UInt8).toNat < 0x80 by decide) s
      by_cases hs : s = .boundary
      · subst hs
        simp only [Utf8.run, hcr, hnl, if_true]
        exact ih _
      · simp only [Utf8.run, hcr, hnl, if_neg hs]
  | case2 a b rest hab ih =>
      simp only [Utf8.run]
      cases Utf8.step s a with
      | none => rfl
      | some s' => exact ih s'
  | case3 => rfl

theorem valid_collapse {bs : Bytes} : Utf8.Valid (collapse 0x0D 0x0A bs) ↔ Utf8.Valid bs := by
  rw [Utf8.Valid, run_collapse]
  rfl

/-- A prefix of a text that ends with a newline is a text. -/
private theorem valid_of_getLast {bs rest : Bytes} (h : Utf8.Valid (bs ++ rest))
    (hlast : bs = [] ∨ bs.getLast? = some 0x0A) : Utf8.Valid bs := by
  rcases hlast with rfl | hlast
  · exact Utf8.valid_nil
  · obtain ⟨front, rfl⟩ : ∃ front, bs = front ++ [0x0A] := by
      rw [List.getLast?_eq_some_iff] at hlast
      exact hlast
    unfold Utf8.Valid at h ⊢
    rw [Utf8.run_append] at h ⊢
    rw [Utf8.run_append] at h
    cases hf : Utf8.run .boundary front with
    | none => simp [hf] at h
    | some s =>
        simp only [hf, Option.bind_some, Utf8.run,
          Utf8.step_ascii (show (0x0A : UInt8).toNat < 0x80 by decide)] at h ⊢
        split
        · rename_i s' hs
          split at hs
          · exact hs.symm
          · cases hs
        · rename_i hs
          rw [hs] at h
          cases h

/-! ### Frames do not look at the queue -/

/-- Items that have been delivered, put back in front of the queue. -/
def RestoreState.prepend (delivered : List Emission) (st : RestoreState) : RestoreState :=
  { st with outputQueue := delivered ++ st.outputQueue }

private theorem flushed_prepend (d : List Emission) (st : RestoreState)
    (x : Except Fault (SortedMap FieldKey Text × List Cut)) :
    x.map (st.prepend d).flushed = (x.map st.flushed).map (RestoreState.prepend d) := by
  cases x with
  | error e => rfl
  | ok r => simp [Except.map, RestoreState.flushed, RestoreState.prepend]

theorem flushAllAccumulators_prepend (ctx : SseCtx) (d : List Emission) (st : RestoreState) :
    flushAllAccumulators ctx (st.prepend d) =
      (flushAllAccumulators ctx st).map (RestoreState.prepend d) :=
  flushed_prepend d st _

private theorem processOneFrame_prepend (ctx : SseCtx) (d : List Emission) (frame : Bytes)
    (st : RestoreState) :
    processOneFrame ctx frame (st.prepend d) =
      (processOneFrame ctx frame st).map (RestoreState.prepend d) := by
  have hpush (st : RestoreState) (e : Emission) : (st.prepend d).push e =
      (st.push e).prepend d := by
    simp [RestoreState.push, RestoreState.prepend]
  have hdrain (st : RestoreState) : (st.prepend d).drainDeferred = st.drainDeferred.prepend d := by
    simp [RestoreState.drainDeferred, RestoreState.prepend]
  have hwhere (pred : FieldKey → Bool) : flushAccumulatorsWhere ctx pred (st.prepend d) =
      (flushAccumulatorsWhere ctx pred st).map (RestoreState.prepend d) := flushed_prepend d st _
  unfold processOneFrame
  split
  · exact congrArg Except.ok (hpush _ _)
  split
  · split
    · rw [flushAllAccumulators_prepend]
      cases flushAllAccumulators ctx st with
      | error e => rfl
      | ok st' => exact congrArg Except.ok (hpush _ _)
    · exact congrArg Except.ok (hpush _ _)
  split
  · split
    · rw [hwhere]
      cases flushAccumulatorsWhere ctx _ st with
      | error e => rfl
      | ok st' => exact congrArg Except.ok (hpush _ _)
    · rw [flushAllAccumulators_prepend]
      cases flushAllAccumulators ctx st with
      | error e => rfl
      | ok st' =>
          apply congrArg Except.ok
          split
          · change (st'.prepend d).drainDeferred.push _ = (st'.drainDeferred.push _).prepend d
            rw [hdrain, hpush]
          · exact hpush _ _
    · exact congrArg Except.ok (hpush _ _)
  · rename_i json _ _ field fields _
    exact flushed_prepend d
      { st with
        accumulators := accumulate (field :: fields) st.accumulators
        deferredPassthrough := st.deferredPassthrough ++ deferredOf ctx.provider json } _

theorem runFrames_prepend {ctx : SseCtx} (d : List Emission) {frames : List Bytes}
    {st st' : RestoreState} (h : runFrames ctx frames st = .ok st') :
    runFrames ctx frames (st.prepend d) = .ok (st'.prepend d) := by
  induction frames generalizing st with
  | nil =>
      obtain rfl := runFrames_nil h
      rfl
  | cons frame frames ih =>
      obtain ⟨st₁, h₁, hrest⟩ := runFrames_cons h
      simp only [runFrames, processOneFrame_prepend, h₁]
      exact ih hrest

/-! ### What a pass leaves over -/

/-- The stored bytes hold no complete frame, as far as they can be read. -/
def Settled (rawFragment : Bytes) : Prop :=
  Utf8.Valid rawFragment → blocks 0x0A (collapse 0x0D 0x0A rawFragment) = ([], rawFragment)

theorem settled_nil : Settled [] := fun _ => blocks_of_none rfl

/-- Parsing settled bytes again changes nothing. -/
theorem Settled.processSseChunk {rawFragment : Bytes} (h : Settled rawFragment) (ctx : SseCtx)
    (st : RestoreState) : processSseChunk ctx rawFragment [] st = .ok (rawFragment, st) := by
  simp only [Sse.processSseChunk, List.append_nil]
  split
  · rename_i hv
    rw [h hv]
    rfl
  · rfl

theorem cr_ne_nl : (0x0D : UInt8) ≠ 0x0A := by decide

/-- What framing `s` leaves over frames, with the later input, like the rest of
the whole. -/
theorem blocks_resume {s t : Bytes} (h : ¬ [0x0D, 0x0D, 0x0A] <:+: s ++ t) :
    blocks 0x0A (collapse 0x0D 0x0A (s ++ t)) =
      ((blocks 0x0A (collapse 0x0D 0x0A s)).1 ++
          (blocks 0x0A (collapse 0x0D 0x0A ((blocks 0x0A (collapse 0x0D 0x0A s)).2 ++ t))).1,
        (blocks 0x0A (collapse 0x0D 0x0A ((blocks 0x0A (collapse 0x0D 0x0A s)).2 ++ t))).2) := by
  have hs : ¬ [0x0D, 0x0D, 0x0A] <:+: s := fun hi => h (hi.trans (List.prefix_append s t).isInfix)
  have hflat := blocks_flatten (0x0A : UInt8) (collapse 0x0D 0x0A s)
  have hpair : ¬ [0x0D, 0x0A] <:+: (blocks 0x0A (collapse 0x0D 0x0A s)).1.flatten := by
    intro hi
    apply not_pair_collapse cr_ne_nl hs
    rw [← hflat]
    exact hi.trans (List.prefix_append _ _).isInfix
  have hlast : (blocks 0x0A (collapse 0x0D 0x0A s)).1.flatten.getLast? ≠ some 0x0D := by
    rcases blocks_getLast (0x0A : UInt8) (collapse 0x0D 0x0A s) with hnil | hl
    · rw [hnil]
      exact nofun
    · rw [hl]
      exact fun heq => cr_ne_nl (Option.some.inj heq).symm
  calc blocks 0x0A (collapse 0x0D 0x0A (s ++ t))
      = blocks 0x0A (collapse 0x0D 0x0A (collapse 0x0D 0x0A s ++ t)) := by
        rw [collapse_collapse_append cr_ne_nl h]
    _ = blocks 0x0A (collapse 0x0D 0x0A ((blocks 0x0A (collapse 0x0D 0x0A s)).1.flatten ++
          ((blocks 0x0A (collapse 0x0D 0x0A s)).2 ++ t))) := by
        rw [← List.append_assoc, hflat]
    _ = blocks 0x0A ((blocks 0x0A (collapse 0x0D 0x0A s)).1.flatten ++
          collapse 0x0D 0x0A ((blocks 0x0A (collapse 0x0D 0x0A s)).2 ++ t)) := by
        rw [collapse_append hpair hlast]
    _ = _ := blocks_replace _ _ _

/-- The rest of framing a text, with the later input, is still a text. -/
theorem valid_resume {s t : Bytes} (hs : Utf8.Valid s) (h : Utf8.Valid (s ++ t)) :
    Utf8.Valid ((blocks 0x0A (collapse 0x0D 0x0A s)).2 ++ t) := by
  have hflat := blocks_flatten (0x0A : UInt8) (collapse 0x0D 0x0A s)
  have hc : Utf8.Valid (collapse 0x0D 0x0A s) := valid_collapse.mpr hs
  have ht : Utf8.Valid t := hs.append_iff.mp h
  rw [← hflat] at hc
  have hfront := valid_of_getLast hc (blocks_getLast _ _)
  exact (hfront.append_iff.mp hc).append ht

theorem noTriple_resume {s t : Bytes} (h : ¬ [0x0D, 0x0D, 0x0A] <:+: s ++ t) :
    ¬ [0x0D, 0x0D, 0x0A] <:+: (blocks 0x0A (collapse 0x0D 0x0A s)).2 ++ t := by
  intro hi
  apply not_triple_collapse_append cr_ne_nl h
  rw [← blocks_flatten (0x0A : UInt8) (collapse 0x0D 0x0A s), List.append_assoc]
  exact hi.trans (List.suffix_append _ _).isInfix

theorem settled_resume {s : Bytes} (h : ¬ [0x0D, 0x0D, 0x0A] <:+: s) :
    Settled (blocks 0x0A (collapse 0x0D 0x0A s)).2 := by
  intro _
  have hpair : ¬ [0x0D, 0x0A] <:+: (blocks 0x0A (collapse 0x0D 0x0A s)).2 := by
    intro hi
    apply not_pair_collapse cr_ne_nl h
    rw [← blocks_flatten (0x0A : UInt8) (collapse 0x0D 0x0A s)]
    exact hi.trans (List.suffix_append _ _).isInfix
  rw [collapse_of_not_pair hpair]
  exact blocks_rest _ _

/-- With an empty queue and settled bytes a turn polls the wrapped stream. -/
theorem loopBody_settled {ctx : SseCtx} {inner : List Polled} {st : RestoreState}
    {rawFragment : Bytes} (hq : st.outputQueue = []) (hs : Settled rawFragment) :
    loopBody ctx (.streamingSse inner st rawFragment) = pollInner ctx inner st rawFragment := by
  simp only [loopBody, hq, hs.processSseChunk ctx st, ite_self, List.isEmpty_nil, if_true]

/-- The wrapped stream reports no error. -/
def ErrorFree (script : List Polled) : Prop := ∀ message, Polled.failed message ∉ script

theorem ErrorFree.tail {p : Polled} {script : List Polled} (h : ErrorFree (p :: script)) :
    ErrorFree script := fun message hm => h message (List.mem_cons_of_mem _ hm)

end LlmCacheProxy.Sse
