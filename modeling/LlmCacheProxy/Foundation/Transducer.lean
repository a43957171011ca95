import Mathlib.Data.List.Basic
import Mathlib.Tactic.Common

/-!
# Transducers that may fail

A step consumes one input, moves the state and emits outputs, or fails. A run
feeds a list of inputs and stops at the first failure. Inputs that leave every
state of an invariant unchanged can be removed from a run, and a machine whose
steps project onto another's has runs that project likewise.
-/

namespace Transducer

variable {σ ι ω ε : Type*}

/-- Feed the inputs in order and collect what the steps emit. -/
def run (step : ι → σ → Except ε (σ × List ω)) : List ι → σ → Except ε (σ × List ω)
  | [], s => .ok (s, [])
  | i :: is, s =>
      match step i s with
      | .error e => .error e
      | .ok (s', out) =>
          match run step is s' with
          | .error e => .error e
          | .ok (s'', outs) => .ok (s'', out ++ outs)

variable {step : ι → σ → Except ε (σ × List ω)}

@[simp] theorem run_nil (s : σ) : run step [] s = .ok (s, []) := rfl

theorem run_cons_of_ok {i : ι} {is : List ι} {s s' : σ} {out : List ω}
    (h : step i s = .ok (s', out)) :
    run step (i :: is) s = (run step is s').map fun r => (r.1, out ++ r.2) := by
  simp only [run, h]
  cases run step is s' <;> rfl

theorem run_cons_of_error {i : ι} {is : List ι} {s : σ} {e : ε} (h : step i s = .error e) :
    run step (i :: is) s = .error e := by
  simp only [run, h]

theorem run_cons {i : ι} {is : List ι} {s t : σ} {o : List ω}
    (h : run step (i :: is) s = .ok (t, o)) :
    ∃ s' out outs, step i s = .ok (s', out) ∧ run step is s' = .ok (t, outs) ∧ o = out ++ outs := by
  simp only [run] at h
  split at h
  · cases h
  · rename_i s' out hstep
    split at h
    · cases h
    · rename_i s'' outs hrest
      obtain ⟨rfl, rfl⟩ := by simpa using h
      exact ⟨s', out, outs, hstep, hrest, rfl⟩

theorem run_append {is js : List ι} {s t u : σ} {o p : List ω} (h : run step is s = .ok (t, o))
    (h' : run step js t = .ok (u, p)) : run step (is ++ js) s = .ok (u, o ++ p) := by
  induction is generalizing s o with
  | nil =>
      obtain ⟨rfl, rfl⟩ := by simpa using h
      exact h'
  | cons i is ih =>
      obtain ⟨s', out, outs, hstep, hrest, rfl⟩ := run_cons h
      rw [List.cons_append, run_cons_of_ok hstep, ih hrest]
      simp [Except.map]

theorem run_split {is js : List ι} {s u : σ} {o : List ω}
    (h : run step (is ++ js) s = .ok (u, o)) :
    ∃ t o₁ o₂, run step is s = .ok (t, o₁) ∧ run step js t = .ok (u, o₂) ∧ o = o₁ ++ o₂ := by
  induction is generalizing s o with
  | nil => exact ⟨s, [], o, rfl, h, rfl⟩
  | cons i is ih =>
      obtain ⟨s', out, outs, hstep, hrest, rfl⟩ := run_cons h
      obtain ⟨t, o₁, o₂, his, hjs, rfl⟩ := ih hrest
      refine ⟨t, out ++ o₁, o₂, ?_, hjs, (List.append_assoc ..).symm⟩
      rw [run_cons_of_ok hstep, his]
      rfl

/-- What every step preserves holds behind a run. -/
theorem run_invariant {Inv : σ → Prop}
    (hstep : ∀ i s s' out, Inv s → step i s = .ok (s', out) → Inv s')
    {is : List ι} {s t : σ} {o : List ω} (hs : Inv s) (h : run step is s = .ok (t, o)) : Inv t := by
  induction is generalizing s o with
  | nil =>
      obtain ⟨rfl, -⟩ : s = t ∧ [] = o := by simpa using h
      exact hs
  | cons i is ih =>
      obtain ⟨s', out, outs, hi, hrest, -⟩ := run_cons h
      exact ih (hstep i s s' out hs hi) hrest

/-- Inputs that do nothing in the states of an invariant can be left out. -/
theorem run_filter {Inv : σ → Prop} {relevant : ι → Bool}
    (hstep : ∀ i s s' out, Inv s → step i s = .ok (s', out) → Inv s')
    (hsilent : ∀ i s, Inv s → relevant i = false → step i s = .ok (s, []))
    (is : List ι) {s : σ} (hs : Inv s) :
    run step (is.filter relevant) s = run step is s := by
  induction is generalizing s with
  | nil => rfl
  | cons i is ih =>
      cases hr : relevant i with
      | true =>
          rw [List.filter_cons_of_pos hr]
          cases hi : step i s with
          | error e => rw [run_cons_of_error hi, run_cons_of_error hi]
          | ok r =>
              obtain ⟨s', out⟩ := r
              rw [run_cons_of_ok hi, run_cons_of_ok hi, ih (hstep i s s' out hs hi)]
      | false =>
          rw [List.filter_cons_of_neg (by simp [hr]), run_cons_of_ok (hsilent i s hs hr), ih hs]
          cases run step is s <;> rfl

end Transducer
