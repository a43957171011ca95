import Mathlib.Data.List.Basic
import Mathlib.Tactic.Common

/-!
# Machines that take labelled moves

A machine is a partial function of a state and a move, and a run takes a list of
moves. A relation that every move respects is respected by runs, and where every
move makes a measure smaller no run is longer than the measure of its start.
Together with progress this shows that runs end.
-/

namespace Machine

variable {σ α : Type*}

/-- Take the moves in order; `none` where one of them is not possible. -/
def run (step : σ → α → Option σ) : σ → List α → Option σ
  | s, [] => some s
  | s, m :: ms => (step s m).bind fun t => run step t ms

/-- No move is possible. -/
def Stuck (step : σ → α → Option σ) (s : σ) : Prop := ∀ m, step s m = none

variable {step : σ → α → Option σ}

@[simp] theorem run_nil (s : σ) : run step s [] = some s := rfl

theorem run_cons {s u : σ} {m : α} {ms : List α} :
    run step s (m :: ms) = some u ↔ ∃ t, step s m = some t ∧ run step t ms = some u :=
  Option.bind_eq_some_iff

theorem run_append {s u : σ} {ms ms' : List α} :
    run step s (ms ++ ms') = some u ↔ ∃ t, run step s ms = some t ∧ run step t ms' = some u := by
  induction ms generalizing s with
  | nil => simp
  | cons m ms ih =>
      simp only [List.cons_append, run_cons, ih]
      constructor
      · rintro ⟨t, hm, v, hms, hrest⟩
        exact ⟨v, ⟨t, hm, hms⟩, hrest⟩
      · rintro ⟨v, ⟨t, hm, hms⟩, hrest⟩
        exact ⟨t, hm, v, hms, hrest⟩

/-- What every move preserves holds behind a run. -/
theorem run_invariant {Inv : σ → Prop}
    (hstep : ∀ s m t, Inv s → step s m = some t → Inv t) {s t : σ} {ms : List α} (hs : Inv s)
    (h : run step s ms = some t) : Inv t := by
  induction ms generalizing s with
  | nil => exact Option.some.inj h ▸ hs
  | cons m ms ih =>
      obtain ⟨u, hm, hrest⟩ := run_cons.mp h
      exact ih (hstep s m u hs hm) hrest

/-- What may come of a state can only become less with each move. -/
theorem run_backward {ρ : Type*} {possible : σ → ρ → Prop}
    (hstep : ∀ s m t, step s m = some t → ∀ r, possible t r → possible s r) {s t : σ}
    {ms : List α} (h : run step s ms = some t) {r : ρ} (hr : possible t r) : possible s r := by
  induction ms generalizing s with
  | nil => exact Option.some.inj h ▸ hr
  | cons m ms ih =>
      obtain ⟨u, hm, hrest⟩ := run_cons.mp h
      exact hstep s m u hm r (ih hrest)

section Measure

variable {μ : σ → Nat} (hμ : ∀ s m t, step s m = some t → μ t < μ s)
include hμ

/-- No run is longer than the measure of the state it starts in. -/
theorem length_le {s t : σ} {ms : List α} (h : run step s ms = some t) :
    ms.length + μ t ≤ μ s := by
  induction ms generalizing s with
  | nil =>
      obtain rfl := Option.some.inj h
      exact Nat.le_of_eq (Nat.zero_add _)
  | cons m ms ih =>
      obtain ⟨u, hm, hrest⟩ := run_cons.mp h
      have := ih hrest
      have := hμ s m u hm
      rw [List.length_cons]
      omega

/-- Where a property lets the machine move on until it is done, some run that
keeps the property gets there. -/
theorem exists_run {P Done : σ → Prop}
    (hstep : ∀ s, P s → Done s ∨ ∃ m t, step s m = some t ∧ P t) {s : σ} (hs : P s) :
    ∃ ms t, run step s ms = some t ∧ Done t ∧ P t := by
  induction hn : μ s using Nat.strongRecOn generalizing s with
  | _ n ih =>
      subst hn
      rcases hstep s hs with hdone | ⟨m, t, hm, ht⟩
      · exact ⟨[], s, rfl, hdone, hs⟩
      · obtain ⟨ms, u, hrun, hdone, hu⟩ := ih _ (hμ s m t hm) ht rfl
        exact ⟨m :: ms, u, run_cons.mpr ⟨t, hm, hrun⟩, hdone, hu⟩

/-- Every state can be run until it is stuck. -/
theorem exists_stuck (s : σ) : ∃ ms t, run step s ms = some t ∧ Stuck step t := by
  have hstep (s : σ) (_ : True) : Stuck step s ∨ ∃ m t, step s m = some t ∧ True := by
    by_cases h : Stuck step s
    · exact .inl h
    · simp only [Stuck, not_forall, Option.ne_none_iff_exists'] at h
      obtain ⟨m, t, hm⟩ := h
      exact .inr ⟨m, t, hm, trivial⟩
  obtain ⟨ms, t, hrun, hstuck, -⟩ := exists_run hμ hstep (s := s) trivial
  exact ⟨ms, t, hrun, hstuck⟩

end Measure

end Machine
