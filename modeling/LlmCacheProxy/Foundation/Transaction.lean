import Mathlib.Data.List.Basic
import Mathlib.Tactic.Common

/-!
# Statements that may fail

A statement fails and changes nothing, or it takes a state to the next one. A
transaction runs its statements on a copy, which takes the place of the state
when all of them have succeeded and is dropped at the first failure.
-/

namespace Transaction

variable {σ ε : Type*}

structure Statement (σ ε : Type*) where
  /-- What the statement fails with, if it fails. -/
  fault : Option ε
  effect : σ → σ

/-- A statement outside of a transaction. -/
def Statement.run (t : Statement σ ε) (s : σ) : Except ε Unit × σ :=
  match t.fault with
  | some e => (.error e, s)
  | none => (.ok (), t.effect s)

/-- The copy after all statements. -/
def steps : List (Statement σ ε) → σ → Except ε σ
  | [], s => .ok s
  | t :: rest, s =>
      match t.fault with
      | some e => .error e
      | none => steps rest (t.effect s)

def run (ts : List (Statement σ ε)) (s : σ) : Except ε Unit × σ :=
  match steps ts s with
  | .error e => (.error e, s)
  | .ok s' => (.ok (), s')

/-- What the statements do to a state when none of them fails. -/
def effects (ts : List (Statement σ ε)) (s : σ) : σ := ts.foldl (fun s t => t.effect s) s

def Faultless (ts : List (Statement σ ε)) : Prop := ∀ t ∈ ts, t.fault = none

theorem Statement.run_of_none {t : Statement σ ε} (h : t.fault = none) (s : σ) :
    t.run s = (.ok (), t.effect s) := by
  simp only [Statement.run, h]

theorem steps_eq_ok_iff {ts : List (Statement σ ε)} {s s' : σ} :
    steps ts s = .ok s' ↔ Faultless ts ∧ s' = effects ts s := by
  induction ts generalizing s with
  | nil => simp [steps, Faultless, effects, eq_comm]
  | cons t rest ih =>
      cases hf : t.fault with
      | some e => simp [steps, Faultless, hf]
      | none => simpa [steps, Faultless, effects, hf] using ih

/-- A transaction takes effect as a whole. -/
theorem run_of_faultless {ts : List (Statement σ ε)} (h : Faultless ts) (s : σ) :
    run ts s = (.ok (), effects ts s) := by
  simp only [run, steps_eq_ok_iff.mpr ⟨h, rfl⟩]

/-- A transaction that fails leaves no trace, whichever statement it was. -/
theorem run_of_not_faultless {ts : List (Statement σ ε)} (h : ¬ Faultless ts) (s : σ) :
    ∃ e, run ts s = (.error e, s) := by
  cases hs : steps ts s with
  | ok s' => exact absurd (steps_eq_ok_iff.mp hs).1 h
  | error e => exact ⟨e, by simp only [run, hs]⟩

end Transaction
