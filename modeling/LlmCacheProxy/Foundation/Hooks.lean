import Mathlib.Data.List.Basic
import Mathlib.Tactic.Common

/-!
# Hooks that run in order

A value goes through a list of hooks, each of which may fail, and the first
failure ends the run. The calls are logged with what each hook was given, so
that the order of a run can be told from its log.
-/

namespace Hooks

/-- A call of the hook at a place of the list. -/
structure Call (α σ : Type) where
  index : Nat
  hook : α
  given : σ

variable {α σ ε : Type} (apply : α → σ → Except ε σ)

/-- The calls that are made and what the last one comes to; `i` is the place of
the first hook. -/
def run : Nat → List α → σ → List (Call α σ) × Except ε σ
  | _, [], s => ([], .ok s)
  | i, hook :: rest, s =>
      match apply hook s with
      | .error e => ([⟨i, hook, s⟩], .error e)
      | .ok next => (⟨i, hook, s⟩ :: (run (i + 1) rest next).1, (run (i + 1) rest next).2)

/-- What the hooks make of a value. -/
def thread (hooks : List α) (s : σ) : Except ε σ := hooks.foldlM (fun s hook => apply hook s) s

variable {apply}

theorem thread_cons_of_ok {hook : α} {s next : σ} (h : apply hook s = .ok next) (rest : List α) :
    thread apply (hook :: rest) s = thread apply rest next := by
  simp [thread, h, bind, Except.bind]

theorem thread_cons_of_error {hook : α} {s : σ} {e : ε} (h : apply hook s = .error e)
    (rest : List α) : thread apply (hook :: rest) s = .error e := by
  simp [thread, h, bind, Except.bind]

theorem run_of_ok {hook : α} {s next : σ} (h : apply hook s = .ok next) (i : Nat)
    (rest : List α) :
    run apply i (hook :: rest) s =
      (⟨i, hook, s⟩ :: (run apply (i + 1) rest next).1, (run apply (i + 1) rest next).2) := by
  simp only [run, h]

theorem run_of_error {hook : α} {s : σ} {e : ε} (h : apply hook s = .error e) (i : Nat)
    (rest : List α) : run apply i (hook :: rest) s = ([⟨i, hook, s⟩], .error e) := by
  simp only [run, h]

/-- The `j`-th call is made when the hooks before it succeed; it is a call of the
`j`-th hook with what they made. -/
theorem getElem?_calls (i : Nat) (hooks : List α) (s : σ) (j : Nat) (c : Call α σ) :
    (run apply i hooks s).1[j]? = some c ↔
      c.index = i + j ∧ hooks[j]? = some c.hook ∧
        thread apply (hooks.take j) s = .ok c.given := by
  have hfirst {hook : α} {rest : List α} {i : Nat} {s : σ} {calls : List (Call α σ)} :
      ((⟨i, hook, s⟩ : Call α σ) :: calls)[0]? = some c ↔
        c.index = i + 0 ∧ (hook :: rest)[0]? = some c.hook ∧
          thread apply ((hook :: rest).take 0) s = .ok c.given := by
    obtain ⟨index, hook', given⟩ := c
    simp only [List.getElem?_cons_zero, Option.some.injEq, Call.mk.injEq, List.take_zero, thread,
      List.foldlM_nil, pure, Except.pure, Except.ok.injEq, Nat.add_zero]
    exact ⟨fun ⟨h₁, h₂, h₃⟩ => ⟨h₁.symm, h₂, h₃⟩, fun ⟨h₁, h₂, h₃⟩ => ⟨h₁.symm, h₂, h₃⟩⟩
  induction hooks generalizing i s j with
  | nil => simp [run]
  | cons hook rest ih =>
      cases h : apply hook s with
      | error e =>
          rw [run_of_error h]
          cases j with
          | zero => exact hfirst
          | succ j => simp [thread_cons_of_error h]
      | ok next =>
          rw [run_of_ok h]
          cases j with
          | zero => exact hfirst
          | succ j =>
              rw [List.getElem?_cons_succ, List.getElem?_cons_succ, List.take_succ_cons,
                thread_cons_of_ok h]
              refine (ih (i + 1) next j).trans ?_
              constructor
              · exact fun ⟨hi, hrest⟩ => ⟨by omega, hrest⟩
              · exact fun ⟨hi, hrest⟩ => ⟨by omega, hrest⟩

/-- No call follows one that fails, and the run fails with it. -/
theorem failed_last {i : Nat} {hooks : List α} {s : σ} {front back : List (Call α σ)}
    {c : Call α σ} {e : ε} (h : (run apply i hooks s).1 = front ++ c :: back)
    (hfails : apply c.hook c.given = .error e) :
    back = [] ∧ thread apply hooks s = .error e := by
  induction hooks generalizing i s front with
  | nil => simp [run] at h
  | cons hook rest ih =>
      cases hstep : apply hook s with
      | error e' =>
          rw [run_of_error hstep, List.singleton_eq_append_iff] at h
          rcases h with ⟨rfl, hc⟩ | ⟨-, hc⟩
          · obtain ⟨rfl, rfl⟩ := List.cons.inj hc
            obtain rfl := Except.error.inj (hstep.symm.trans hfails)
            exact ⟨rfl, thread_cons_of_error hstep rest⟩
          · cases hc
      | ok next =>
          rw [run_of_ok hstep] at h
          rw [thread_cons_of_ok hstep]
          cases front with
          | nil =>
              obtain ⟨rfl, -⟩ := List.cons.inj h
              rw [hstep] at hfails
              cases hfails
          | cons c' front => exact ih (List.cons.inj h).2

end Hooks
