import Mathlib.Data.List.Basic
import Mathlib.Tactic.Common

/-!
# A map with expiry, as a function of its history

What a store holds is read off the events so far. A key stands for the value
that was put last since the store was cleared, a mark for every key it was set
on since then, and a value that is no longer fresh is not given out. Histories
are lists of events with their times, latest first.
-/

namespace ExpiringStore

variable {K V G T : Type*} [DecidableEq K]

inductive Event (K V G : Type*) where
  | put (k : K) (v : V)
  | mark (g : G) (k : K)
  | read (k : K)
  | clear
  /-- A step that leaves keys and marks as they are. -/
  | idle

/-- Latest first. -/
abbrev History (K V G T : Type*) := List (T × Event K V G)

/-- The time and value of the latest put of `k` since the last clear. -/
def latest (k : K) : History K V G T → Option (T × V)
  | [] => none
  | (t, .put k' v) :: h => if k' = k then some (t, v) else latest k h
  | (_, .clear) :: _ => none
  | _ :: h => latest k h

/-- Whether `g` was set on `k` since the last clear. -/
def Marked (g : G) (k : K) : History K V G T → Prop
  | [] => False
  | (_, .mark g' k') :: h => (g' = g ∧ k' = k) ∨ Marked g k h
  | (_, .clear) :: _ => False
  | _ :: h => Marked g k h

section Fresh
variable (fresh : T → T → Bool)

/-- What a read of `k` at `now` gives out. -/
def live (now : T) (k : K) (h : History K V G T) : Option V :=
  (latest k h).bind fun p => if fresh p.1 now then some p.2 else none

/-- How often the latest value of `k` has been given out. -/
def reads (k : K) : History K V G T → Nat
  | [] => 0
  | (_, .put k' _) :: h => if k' = k then 0 else reads k h
  | (_, .clear) :: _ => 0
  | (t, .read k') :: h =>
      if k' = k ∧ (live fresh t k h).isSome then reads k h + 1 else reads k h
  | _ :: h => reads k h

end Fresh

/-- The event leaves the value of `k` in place. -/
def Keeps (k : K) : Event K V G → Prop
  | .put k' _ => k' ≠ k
  | .clear => False
  | _ => True

/-- A put is the latest as long as every later event leaves it in place. -/
theorem latest_append_of_keeps {k : K} {later h : History K V G T}
    (hk : ∀ e ∈ later, Keeps k e.2) : latest k (later ++ h) = latest k h := by
  induction later with
  | nil => rfl
  | cons e later ih =>
      have he := hk e (by simp)
      have ih := ih fun e he => hk e (by simp [he])
      obtain ⟨t, e⟩ := e
      cases e with
      | put k' v =>
          rw [List.cons_append, latest, if_neg he]
          exact ih
      | clear => exact he.elim
      | mark | read | idle => exact ih

/-- The latest put is a put of the history that every later event kept. -/
theorem exists_of_latest {k : K} {h : History K V G T} {t : T} {v : V}
    (hl : latest k h = some (t, v)) :
    ∃ later earlier, h = later ++ (t, .put k v) :: earlier ∧ ∀ e ∈ later, Keeps k e.2 := by
  induction h with
  | nil => cases hl
  | cons e h ih =>
      have extend (hkeep : Keeps k e.2) (hl : latest k h = some (t, v)) :
          ∃ later earlier, e :: h = later ++ (t, .put k v) :: earlier ∧
            ∀ e ∈ later, Keeps k e.2 := by
        obtain ⟨later, earlier, rfl, hlater⟩ := ih hl
        refine ⟨e :: later, earlier, rfl, ?_⟩
        intro e' he'
        rcases List.mem_cons.mp he' with rfl | he'
        · exact hkeep
        · exact hlater e' he'
      obtain ⟨t', e⟩ := e
      cases e with
      | put k' v' =>
          by_cases hk : k' = k
          · rw [latest, if_pos hk] at hl
            obtain ⟨rfl, rfl⟩ := Prod.mk.inj (Option.some.inj hl)
            exact ⟨[], h, by simp [hk], by simp⟩
          · rw [latest, if_neg hk] at hl
            exact extend hk hl
      | clear => cases hl
      | mark | read | idle => exact extend trivial hl

end ExpiringStore
