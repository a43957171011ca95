import Mathlib.Data.List.Basic
import Mathlib.Data.List.Infix
import Mathlib.Tactic.Common

/-!
# Blocks ended by an empty line

A stream of symbols is cut into blocks, each ending at the first two
consecutive newlines, after every return directly before a newline has been
dropped. Both passes can be run on a growing prefix: what an early pass leaves
over, followed by the later input, gives what one pass over everything gives.
-/

namespace Framing

variable {α : Type*} [DecidableEq α]

/-- Drop each `cr` that stands directly before an `nl`. -/
def collapse (cr nl : α) : List α → List α
  | a :: b :: rest =>
      if a = cr ∧ b = nl then nl :: collapse cr nl rest else a :: collapse cr nl (b :: rest)
  | short => short

/-- The first block, its closing newlines included, and what follows it. -/
def nextBlock (nl : α) : List α → Option (List α × List α)
  | a :: b :: rest =>
      if a = nl ∧ b = nl then some ([a, b], rest)
      else (nextBlock nl (b :: rest)).map fun p => (a :: p.1, p.2)
  | _ => none

theorem nextBlock_eq_append {nl : α} {s f r : List α} (h : nextBlock nl s = some (f, r)) :
    s = f ++ r ∧ 2 ≤ f.length := by
  fun_induction nextBlock nl s generalizing f with
  | case1 a b rest hab =>
      obtain ⟨rfl, rfl⟩ := by simpa using h
      simp
  | case2 a b rest hab ih =>
      obtain ⟨⟨f', r'⟩, hf, heq⟩ := Option.map_eq_some_iff.mp h
      obtain ⟨rfl, rfl⟩ := by simpa using heq
      obtain ⟨hs, hl⟩ := ih hf
      exact ⟨by rw [hs]; rfl, by simp; omega⟩
  | case3 => cases h

/-- All complete blocks of `s`, and the unfinished rest. -/
def blocks (nl : α) (s : List α) : List (List α) × List α :=
  match _h : nextBlock nl s with
  | none => ([], s)
  | some (f, r) =>
      let later := blocks nl r
      (f :: later.1, later.2)
termination_by s.length
decreasing_by
  obtain ⟨rfl, hl⟩ := nextBlock_eq_append _h
  simp
  omega

theorem blocks_of_none {nl : α} {s : List α} (h : nextBlock nl s = none) :
    blocks nl s = ([], s) := by
  rw [blocks]
  split
  · rfl
  · rename_i f r h'
    rw [h] at h'
    cases h'

theorem blocks_of_some {nl : α} {s f r : List α} (h : nextBlock nl s = some (f, r)) :
    blocks nl s = (f :: (blocks nl r).1, (blocks nl r).2) := by
  rw [blocks]
  split
  · rename_i h'
    rw [h] at h'
    cases h'
  · rename_i f' r' h'
    rw [h] at h'
    obtain ⟨rfl, rfl⟩ := by simpa using h'
    rfl

/-- What follows a block does not change it. -/
theorem nextBlock_replace {nl : α} {s f r : List α} (h : nextBlock nl s = some (f, r))
    (t : List α) : nextBlock nl (f ++ t) = some (f, t) := by
  fun_induction nextBlock nl s generalizing f with
  | case1 a b rest hab =>
      obtain ⟨rfl, rfl⟩ := by simpa using h
      simp [nextBlock, hab]
  | case2 a b rest hab ih =>
      obtain ⟨⟨f', r'⟩, hf, heq⟩ := Option.map_eq_some_iff.mp h
      obtain ⟨rfl, rfl⟩ := by simpa using heq
      have := ih hf
      obtain ⟨hs, hl⟩ := nextBlock_eq_append hf
      match f', hs, this with
      | c :: f'', hs, this =>
          obtain ⟨rfl, -⟩ := by simpa using hs
          simp only [List.cons_append] at this ⊢
          rw [nextBlock, if_neg hab, this]
          rfl
  | case3 => cases h

/-- A block ends with a newline. -/
theorem nextBlock_getLast {nl : α} {s f r : List α} (h : nextBlock nl s = some (f, r)) :
    f.getLast? = some nl := by
  fun_induction nextBlock nl s generalizing f with
  | case1 a b rest hab =>
      obtain ⟨rfl, rfl⟩ := by simpa using h
      simp [hab.2]
  | case2 a b rest hab ih =>
      obtain ⟨⟨f', r'⟩, hf, heq⟩ := Option.map_eq_some_iff.mp h
      obtain ⟨rfl, rfl⟩ := by simpa using heq
      have := ih hf
      cases f' with
      | nil => simp at this
      | cons c f'' => simpa using this
  | case3 => cases h

theorem blocks_flatten (nl : α) (s : List α) :
    (blocks nl s).1.flatten ++ (blocks nl s).2 = s := by
  fun_induction blocks nl s with
  | case1 s h => simp
  | case2 s f r h later ih =>
      simp only [List.flatten_cons, List.append_assoc]
      rw [ih]
      exact (nextBlock_eq_append h).1.symm

/-- The blocks alone, followed by anything, are found again. -/
theorem blocks_replace (nl : α) (s t : List α) :
    blocks nl ((blocks nl s).1.flatten ++ t) =
      ((blocks nl s).1 ++ (blocks nl t).1, (blocks nl t).2) := by
  fun_induction blocks nl s with
  | case1 s h => simp
  | case2 s f r h later ih =>
      simp only [List.flatten_cons, List.append_assoc]
      rw [blocks_of_some (nextBlock_replace h _), ih]
      rfl

/-- The unfinished rest holds no further block. -/
theorem blocks_rest (nl : α) (s : List α) : blocks nl (blocks nl s).2 = ([], (blocks nl s).2) := by
  fun_induction blocks nl s with
  | case1 s h => exact blocks_of_none h
  | case2 s f r h later ih => exact ih

theorem blocks_getLast (nl : α) (s : List α) :
    (blocks nl s).1.flatten = [] ∨ (blocks nl s).1.flatten.getLast? = some nl := by
  fun_induction blocks nl s with
  | case1 s h => exact Or.inl rfl
  | case2 s f r h later ih =>
      right
      simp only [List.flatten_cons, List.getLast?_append]
      rcases ih with ih | ih
      · simp [later, ih, nextBlock_getLast h]
      · simp [later, ih]

/-! ### Whole blocks -/

/-- A list that is exactly one block. -/
def IsBlock (nl : α) (s : List α) : Prop := nextBlock nl s = some (s, [])

theorem isBlock_of_nextBlock {nl : α} {s f r : List α} (h : nextBlock nl s = some (f, r)) :
    IsBlock nl f := by
  have hreplaced := nextBlock_replace h []
  rwa [List.append_nil] at hreplaced

theorem isBlock_of_mem_blocks {nl : α} {s f : List α} (h : f ∈ (blocks nl s).1) :
    IsBlock nl f := by
  fun_induction blocks nl s with
  | case1 s hnone => cases h
  | case2 s f' r hsome later ih =>
      rcases List.mem_cons.mp h with rfl | h
      · exact isBlock_of_nextBlock hsome
      · exact ih h

/-- Joined blocks come apart as they were. -/
theorem blocks_of_isBlock {nl : α} {fs : List (List α)} (h : ∀ f ∈ fs, IsBlock nl f)
    (t : List α) :
    blocks nl (fs.flatten ++ t) = (fs ++ (blocks nl t).1, (blocks nl t).2) := by
  induction fs with
  | nil => rfl
  | cons f fs ih =>
      obtain ⟨hf, hfs⟩ := List.forall_mem_cons.mp h
      rw [List.flatten_cons, List.append_assoc, blocks_of_some (nextBlock_replace hf _), ih hfs]
      rfl

theorem nextBlock_cons_of_ne {nl a : α} (h : a ≠ nl) (s : List α) :
    nextBlock nl (a :: s) = (nextBlock nl s).map fun p => (a :: p.1, p.2) := by
  cases s with
  | nil => rfl
  | cons b s => simp [nextBlock, h]

/-- A line without newline, with the block behind it. -/
theorem IsBlock.append_line {nl : α} {l s : List α} (hl : nl ∉ l) (hs : IsBlock nl s) :
    IsBlock nl (l ++ s) := by
  induction l with
  | nil => exact hs
  | cons a l ih =>
      obtain ⟨ha, hl⟩ := not_or.mp (mt List.mem_cons.mpr hl)
      rw [IsBlock, List.cons_append, nextBlock_cons_of_ne (Ne.symm ha), ih hl]
      rfl

/-- A newline in front of a block that does not start with one. -/
theorem IsBlock.cons_newline {nl a : α} {s : List α} (ha : a ≠ nl) (hs : IsBlock nl (a :: s)) :
    IsBlock nl (nl :: a :: s) := by
  rw [IsBlock, nextBlock, if_neg fun h => ha h.2, hs]
  rfl

theorem isBlock_pair (nl : α) : IsBlock nl [nl, nl] := by
  simp [IsBlock, nextBlock]

/-! ### Dropping returns early -/

variable {cr nl : α}

theorem collapse_cons {a : α} {s : List α} (h : a = cr → s.head? ≠ some nl) :
    collapse cr nl (a :: s) = a :: collapse cr nl s := by
  cases s with
  | nil => rfl
  | cons b rest =>
      have hab : ¬ (a = cr ∧ b = nl) := by
        rintro ⟨ha, rfl⟩
        exact h ha rfl
      simp [collapse, hab]

theorem collapse_pair (s : List α) : collapse cr nl (cr :: nl :: s) = nl :: collapse cr nl s := by
  simp [collapse]

/-- How a collapsed list can start. -/
theorem head_collapse (cr nl : α) (s : List α) :
    (collapse cr nl s).head? = s.head? ∨
      ∃ rest, s = cr :: nl :: rest ∧ (collapse cr nl s).head? = some nl := by
  match s with
  | [] => exact Or.inl rfl
  | [a] => exact Or.inl rfl
  | a :: b :: rest =>
      by_cases hab : a = cr ∧ b = nl
      · obtain ⟨rfl, rfl⟩ := hab
        exact Or.inr ⟨rest, rfl, by simp [collapse]⟩
      · exact Or.inl (by simp [collapse, hab])

omit [DecidableEq α] in
theorem not_infix_of_cons {p : List α} {a : α} {s : List α} (h : ¬ p <:+: a :: s) : ¬ p <:+: s :=
  fun hs => h (hs.trans (List.suffix_cons a s).isInfix)

/-- Without `cr cr nl`, collapsing a prefix first changes nothing. -/
theorem collapse_collapse_append (hne : cr ≠ nl) {s t : List α}
    (h : ¬ [cr, cr, nl] <:+: s ++ t) :
    collapse cr nl (collapse cr nl s ++ t) = collapse cr nl (s ++ t) := by
  fun_induction collapse cr nl s with
  | case1 a b rest hab ih =>
      obtain ⟨rfl, rfl⟩ := hab
      have hrest := ih (not_infix_of_cons (not_infix_of_cons h))
      simp only [List.cons_append]
      rw [collapse_pair, collapse_cons fun heq => absurd heq.symm hne, hrest]
  | case2 a b rest hab ih =>
      have hrest := ih (not_infix_of_cons h)
      have hhead : a = cr → (collapse cr nl (b :: rest) ++ t).head? ≠ some nl := by
        rintro rfl
        have hb : b ≠ nl := fun hb => hab ⟨rfl, hb⟩
        rcases head_collapse a nl (b :: rest) with hh | ⟨rest', heq, -⟩
        · simpa [List.head?_append, hh] using hb
        · exfalso
          apply h
          rw [heq]
          exact ⟨[], rest' ++ t, by simp⟩
      have hhead' : a = cr → (b :: rest ++ t).head? ≠ some nl := by
        rintro rfl
        simpa using fun hb => hab ⟨rfl, hb⟩
      rw [List.cons_append, collapse_cons hhead, hrest]
      exact (collapse_cons hhead').symm
  | case3 => rfl

/-- Collapsing leaves no `cr nl` behind, unless there was a `cr cr nl`. -/
theorem not_pair_collapse (hne : cr ≠ nl) {s : List α} (h : ¬ [cr, cr, nl] <:+: s) :
    ¬ [cr, nl] <:+: collapse cr nl s := by
  fun_induction collapse cr nl s with
  | case1 a b rest hab ih =>
      intro hp
      rcases List.infix_cons_iff.mp hp with hpre | hp
      · exact hne (List.cons_prefix_cons.mp hpre).1
      · exact ih (not_infix_of_cons (not_infix_of_cons h)) hp
  | case2 a b rest hab ih =>
      intro hp
      rcases List.infix_cons_iff.mp hp with hpre | hp
      · obtain ⟨rfl, u, hu⟩ := List.cons_prefix_cons.mp hpre
        have hhead : (collapse cr nl (b :: rest)).head? = some nl := by
          rw [← hu]
          rfl
        rcases head_collapse cr nl (b :: rest) with hh | ⟨rest', heq, -⟩
        · rw [hh] at hhead
          exact hab ⟨rfl, by simpa using hhead⟩
        · apply h
          rw [heq]
          exact ⟨[], rest', by simp⟩
      · exact ih (not_infix_of_cons h) hp
  | case3 s hs =>
      intro hp
      obtain ⟨u, v, huv⟩ := hp
      match s, hs with
      | [], _ => simp at huv
      | [a], _ =>
          have := congrArg List.length huv
          simp at this
          omega
      | a :: b :: rest, hs => exact hs a b rest rfl

/-- A list without `cr nl` passes unchanged. -/
theorem collapse_of_not_pair {s : List α} (h : ¬ [cr, nl] <:+: s) : collapse cr nl s = s := by
  induction s with
  | nil => rfl
  | cons a s ih =>
      rw [collapse_cons, ih (not_infix_of_cons h)]
      rintro rfl hhead
      cases s with
      | nil => cases hhead
      | cons b s =>
          obtain rfl : b = nl := by simpa using hhead
          exact h ⟨[], s, by simp⟩

/-- A prefix without `cr nl` and without a last `cr` passes unchanged. -/
theorem collapse_append {s t : List α} (h : ¬ [cr, nl] <:+: s) (hlast : s.getLast? ≠ some cr) :
    collapse cr nl (s ++ t) = s ++ collapse cr nl t := by
  induction s with
  | nil => rfl
  | cons a s ih =>
      have hs : s.getLast? ≠ some cr := by
        cases s with
        | nil => simp
        | cons b s => simpa using hlast
      have ih := ih (not_infix_of_cons h) hs
      rw [List.cons_append, collapse_cons, ih]
      · rfl
      · rintro rfl hhead
        cases s with
        | nil => simp at hlast
        | cons b s =>
            obtain rfl : b = nl := by simpa using hhead
            exact h ⟨[], s, by simp⟩

/-- Collapsing a prefix creates no `cr cr nl`. -/
theorem not_triple_collapse_append (hne : cr ≠ nl) {s t : List α}
    (h : ¬ [cr, cr, nl] <:+: s ++ t) : ¬ [cr, cr, nl] <:+: collapse cr nl s ++ t := by
  fun_induction collapse cr nl s with
  | case1 a b rest hab ih =>
      obtain ⟨rfl, rfl⟩ := hab
      intro hp
      rcases List.infix_cons_iff.mp hp with hpre | hp
      · exact hne (List.cons_prefix_cons.mp hpre).1
      · exact ih (not_infix_of_cons (not_infix_of_cons h)) hp
  | case2 a b rest hab ih =>
      intro hp
      rcases List.infix_cons_iff.mp hp with hpre | hp
      · obtain ⟨rfl, u, hu⟩ := List.cons_prefix_cons.mp hpre
        change [cr, nl] ++ u = collapse cr nl (b :: rest) ++ t at hu
        -- The collapsed rest starts with `cr nl`, so `rest` starts with what makes a `cr cr nl`.
        have hb : b = cr := by
          have hu' : (collapse cr nl (b :: rest) ++ t).head? = some cr :=
            (congrArg List.head? hu).symm
          rcases head_collapse cr nl (b :: rest) with hh | ⟨rest', -, hh⟩
          · rw [List.head?_append, hh] at hu'
            simpa using hu'
          · rw [List.head?_append, hh] at hu'
            exact absurd (by simpa using hu'.symm) hne
        subst hb
        have hrest : rest.head? ≠ some nl := by
          intro hr
          obtain ⟨rest', rfl⟩ : ∃ rest', rest = nl :: rest' := by
            cases rest <;> simp_all
          exact h ⟨[], rest' ++ t, by simp⟩
        rw [collapse_cons fun _ => hrest] at hu
        have hhead : (collapse b nl rest ++ t).head? = some nl := by
          exact (congrArg (fun l => (l.drop 1).head?) hu).symm
        rcases head_collapse b nl rest with hh | ⟨rest', rfl, -⟩
        · rw [List.head?_append, hh] at hhead
          cases rest with
          | nil =>
              obtain ⟨t', rfl⟩ : ∃ t', t = nl :: t' := by
                cases t <;> simp_all
              exact h ⟨[], t', by simp⟩
          | cons c rest => simp_all
        · exact h ⟨[b], rest' ++ t, by simp⟩
      · exact ih (not_infix_of_cons h) hp
  | case3 => exact h

end Framing
