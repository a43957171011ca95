import Mathlib.Algebra.Ring.Nat
import Mathlib.Order.Lattice
import Mathlib.Data.List.Basic
import Mathlib.Tactic.Common

/-!
# Maps kept sorted by key

The entries of a `SortedMap` are strictly increasing, so a key occurs at most
once and iteration order is key order, as for Rust's `BTreeMap`. A visit runs an
effectful function over every value in that order and collects what each call
emits.
-/

/-- An association list with strictly increasing keys. -/
structure SortedMap (α β : Type*) [LinearOrder α] where
  entries : List (α × β)
  sorted : entries.Pairwise fun a b => a.1 < b.1

namespace SortedMap

variable {α β γ ε : Type*} [LinearOrder α]

def empty : SortedMap α β := ⟨[], List.Pairwise.nil⟩

/-- The value at `k` in a list of entries, or `d`. -/
def lookupD (d : β) (k : α) : List (α × β) → β
  | [] => d
  | (k', v) :: rest => if k = k' then v else lookupD d k rest

/-- The value at `k`, or `d` when the key is absent. -/
def getD (m : SortedMap α β) (k : α) (d : β) : β := lookupD d k m.entries

@[simp] theorem getD_empty (k : α) (d : β) : (empty : SortedMap α β).getD k d = d := rfl

theorem lookupD_of_lt {d : β} {k : α} {l : List (α × β)} (h : ∀ p ∈ l, k < p.1) :
    lookupD d k l = d := by
  induction l with
  | nil => rfl
  | cons p rest ih =>
      have hp : k ≠ p.1 := ne_of_lt (h p (by simp))
      simp only [lookupD, if_neg hp]
      exact ih fun q hq => h q (by simp [hq])

/-- An entry is found under its key. -/
theorem getD_of_mem {m : SortedMap α β} {p : α × β} (h : p ∈ m.entries) (d : β) :
    m.getD p.1 d = p.2 := by
  obtain ⟨l, hl⟩ := m
  simp only [getD] at h ⊢
  induction l with
  | nil => cases h
  | cons q rest ih =>
      obtain ⟨hhead, hrest⟩ := List.pairwise_cons.mp hl
      rcases List.mem_cons.mp h with rfl | h
      · exact if_pos rfl
      · exact (if_neg (ne_of_gt (hhead p h))).trans (ih hrest h)

/-- Apply `f` to the value at `k`, starting from `d` when the key is absent. -/
def upsertList (k : α) (d : β) (f : β → β) : List (α × β) → List (α × β)
  | [] => [(k, f d)]
  | (k', v) :: rest =>
      if k < k' then (k, f d) :: (k', v) :: rest
      else if k = k' then (k', f v) :: rest
      else (k', v) :: upsertList k d f rest

theorem mem_upsertList_key {k : α} {d : β} {f : β → β} {l : List (α × β)} {p : α × β}
    (h : p ∈ upsertList k d f l) : p.1 = k ∨ ∃ q ∈ l, q.1 = p.1 := by
  induction l with
  | nil => simp_all [upsertList]
  | cons q rest ih =>
      obtain ⟨k', v⟩ := q
      simp only [upsertList] at h
      split at h
      · rcases List.mem_cons.mp h with rfl | h
        · exact Or.inl rfl
        · exact Or.inr ⟨p, h, rfl⟩
      split at h
      · rcases List.mem_cons.mp h with rfl | h
        · exact Or.inr ⟨(k', v), by simp, rfl⟩
        · exact Or.inr ⟨p, by simp [h], rfl⟩
      · rcases List.mem_cons.mp h with rfl | h
        · exact Or.inr ⟨(k', v), by simp, rfl⟩
        · rcases ih h with heq | ⟨q, hq, heq⟩
          · exact Or.inl heq
          · exact Or.inr ⟨q, by simp [hq], heq⟩

theorem upsertList_sorted (k : α) (d : β) (f : β → β) {l : List (α × β)}
    (h : l.Pairwise fun a b => a.1 < b.1) :
    (upsertList k d f l).Pairwise fun a b => a.1 < b.1 := by
  induction l with
  | nil => simp [upsertList]
  | cons q rest ih =>
      obtain ⟨k', v⟩ := q
      obtain ⟨hhead, hrest⟩ := List.pairwise_cons.mp h
      simp only [upsertList]
      split
      · rename_i hlt
        refine List.pairwise_cons.mpr ⟨?_, h⟩
        intro p hp
        rcases List.mem_cons.mp hp with rfl | hp
        · exact hlt
        · exact hlt.trans (hhead p hp)
      split
      · exact List.pairwise_cons.mpr ⟨hhead, hrest⟩
      · rename_i hnlt hne
        refine List.pairwise_cons.mpr ⟨?_, ih hrest⟩
        intro p hp
        rcases mem_upsertList_key hp with heq | ⟨q, hq, heq⟩
        · rw [heq]
          exact lt_of_le_of_ne (not_lt.mp hnlt) (Ne.symm hne)
        · rw [← heq]
          exact hhead q hq

/-- `BTreeMap::entry(k).or_default()` followed by an update of the value. -/
def upsert (m : SortedMap α β) (k : α) (d : β) (f : β → β) : SortedMap α β :=
  ⟨upsertList k d f m.entries, upsertList_sorted k d f m.sorted⟩

theorem getD_upsert (m : SortedMap α β) (k k' : α) (d : β) (f : β → β) :
    (m.upsert k d f).getD k' d = if k' = k then f (m.getD k d) else m.getD k' d := by
  obtain ⟨l, hl⟩ := m
  simp only [getD, upsert]
  induction l with
  | nil => simp [upsertList, lookupD]
  | cons q rest ih =>
      obtain ⟨k₀, v⟩ := q
      obtain ⟨hhead, hrest⟩ := List.pairwise_cons.mp hl
      have ih := ih hrest
      simp only [upsertList]
      split
      · rename_i hlt
        have hnone : lookupD d k ((k₀, v) :: rest) = d := lookupD_of_lt (by
          intro p hp
          rcases List.mem_cons.mp hp with rfl | hp
          · exact hlt
          · exact hlt.trans (hhead p hp))
        rw [hnone]
        by_cases h : k' = k <;> simp [lookupD, h]
      split
      · rename_i heq
        subst heq
        by_cases h : k' = k <;> simp [lookupD, h]
      · rename_i hne
        by_cases h : k' = k
        · subst h
          simpa [lookupD, hne] using ih
        · by_cases h₀ : k' = k₀
          · simp [lookupD, h₀, Ne.symm hne]
          · simpa [lookupD, h, h₀] using ih

/-! ### Visiting every value -/

/-- Run `f` on each entry in order, stopping at the first failure. -/
def visitList (f : α → β → Except ε (β × List γ)) :
    List (α × β) → Except ε (List (α × β) × List γ)
  | [] => .ok ([], [])
  | (k, v) :: rest =>
      match f k v with
      | .error e => .error e
      | .ok (v', out) =>
          match visitList f rest with
          | .error e => .error e
          | .ok (rest', outs) => .ok ((k, v') :: rest', out ++ outs)

omit [LinearOrder α] in
theorem visitList_cons {f : α → β → Except ε (β × List γ)} {k : α} {v : β}
    {rest l' : List (α × β)} {out : List γ} (h : visitList f ((k, v) :: rest) = .ok (l', out)) :
    ∃ v' o rest' outs, f k v = .ok (v', o) ∧ visitList f rest = .ok (rest', outs) ∧
      l' = (k, v') :: rest' ∧ out = o ++ outs := by
  simp only [visitList] at h
  split at h
  · cases h
  · rename_i v' o hf
    split at h
    · cases h
    · rename_i rest' outs hrest
      obtain ⟨rfl, rfl⟩ := by simpa using h
      exact ⟨v', o, rest', outs, hf, hrest, rfl, rfl⟩

omit [LinearOrder α] in
theorem visitList_keys {f : α → β → Except ε (β × List γ)} {l l' : List (α × β)} {out : List γ}
    (h : visitList f l = .ok (l', out)) : l'.map Prod.fst = l.map Prod.fst := by
  induction l generalizing l' out with
  | nil =>
      obtain ⟨rfl, -⟩ := by simpa [visitList] using h
      rfl
  | cons p rest ih =>
      obtain ⟨v', o, rest', outs, -, hrest, rfl, -⟩ := visitList_cons h
      simp [ih hrest]

private theorem sorted_of_keys {l l' : List (α × β)}
    (hkeys : l'.map Prod.fst = l.map Prod.fst) (h : l.Pairwise fun a b => a.1 < b.1) :
    l'.Pairwise fun a b => a.1 < b.1 := by
  rw [← List.pairwise_map] at h ⊢
  rwa [hkeys]

/-- Visit the whole map in key order; the keys are those of before. -/
def visit (m : SortedMap α β) (f : α → β → Except ε (β × List γ)) :
    Except ε (SortedMap α β × List γ) :=
  match h : visitList f m.entries with
  | .error e => .error e
  | .ok (l, out) => .ok (⟨l, sorted_of_keys (visitList_keys h) m.sorted⟩, out)

theorem visit_eq_ok {m m' : SortedMap α β} {f : α → β → Except ε (β × List γ)} {out : List γ} :
    m.visit f = .ok (m', out) ↔ visitList f m.entries = .ok (m'.entries, out) := by
  unfold visit
  split
  · rename_i e h
    simp [h]
  · rename_i l o h
    obtain ⟨l', hl'⟩ := m'
    simp [h]

/-- A visit fails only where the call for one of the entries fails. -/
theorem visit_error {m : SortedMap α β} {f : α → β → Except ε (β × List γ)} {e : ε}
    (h : m.visit f = .error e) : ∃ p ∈ m.entries, f p.1 p.2 = .error e := by
  have hl : visitList f m.entries = .error e := by
    unfold visit at h
    split at h
    · rename_i e' hv
      rw [hv]
      simpa using h
    · cases h
  generalize m.entries = l at hl
  induction l with
  | nil => cases hl
  | cons p rest ih =>
      simp only [visitList] at hl
      split at hl
      · rename_i hf
        exact ⟨p, List.mem_cons_self .., hf.trans (by simpa using hl)⟩
      · split at hl
        · rename_i hrest
          obtain ⟨q, hq, hf⟩ := ih (hrest.trans (by simpa using hl))
          exact ⟨q, List.mem_cons_of_mem p hq, hf⟩
        · cases hl

theorem visit_ok {m : SortedMap α β} {f : α → β → Except ε (β × List γ)}
    (h : ∀ k v, ∃ r, f k v = .ok r) : ∃ m' out, m.visit f = .ok (m', out) := by
  cases hv : m.visit f with
  | ok r => exact ⟨r.1, r.2, rfl⟩
  | error e =>
      obtain ⟨p, -, hf⟩ := visit_error hv
      obtain ⟨r, hr⟩ := h p.1 p.2
      rw [hr] at hf
      cases hf

variable {f : α → β → Except ε (β × List γ)} {d : β} {tag : γ → α}

/-- What a visit emits for other keys does not bear the tag of an absent key. -/
private theorem visitList_absent {l l' : List (α × β)} {out : List γ} {k : α}
    (htag : ∀ k v v' o, f k v = .ok (v', o) → ∀ x ∈ o, tag x = k)
    (h : visitList f l = .ok (l', out)) (hk : ∀ p ∈ l, p.1 ≠ k) :
    out.filter (fun x => tag x = k) = [] := by
  induction l generalizing l' out with
  | nil =>
      obtain ⟨-, rfl⟩ := by simpa [visitList] using h
      rfl
  | cons p rest ih =>
      obtain ⟨v', o, rest', outs, hf, hrest, -, rfl⟩ := visitList_cons h
      rw [List.filter_append, ih hrest fun q hq => hk q (by simp [hq]), List.append_nil]
      apply List.filter_eq_nil_iff.mpr
      intro x hx
      have hne := hk p (by simp)
      simpa [htag _ _ _ _ hf x hx] using hne

omit [LinearOrder α] in
private theorem visitList_tags {l l' : List (α × β)} {out : List γ}
    (htag : ∀ k v v' o, f k v = .ok (v', o) → ∀ x ∈ o, tag x = k)
    (h : visitList f l = .ok (l', out)) : ∀ x ∈ out, ∃ p ∈ l, tag x = p.1 := by
  induction l generalizing l' out with
  | nil =>
      obtain ⟨-, rfl⟩ := by simpa [visitList] using h
      exact fun _ hx => absurd hx List.not_mem_nil
  | cons p rest ih =>
      obtain ⟨v', o, rest', outs, hf, hrest, -, rfl⟩ := visitList_cons h
      intro x hx
      rcases List.mem_append.mp hx with hx | hx
      · exact ⟨p, List.mem_cons_self .., htag _ _ _ _ hf x hx⟩
      · obtain ⟨q, hq, heq⟩ := ih hrest x hx
        exact ⟨q, List.mem_cons_of_mem p hq, heq⟩

/-- A visit emits in key order. -/
theorem visit_ordered {m m' : SortedMap α β} {out : List γ}
    (htag : ∀ k v v' o, f k v = .ok (v', o) → ∀ x ∈ o, tag x = k)
    (h : m.visit f = .ok (m', out)) : out.Pairwise fun x y => tag x ≤ tag y := by
  rw [visit_eq_ok] at h
  obtain ⟨l, hl⟩ := m
  generalize m'.entries = l' at h
  simp only at h
  induction l generalizing l' out with
  | nil =>
      obtain ⟨-, rfl⟩ := by simpa [visitList] using h
      exact List.Pairwise.nil
  | cons p rest ih =>
      obtain ⟨hhead, hrest⟩ := List.pairwise_cons.mp hl
      obtain ⟨v', o, rest', outs, hf, hvisit, -, rfl⟩ := visitList_cons h
      have ho := htag _ _ _ _ hf
      refine List.pairwise_append.mpr ⟨?_, ih hrest rest' hvisit, fun x hx y hy => ?_⟩
      · exact List.pairwise_of_forall_mem_list fun x hx y hy =>
          le_of_eq ((ho x hx).trans (ho y hy).symm)
      · obtain ⟨q, hq, heq⟩ := visitList_tags htag hvisit y hy
        rw [ho x hx, heq]
        exact le_of_lt (hhead q hq)

/-- A visit acts on each key separately: the value and the emissions of a key
are those of one call on that key. Absent keys behave as if they held `d`. -/
theorem visit_key {m m' : SortedMap α β} {out : List γ}
    (htag : ∀ k v v' o, f k v = .ok (v', o) → ∀ x ∈ o, tag x = k)
    (hdef : ∀ k, f k d = .ok (d, [])) (h : m.visit f = .ok (m', out)) (k : α) :
    f k (m.getD k d) = .ok (m'.getD k d, out.filter fun x => tag x = k) := by
  rw [visit_eq_ok] at h
  simp only [getD]
  obtain ⟨l, hl⟩ := m
  generalize m'.entries = l' at h
  simp only at h ⊢
  induction l generalizing l' out with
  | nil =>
      obtain ⟨rfl, rfl⟩ := by simpa [visitList] using h
      simpa [lookupD] using hdef k
  | cons p rest ih =>
      obtain ⟨k₀, v⟩ := p
      obtain ⟨hhead, hrest⟩ := List.pairwise_cons.mp hl
      obtain ⟨v', o, rest', outs, hf, hvisit, rfl, rfl⟩ := visitList_cons h
      rw [List.filter_append]
      by_cases hk : k = k₀
      · subst hk
        have habs := visitList_absent htag hvisit fun p hp => ne_of_gt (hhead p hp)
        have hall : o.filter (fun x => tag x = k) = o :=
          List.filter_eq_self.mpr fun x hx => by simpa using htag _ _ _ _ hf x hx
        simpa [lookupD, habs, hall] using hf
      · have hnone : o.filter (fun x => tag x = k) = [] :=
          List.filter_eq_nil_iff.mpr fun x hx => by simpa [htag _ _ _ _ hf x hx] using Ne.symm hk
        simpa [lookupD, hk, hnone] using ih hrest rest' hvisit

/-! ### Totals -/

section Total

variable (m : SortedMap α Nat)

/-- The sum of all values. -/
def total : Nat := (m.entries.map Prod.snd).sum

@[simp] theorem total_empty : (empty : SortedMap α Nat).total = 0 := rfl

theorem total_upsert (k : α) (f : Nat → Nat) :
    (m.upsert k 0 f).total + m.getD k 0 = m.total + f (m.getD k 0) := by
  obtain ⟨l, hl⟩ := m
  simp only [total, getD, upsert]
  induction l with
  | nil => simp [upsertList, lookupD]
  | cons q rest ih =>
      obtain ⟨k₀, v⟩ := q
      obtain ⟨hhead, hrest⟩ := List.pairwise_cons.mp hl
      have ih := ih hrest
      simp only [upsertList]
      split
      · rename_i hlt
        have hnone : lookupD 0 k ((k₀, v) :: rest) = 0 := lookupD_of_lt (by
          intro p hp
          rcases List.mem_cons.mp hp with rfl | hp
          · exact hlt
          · exact hlt.trans (hhead p hp))
        rw [hnone]
        simp only [List.map_cons, List.sum_cons]
        omega
      split
      · rename_i heq
        simp only [lookupD, if_pos heq, List.map_cons, List.sum_cons]
        omega
      · rename_i hne
        simp only [lookupD, if_neg hne, List.map_cons, List.sum_cons]
        omega

/-- Pairs collected into a map, where a later pair takes the place of an earlier
one with its key. -/
def extend (pairs : List (α × Nat)) : SortedMap α Nat :=
  pairs.foldl (fun m p => m.upsert p.1 0 fun _ => p.2) m

theorem extend_cons (p : α × Nat) (pairs : List (α × Nat)) :
    m.extend (p :: pairs) = (m.upsert p.1 0 fun _ => p.2).extend pairs := rfl

variable {m} {pairs : List (α × Nat)}

theorem getD_extend_of_not_mem {k : α} (hk : k ∉ pairs.map Prod.fst) :
    (m.extend pairs).getD k 0 = m.getD k 0 := by
  induction pairs generalizing m with
  | nil => rfl
  | cons p pairs ih =>
      rw [List.map_cons, List.mem_cons, not_or] at hk
      rw [extend_cons, ih hk.2, getD_upsert, if_neg hk.1]

theorem getD_extend_of_mem (hn : (pairs.map Prod.fst).Nodup) {p : α × Nat} (hp : p ∈ pairs) :
    (m.extend pairs).getD p.1 0 = p.2 := by
  induction pairs generalizing m with
  | nil => cases hp
  | cons q pairs ih =>
      obtain ⟨hq, hn⟩ := List.nodup_cons.mp hn
      rw [extend_cons]
      rcases List.mem_cons.mp hp with rfl | hp
      · rw [getD_extend_of_not_mem hq, getD_upsert, if_pos rfl]
      · exact ih hn hp

/-- What the pairs add to the total, and what is lost of the values they take the
place of. -/
theorem total_extend (hn : (pairs.map Prod.fst).Nodup) :
    (m.extend pairs).total + (pairs.map fun p => m.getD p.1 0).sum =
      m.total + (pairs.map Prod.snd).sum := by
  induction pairs generalizing m with
  | nil => rfl
  | cons q pairs ih =>
      obtain ⟨hq, hn⟩ := List.nodup_cons.mp hn
      have hsame : (pairs.map fun p => (m.upsert q.1 0 fun _ => q.2).getD p.1 0) =
          pairs.map fun p => m.getD p.1 0 := by
        apply List.map_congr_left
        intro p hp
        have hne : p.1 ≠ q.1 := fun h => hq (h ▸ List.mem_map_of_mem hp)
        rw [getD_upsert, if_neg hne]
      have ih := ih (m := m.upsert q.1 0 fun _ => q.2) hn
      have hupsert := total_upsert m q.1 fun _ => q.2
      rw [hsame] at ih
      simp only [extend_cons, List.map_cons, List.sum_cons]
      omega

end Total

end SortedMap
