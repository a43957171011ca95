import Mathlib.Data.List.Nodup
import Mathlib.Tactic.Common

/-!
# Tables with a primary key

Rows stand in the order of their insertion. No two rows share a key, so a
table is known by what each key finds.
-/

variable {κ α : Type*} [DecidableEq κ]

/-- Rows with distinct keys. -/
structure Table (key : α → κ) where
  rows : List α
  unique : (rows.map key).Nodup

namespace Table

variable {key : α → κ}

omit [DecidableEq κ] in
@[ext] theorem ext {t u : Table key} (h : t.rows = u.rows) : t = u := by
  cases t
  cases u
  simpa using h

def empty : Table key := ⟨[], List.nodup_nil⟩

/-- `SELECT … WHERE key = k`. -/
def find? (t : Table key) (k : κ) : Option α := t.rows.find? fun a => key a = k

@[simp] theorem find?_empty (k : κ) : (empty : Table key).find? k = none := rfl

theorem mem_of_find? {t : Table key} {k : κ} {a : α} (h : t.find? k = some a) :
    a ∈ t.rows ∧ key a = k :=
  ⟨List.mem_of_find?_eq_some h, by simpa using List.find?_some h⟩

theorem find?_eq_some_iff {t : Table key} {k : κ} {a : α} :
    t.find? k = some a ↔ a ∈ t.rows ∧ key a = k := by
  constructor
  · exact mem_of_find?
  · rintro ⟨hmem, rfl⟩
    cases hf : t.find? (key a) with
    | none => exact absurd (List.find?_eq_none.mp hf a hmem) (by simp)
    | some b =>
        obtain ⟨hb, hkey⟩ := mem_of_find? hf
        rw [List.inj_on_of_nodup_map t.unique hb hmem hkey]

/-- `INSERT OR REPLACE`. -/
def replace (t : Table key) (a : α) : Table key where
  rows := (t.rows.filter fun b => key b ≠ key a) ++ [a]
  unique := by
    rw [List.map_append]
    apply List.Nodup.append (t.unique.sublist (List.filter_sublist.map key)) (by simp)
    intro k hk hk'
    obtain ⟨b, hb, rfl⟩ := List.mem_map.mp hk
    have hne : key b ≠ key a := by simpa using (List.mem_filter.mp hb).2
    exact hne (by simpa using hk')

theorem find?_replace (t : Table key) (a : α) (k : κ) :
    (t.replace a).find? k = if key a = k then some a else t.find? k := by
  by_cases hk : key a = k
  · rw [if_pos hk, find?_eq_some_iff]
    exact ⟨by simp [replace], hk⟩
  · rw [if_neg hk]
    apply Option.ext
    intro b
    rw [find?_eq_some_iff, find?_eq_some_iff]
    constructor
    · rintro ⟨hb, rfl⟩
      rcases List.mem_append.mp hb with hb | hb
      · exact ⟨List.mem_of_mem_filter hb, rfl⟩
      · exact absurd (congrArg key (List.mem_singleton.mp hb)).symm hk
    · rintro ⟨hb, rfl⟩
      refine ⟨?_, rfl⟩
      apply List.mem_append_left
      exact List.mem_filter.mpr ⟨hb, by simpa using fun h => hk h.symm⟩

/-- `INSERT OR IGNORE`. -/
def insertIgnore (t : Table key) (a : α) : Table key :=
  if h : key a ∈ t.rows.map key then t
  else ⟨t.rows ++ [a], by
    rw [List.map_append]
    exact t.unique.append (by simp) (by simpa using h)⟩

/-- A row that is its own key is there after its insertion, whether or not it
was ignored. -/
theorem mem_insertIgnore {t : Table (id : κ → κ)} {a b : κ} :
    b ∈ (t.insertIgnore a).rows ↔ b = a ∨ b ∈ t.rows := by
  unfold insertIgnore
  split
  · rename_i h
    rw [List.map_id] at h
    constructor
    · exact Or.inr
    · rintro (rfl | hb)
      · exact h
      · exact hb
  · simp [or_comm]

/-- `UPDATE … WHERE key = k`, which does not touch the key. -/
def update (t : Table key) (k : κ) (f : α → α) (hf : ∀ a, key (f a) = key a) : Table key where
  rows := t.rows.map fun a => if key a = k then f a else a
  unique := by
    have hkeys : key ∘ (fun a => if key a = k then f a else a) = key := by
      funext a
      simp only [Function.comp]
      split
      · exact hf a
      · rfl
    rw [List.map_map, hkeys]
    exact t.unique

theorem find?_update (t : Table key) (k l : κ) (f : α → α) (hf : ∀ a, key (f a) = key a) :
    (t.update k f hf).find? l = if l = k then (t.find? l).map f else t.find? l := by
  have hkey (a : α) : key (if key a = k then f a else a) = key a := by
    split
    · exact hf a
    · rfl
  simp only [find?, update, List.find?_map, Function.comp_def, hkey]
  cases hfind : t.rows.find? fun a => key a = l with
  | none => simp
  | some a =>
      have ha : key a = l := by simpa using List.find?_some hfind
      by_cases hl : l = k
      · simp [hl, ha]
      · simp [hl, ha]

end Table
