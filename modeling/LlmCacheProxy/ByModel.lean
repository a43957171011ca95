import LlmCacheProxy.CacheRefinement
import Mathlib.Algebra.BigOperators.Group.List.Lemmas
import Mathlib.Data.List.ReduceOption

/-!
# Entries by model

The entries are counted for each model, and the count of the entries without one
goes under a name that a model can have too. The map keeps one of two counts
under one name.
-/

namespace LlmCacheProxy

namespace Cache

/-- The entries with a model, or with none. -/
def countOf (rows : List EntryRow) (m : Option Text) : Nat := rows.countP fun row => row.model = m

/-! ### The groups -/

instance : Std.Total fun a b => modelLe a b = true where
  total a b := by
    cases a with
    | none => exact Or.inl rfl
    | some x =>
        cases b with
        | none => exact Or.inr rfl
        | some y => simpa [modelLe] using le_total x y

instance : IsTrans (Option Text) fun a b => modelLe a b = true where
  trans a b c hab hbc := by
    cases a with
    | none => rfl
    | some x =>
        cases b with
        | none => cases hab
        | some y =>
            cases c with
            | none => cases hbc
            | some z =>
                simp only [modelLe, decide_eq_true_eq] at hab hbc ⊢
                exact hab.trans hbc

/-- The models of the rows, each once, `NULL` first. -/
def models (rows : List EntryRow) : List (Option Text) :=
  (rows.map EntryRow.model).dedup.insertionSort fun a b => modelLe a b = true

variable {rows : List EntryRow} {m : Text}

theorem perm_models (rows : List EntryRow) :
    (models rows).Perm (rows.map EntryRow.model).dedup := List.perm_insertionSort _ _

theorem mem_models {m : Option Text} : m ∈ models rows ↔ ∃ row ∈ rows, row.model = m := by
  rw [(perm_models rows).mem_iff, List.mem_dedup, List.mem_map]

theorem nodup_models (rows : List EntryRow) : (models rows).Nodup :=
  (perm_models rows).nodup_iff.mpr (List.nodup_dedup _)

/-- The models that are names. -/
def names (rows : List EntryRow) : List Text := (models rows).reduceOption

theorem mem_names : m ∈ names rows ↔ ∃ row ∈ rows, row.model = some m := by
  rw [names, List.reduceOption_mem_iff, mem_models]

private theorem map_some_reduceOption {l : List (Option Text)} (h : none ∉ l) :
    l.reduceOption.map some = l := by
  induction l with
  | nil => rfl
  | cons m l ih =>
      rw [List.mem_cons, not_or] at h
      obtain ⟨x, rfl⟩ := Option.ne_none_iff_exists'.mp (Ne.symm h.1)
      rw [List.reduceOption_cons_of_some, List.map_cons, ih h.2]

/-- The group of the rows without a model is the first one. -/
theorem models_of_none (h : none ∈ models rows) : models rows = none :: (names rows).map some := by
  have hsorted : (models rows).Pairwise fun a b => modelLe a b = true :=
    List.pairwise_insertionSort _ _
  have hnodup := nodup_models rows
  unfold names
  cases hm : models rows with
  | nil => simp [hm] at h
  | cons m l =>
      rw [hm] at h hsorted hnodup
      have hhead : m = none := by
        rcases List.mem_cons.mp h with rfl | hl
        · rfl
        · have hle := (List.pairwise_cons.mp hsorted).1 none hl
          cases m with
          | none => rfl
          | some x => cases hle
      subst hhead
      rw [List.reduceOption_cons_of_none, map_some_reduceOption (List.nodup_cons.mp hnodup).1]

theorem models_of_not_none (h : none ∉ models rows) : models rows = (names rows).map some :=
  (map_some_reduceOption h).symm

theorem nodup_names (rows : List EntryRow) : (names rows).Nodup := by
  apply (nodup_models rows).filterMap
  intro a b x ha hb
  rw [Option.mem_def] at ha hb
  exact ha.trans hb.symm

/-- Every row is in one group. -/
theorem sum_countOf (rows : List EntryRow) :
    ((models rows).map (countOf rows)).sum = rows.length := by
  have hlength := List.sum_map_count_dedup_eq_length (rows.map EntryRow.model)
  rw [List.length_map] at hlength
  calc
    ((models rows).map (countOf rows)).sum
        = ((rows.map EntryRow.model).dedup.map (countOf rows)).sum :=
      ((perm_models rows).map _).sum_eq
    _ = rows.length := by
      rw [← hlength]
      congr 1
      apply List.map_congr_left
      intro m _
      simp only [countOf, List.count, List.countP_map]
      apply List.countP_congr
      simp

/-! ### The map -/

/-- The groups of the rows with a model. -/
def named (rows : List EntryRow) : List (Text × Nat) :=
  (names rows).map fun m => (m, countOf rows (some m))

theorem map_fst_named (rows : List EntryRow) : (named rows).map Prod.fst = names rows := by
  simp [named, Function.comp_def]

theorem nodup_named (rows : List EntryRow) : ((named rows).map Prod.fst).Nodup :=
  (map_fst_named rows).symm ▸ nodup_names rows

/-- The map before the groups with a name are collected: the count of the rows
without one, if there are any. -/
def unnamed (rows : List EntryRow) : SortedMap Text Nat :=
  if none ∈ models rows then SortedMap.empty.upsert "unknown" 0 fun _ => countOf rows none
  else .empty

theorem byModel_eq (db : Db) :
    (stats db).byModel = (unnamed db.entries.rows).extend (named db.entries.rows) := by
  have hcounts : modelCounts db.entries.rows =
      (models db.entries.rows).map fun m => (m, countOf db.entries.rows m) := rfl
  rw [stats, hcounts, unnamed]
  split
  · rename_i h
    rw [models_of_none h, List.map_cons, List.map_map, List.foldl_cons, SortedMap.extend, named,
      List.foldl_map, List.foldl_map]
    rfl
  · rename_i h
    rw [models_of_not_none h, List.map_map, SortedMap.extend, named, List.foldl_map,
      List.foldl_map]
    rfl

theorem countOf_none_eq_zero_iff : countOf rows none = 0 ↔ none ∉ models rows := by
  rw [countOf, List.countP_eq_zero, mem_models]
  simp

theorem countOf_some_eq_zero_iff : countOf rows (some m) = 0 ↔ m ∉ names rows := by
  rw [countOf, List.countP_eq_zero, mem_names]
  simp

theorem getD_unnamed (rows : List EntryRow) (m : Text) :
    (unnamed rows).getD m 0 = if m = "unknown" then countOf rows none else 0 := by
  unfold unnamed
  split
  · rw [SortedMap.getD_upsert]
    rfl
  · rename_i h
    rw [countOf_none_eq_zero_iff.mpr h, ite_self]
    rfl

theorem total_unnamed (rows : List EntryRow) : (unnamed rows).total = countOf rows none := by
  unfold unnamed
  split
  · rfl
  · rename_i h
    exact (countOf_none_eq_zero_iff.mpr h).symm

/-- The count under a name is that of the entries with this model, if there are
any. -/
theorem getD_byModel (db : Db) (m : Text) :
    (stats db).byModel.getD m 0 =
      if m ∈ names db.entries.rows then countOf db.entries.rows (some m)
      else if m = "unknown" then countOf db.entries.rows none else 0 := by
  rw [byModel_eq]
  split
  · rename_i hm
    have hp : (m, countOf db.entries.rows (some m)) ∈ named db.entries.rows :=
      List.mem_map.mpr ⟨m, hm, rfl⟩
    exact SortedMap.getD_extend_of_mem (nodup_named _) hp
  · rename_i hm
    rw [SortedMap.getD_extend_of_not_mem, getD_unnamed]
    rw [map_fst_named]
    exact hm

private theorem sum_ite_eq {l : List Text} (hn : l.Nodup) (u : Text) (n : Nat) :
    (l.map fun m => if m = u then n else 0).sum = if u ∈ l then n else 0 := by
  induction l with
  | nil => rfl
  | cons m l ih =>
      obtain ⟨hm, hn⟩ := List.nodup_cons.mp hn
      rw [List.map_cons, List.sum_cons, ih hn]
      by_cases hmu : m = u
      · subst hmu
        simp [hm]
      · simp [hmu, Ne.symm hmu]

private theorem sum_named (rows : List EntryRow) :
    ((named rows).map Prod.snd).sum + countOf rows none = rows.length := by
  have hsnd : (named rows).map Prod.snd = ((names rows).map some).map (countOf rows) := by
    simp [named, Function.comp_def]
  rw [hsnd, ← sum_countOf rows]
  by_cases h : none ∈ models rows
  · rw [models_of_none h, List.map_cons, List.sum_cons, Nat.add_comm]
  · rw [models_of_not_none h, countOf_none_eq_zero_iff.mpr h, Nat.add_zero]

/-- What the counts add up to: the entries without a model are lost where one is
called `unknown`. -/
theorem total_byModel (db : Db) :
    (stats db).byModel.total +
        (if Text.ofString "unknown" ∈ names db.entries.rows then countOf db.entries.rows none
          else 0) =
      (stats db).entries := by
  have hentries : (stats db).entries = db.entries.rows.length := rfl
  have hlost : ((named db.entries.rows).map fun p => (unnamed db.entries.rows).getD p.1 0).sum =
      if Text.ofString "unknown" ∈ names db.entries.rows then countOf db.entries.rows none
        else 0 := by
    simp only [getD_unnamed, named, List.map_map, Function.comp_def]
    exact sum_ite_eq (nodup_names _) _ _
  have hextend := SortedMap.total_extend (m := unnamed db.entries.rows)
    (nodup_named db.entries.rows)
  rw [← byModel_eq, hlost, total_unnamed] at hextend
  rw [hextend, hentries, ← sum_named, Nat.add_comm]

/-! ### A partition of the entries -/

/-- The counts are a partition of the entries by model, for the models that
have been stored. -/
structure Partitions (stored : List Text) (db : Db) : Prop where
  total : (stats db).byModel.total = (stats db).entries
  counts : ∀ m ∈ stored, (stats db).byModel.getD m 0 = countOf db.entries.rows (some m)
  /-- The entries without a model have a name of their own. -/
  apart : 0 < countOf db.entries.rows none →
    ∃ name, name ∉ stored ∧ (stats db).byModel.getD name 0 = countOf db.entries.rows none

/-- Where `unknown` has been stored, the entries without a model spoil it. -/
theorem partitions_iff {stored : List Text} {db : Db}
    (hstored : ∀ m ∈ names db.entries.rows, m ∈ stored) :
    Partitions stored db ↔
      (∀ row ∈ db.entries.rows, row.model ≠ none) ∨ Text.ofString "unknown" ∉ stored := by
  have hnone : (∀ row ∈ db.entries.rows, row.model ≠ none) ↔ countOf db.entries.rows none = 0 := by
    rw [countOf_none_eq_zero_iff, mem_models]
    simp
  have htotal := total_byModel db
  rw [hnone]
  constructor
  · intro h
    by_contra hnot
    rw [not_or, not_not] at hnot
    obtain ⟨hpos, hmem⟩ := hnot
    have hcount := h.counts _ hmem
    rw [getD_byModel] at hcount
    by_cases hname : Text.ofString "unknown" ∈ names db.entries.rows
    · rw [if_pos hname, h.total] at htotal
      omega
    · rw [if_neg hname, if_pos rfl, countOf_some_eq_zero_iff.mpr hname] at hcount
      exact hpos hcount
  · intro h
    have hfree : Text.ofString "unknown" ∈ names db.entries.rows →
        countOf db.entries.rows none = 0 := fun hname =>
      h.resolve_right (not_not.mpr (hstored _ hname))
    constructor
    · split at htotal
      · rename_i hname
        rwa [hfree hname] at htotal
      · exact htotal
    · intro m hm
      rw [getD_byModel]
      split
      · rfl
      · rename_i hname
        rw [countOf_some_eq_zero_iff.mpr hname]
        split
        · rename_i hunknown
          exact h.resolve_right (not_not.mpr (hunknown ▸ hm))
        · rfl
    · intro hpos
      have hunstored := h.resolve_left hpos.ne'
      refine ⟨"unknown", hunstored, ?_⟩
      rw [getD_byModel, if_neg fun hname => hunstored (hstored _ hname), if_pos rfl]

/-! ### Runs -/

/-- The models of the puts so far. -/
def storedModels (hist : List (Int × Op)) : List Text :=
  hist.filterMap fun call =>
    match call.2 with
    | .put _ _ model _ => model
    | _ => none

theorem mem_storedModels_cons {call : Int × Op} {hist : List (Int × Op)}
    (h : m ∈ storedModels hist) : m ∈ storedModels (call :: hist) := by
  rw [storedModels, List.filterMap_cons]
  split
  · exact h
  · exact List.mem_cons_of_mem _ h

/-- The model of every row was stored by a put. -/
theorem mem_storedModels (c : Cache) (hist : List (Int × Op)) {row : EntryRow}
    (hrow : row ∈ (c.after hist).entries.rows) (hm : row.model = some m) :
    m ∈ storedModels hist := by
  induction hist generalizing row with
  | nil => cases hrow
  | cons call earlier ih =>
      obtain ⟨now, op⟩ := call
      rcases mem_rows_exec hrow with ⟨old, hold, hsame, -⟩ | ⟨key, p, model, e, rfl, rfl⟩
      · have hmodel : old.model = row.model := by rcases hsame with rfl | rfl <;> rfl
        exact mem_storedModels_cons (ih hold (hmodel.trans hm))
      · obtain rfl : model = some m := hm
        exact List.mem_cons_self ..

/-- After any calls, the counts by model are a partition of the entries exactly
when every entry has a model, or none was ever called `unknown`. -/
theorem byModel_partitions_iff (c : Cache) (hist : List (Int × Op)) :
    Partitions (storedModels hist) (c.after hist) ↔
      (∀ row ∈ (c.after hist).entries.rows, row.model ≠ none) ∨
        Text.ofString "unknown" ∉ storedModels hist := by
  apply partitions_iff
  intro m hm
  obtain ⟨row, hrow, hmodel⟩ := mem_names.mp hm
  exact mem_storedModels c hist hrow hmodel

/-- A request without a model and one for a model called `unknown`. -/
def unknownCalls : List (Int × Op) :=
  [(1, .put "b" "openai" (some "unknown") sampleExchange),
   (0, .put "a" "openai" none sampleExchange)]

private theorem models_unknownCalls :
    ((⟨sampleCrates, 0⟩ : Cache).after unknownCalls).entries.rows.map EntryRow.model =
      [none, some (Text.ofString "unknown")] := rfl

/-- Of the two entries one is counted. -/
theorem unknown_not_partitioned :
    (stats ((⟨sampleCrates, 0⟩ : Cache).after unknownCalls)).entries = 2 ∧
      (stats ((⟨sampleCrates, 0⟩ : Cache).after unknownCalls)).byModel.total = 1 ∧
      ¬ Partitions (storedModels unknownCalls)
        ((⟨sampleCrates, 0⟩ : Cache).after unknownCalls) := by
  have hlost := total_byModel ((⟨sampleCrates, 0⟩ : Cache).after unknownCalls)
  have hentries : (stats ((⟨sampleCrates, 0⟩ : Cache).after unknownCalls)).entries = 2 := rfl
  have hnone : countOf ((⟨sampleCrates, 0⟩ : Cache).after unknownCalls).entries.rows none = 1 := rfl
  have hunknown : Text.ofString "unknown" ∈
      names ((⟨sampleCrates, 0⟩ : Cache).after unknownCalls).entries.rows := by
    rw [names, List.reduceOption_mem_iff, (perm_models _).mem_iff, models_unknownCalls]
    decide
  rw [if_pos hunknown, hnone, hentries] at hlost
  have htotal := Nat.succ.inj hlost
  refine ⟨hentries, htotal, fun h => ?_⟩
  have hsame := h.total
  omega

end Cache

end LlmCacheProxy
