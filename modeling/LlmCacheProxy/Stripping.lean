import LlmCacheProxy.Hash

/-!
# What stripping merges

The fields to strip are fields of the request, but they are looked for in every
object that is reached through objects. Two bodies are told apart exactly when
they differ in a place that no name on the list leads to.
-/

namespace LlmCacheProxy

open Json hiding Equiv

/-- All the names that are stripped for a provider. -/
def strippedNames (p : Provider) : List Text := "stream" :: p.normalizationStripFields

/-- Take the fields from the request itself and from nothing inside it. -/
def stripTop (fields : List Text) : Json → Json
  | .object members => .object (members.filter fun p => !fields.contains p.1)
  | value => value

/-- Objects can be compared member by member. -/
def comparable : Json → Json → Bool
  | .object _, .object _ => true
  | _, _ => false

/-- Two values differ in a place that is reached through objects alone, under
names that are not on the list. -/
inductive Differ (fields : List Text) : Json → Json → Prop
  | here {v w : Json} (h : comparable v w = false) (hne : ¬ Json.Equiv v w) : Differ fields v w
  | missing {ms ns : List (Text × Json)} {k : Text} (hk : k ∉ fields)
      (h : (lookup k ms).isSome ≠ (lookup k ns).isSome) : Differ fields (.object ms) (.object ns)
  | member {ms ns : List (Text × Json)} {k : Text} {v w : Json} (hk : k ∉ fields)
      (hv : lookup k ms = some v) (hw : lookup k ns = some w) (tail : Differ fields v w) :
      Differ fields (.object ms) (.object ns)

/-! ### Two passes are one -/

/-- Stripping twice strips the names of both lists. -/
theorem stripFields_stripFields (fs gs : List Text) (a : Json) :
    stripFields gs (stripFields fs a) = stripFields (fs ++ gs) a := by
  induction a using Json.inductOn with
  | null | bool | number | string | array => rfl
  | object members ih =>
      simp only [stripFields]
      congr 1
      induction members with
      | nil => rfl
      | cons p rest ihr =>
          have ihr := ihr fun q hq => ih q (by simp [hq])
          have hp := ih p (by simp)
          by_cases hf : p.1 ∈ fs
          · simpa [stripMembers, hf] using ihr
          · by_cases hg : p.1 ∈ gs
            · simpa [stripMembers, hf, hg] using ihr
            · simp [stripMembers, hf, hg, ihr, hp]

theorem stripped_eq (p : Provider) (a : Json) : stripped p a = stripFields (strippedNames p) a := by
  rw [stripped, stripFields_stripFields, strippedNames, List.singleton_append]

/-! ### Differences that survive -/

variable {fields : List Text}

private theorem stripFields_of_not_comparable {v w : Json} (h : comparable v w = false) :
    Json.Equiv (stripFields fields v) (stripFields fields w) ↔ Json.Equiv v w := by
  cases v <;> cases w <;> first | rfl | cases h

/-- Stripped objects are equal when the values of every kept name are. -/
private theorem equiv_stripFields_object_iff {ms ns : List (Text × Json)}
    (hms : (Json.object ms).WellFormed) (hns : (Json.object ns).WellFormed) :
    Json.Equiv (stripFields fields (.object ms)) (stripFields fields (.object ns)) ↔
      ∀ k, k ∉ fields → Option.Rel Json.Equiv ((lookup k ms).map (stripFields fields))
        ((lookup k ns).map (stripFields fields)) := by
  have hsm := wellFormed_stripFields fields hms
  have hsn := wellFormed_stripFields fields hns
  rw [stripFields] at hsm hsn
  rw [stripFields, stripFields, equiv_object_iff hsm.of_object.1 hsn.of_object.1]
  apply forall_congr'
  intro k
  rw [lookup_stripMembers, lookup_stripMembers]
  by_cases hk : k ∈ fields
  · rw [if_pos hk, if_pos hk]
    exact ⟨fun _ hnot => absurd hk hnot, fun _ => Option.Rel.none⟩
  · rw [if_neg hk, if_neg hk]
    exact ⟨fun h _ => h, fun h => h hk⟩

theorem Differ.not_equiv {v w : Json} (h : Differ fields v w) (hv : v.WellFormed)
    (hw : w.WellFormed) :
    ¬ Json.Equiv (stripFields fields v) (stripFields fields w) := by
  induction h with
  | here h hne => exact fun heq => hne ((stripFields_of_not_comparable h).mp heq)
  | @missing ms ns k hk h =>
      rw [equiv_stripFields_object_iff hv hw]
      intro hrel
      have hrel := hrel k hk
      cases hms : lookup k ms <;> cases hns : lookup k ns <;> simp_all
  | @member ms ns k v w hk hms hns tail ih =>
      rw [equiv_stripFields_object_iff hv hw]
      intro hrel
      have hrel := hrel k hk
      rw [hms, hns] at hrel
      cases hrel with
      | some heq =>
          exact ih (hv.of_object.2 _ (mem_of_lookup hms)) (hw.of_object.2 _ (mem_of_lookup hns)) heq

theorem differ_of_not_equiv {v w : Json} (hv : v.WellFormed) (hw : w.WellFormed)
    (h : ¬ Json.Equiv (stripFields fields v) (stripFields fields w)) : Differ fields v w := by
  have hhere {v w : Json} (hc : comparable v w = false)
      (h : ¬ Json.Equiv (stripFields fields v) (stripFields fields w)) : Differ fields v w :=
    .here hc fun heq => h ((stripFields_of_not_comparable hc).mpr heq)
  induction v using Json.inductOn generalizing w with
  | null | bool | number | string | array => exact hhere rfl h
  | object ms ih =>
      cases w with
      | null | bool | number | string | array => exact hhere rfl h
      | object ns =>
          rw [equiv_stripFields_object_iff hv hw] at h
          obtain ⟨k, hrel⟩ := not_forall.mp h
          obtain ⟨hk, hrel⟩ := Classical.not_imp.mp hrel
          cases hms : lookup k ms with
          | none =>
              cases hns : lookup k ns with
              | none =>
                  rw [hms, hns] at hrel
                  exact absurd Option.Rel.none hrel
              | some w => exact .missing hk (by simp [hms, hns])
          | some v =>
              cases hns : lookup k ns with
              | none => exact .missing hk (by simp [hms, hns])
              | some w =>
                  have hmem := mem_of_lookup hms
                  apply Differ.member hk hms hns
                  apply ih _ hmem (hv.of_object.2 _ hmem) (hw.of_object.2 _ (mem_of_lookup hns))
                  intro heq
                  rw [hms, hns] at hrel
                  exact hrel (.some heq)

/-- Stripping keeps two values apart exactly where they differ in a kept place. -/
theorem not_equiv_stripFields_iff {v w : Json} (hv : v.WellFormed) (hw : w.WellFormed) :
    ¬ Json.Equiv (stripFields fields v) (stripFields fields w) ↔ Differ fields v w :=
  ⟨differ_of_not_equiv hv hw, fun h => h.not_equiv hv hw⟩

/-- Requests that differ beyond their own stripped fields have different normal
forms exactly when they differ in a kept place. -/
theorem normalizeBody_ne_iff {c : Serde} (hc : Canonical c) (p : Provider) {x y : Bytes}
    {ms ns : List (Text × Json)} (hx : c.parse x = some (.object ms))
    (hy : c.parse y = some (.object ns)) :
    (¬ Json.Equiv (stripTop (strippedNames p) (.object ms))
          (stripTop (strippedNames p) (.object ns)) →
        normalizeBody c p x ≠ normalizeBody c p y) ↔
      Json.Equiv (stripTop (strippedNames p) (.object ms))
          (stripTop (strippedNames p) (.object ns)) ∨
        Differ (strippedNames p) (.object ms) (.object ns) := by
  have hdiffer : normalizeBody c p x ≠ normalizeBody c p y ↔
      Differ (strippedNames p) (.object ms) (.object ns) := by
    rw [← not_equiv_stripFields_iff (hc.wellFormed hx) (hc.wellFormed hy), ← stripped_eq,
      ← stripped_eq]
    exact not_congr (normalizeBody_eq_iff_equiv hc p hx hy)
  rw [hdiffer, or_iff_not_imp_left]

/-! ### Two schemas -/

theorem serdeFor_canonical {values : List Json} (h : ∀ v ∈ values, v.WellFormed) :
    Canonical (serdeFor values) := by
  constructor
  · intro body v hv
    exact h v (List.mem_of_find?_eq_some hv)
  · intro a b _ _ hab
    exact Json.compact_injective hab

/-- A request for an answer with the given properties. -/
def schemaRequest (properties : List (Text × Json)) : Json :=
  .object [("response_format", .object [("properties", .object properties)])]

def textProperty (name : Text) : List (Text × Json) := [(name, .string "string")]

def schemaSerde : Serde :=
  serdeFor [schemaRequest [], schemaRequest (textProperty "user"),
    schemaRequest (textProperty "name")]

private theorem schemaSerde_canonical : Canonical schemaSerde := by
  have hone (ms : List (Text × Json)) (k : Text) (hms : (Json.object ms).WellFormed) :
      (Json.object [(k, .object ms)]).WellFormed := .object (by simp) (by simpa using hms)
  have hproperty (name : Text) : (Json.object (textProperty name)).WellFormed :=
    .object (by simp [textProperty]) (by simp [textProperty, WellFormed.string])
  apply serdeFor_canonical
  simp only [List.forall_mem_cons, List.not_mem_nil, false_implies, implies_true, and_true]
  refine ⟨?_, ?_, ?_⟩
  · exact hone _ _ (hone _ _ (.object (by simp) (by simp)))
  · exact hone _ _ (hone _ _ (hproperty "user"))
  · exact hone _ _ (hone _ _ (hproperty "name"))

private theorem schemaSerde_parse (ms : List (Text × Json))
    (h : ms ∈ [[], textProperty "user", textProperty "name"]) :
    schemaSerde.parse (schemaRequest ms).compact.bytes = some (schemaRequest ms) :=
  serdeFor_parse (List.mem_map_of_mem (f := schemaRequest) h)

/-- Schemas with and without a property are different requests. -/
private theorem schemaRequest_not_equiv (name : Text) :
    ¬ Json.Equiv (stripTop (strippedNames .openAi) (schemaRequest []))
      (stripTop (strippedNames .openAi) (schemaRequest (textProperty name))) := by
  have htop (ms : List (Text × Json)) :
      stripTop (strippedNames .openAi) (schemaRequest ms) = schemaRequest ms := rfl
  have hinner {k : Text} {a b : Json} (h : Json.Equiv (.object [(k, a)]) (.object [(k, b)])) :
      Json.Equiv a b := by
    obtain ⟨-, ⟨w, hw, heq⟩, -⟩ := h
    obtain rfl : b = w := by simpa [lookup] using hw
    exact heq
  rw [htop, htop]
  intro h
  have hlength := (hinner (hinner h)).1
  cases hlength

theorem normalizeBody_ne_schemas :
    normalizeBody schemaSerde .openAi (schemaRequest []).compact.bytes ≠
      normalizeBody schemaSerde .openAi (schemaRequest (textProperty "name")).compact.bytes := by
  have hiff := normalizeBody_ne_iff schemaSerde_canonical .openAi
    (schemaSerde_parse [] (by simp)) (schemaSerde_parse (textProperty "name") (by simp))
  apply hiff.mpr _ (schemaRequest_not_equiv "name")
  right
  apply Differ.member (k := "response_format") (by decide) rfl rfl
  apply Differ.member (k := "properties") (by decide) rfl rfl
  exact Differ.missing (k := "name") (by decide) (by decide)

/-- A property called `user` is lost from the schema, although the requests
still differ without their own `user` fields. -/
theorem normalizeBody_merges_schemas :
    ¬ Json.Equiv (stripTop (strippedNames .openAi) (schemaRequest []))
        (stripTop (strippedNames .openAi) (schemaRequest (textProperty "user"))) ∧
      normalizeBody schemaSerde .openAi (schemaRequest []).compact.bytes =
        normalizeBody schemaSerde .openAi (schemaRequest (textProperty "user")).compact.bytes := by
  constructor
  · exact schemaRequest_not_equiv "user"
  · rw [normalizeBody_of_parse (schemaSerde_parse [] (by simp)),
      normalizeBody_of_parse (schemaSerde_parse (textProperty "user") (by simp))]
    rfl

end LlmCacheProxy
