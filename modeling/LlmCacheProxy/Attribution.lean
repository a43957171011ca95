import LlmCacheProxy.Stripping

/-!
# Fields at any depth

Attribution fields are to be stripped wherever they stand. Stripping follows the
members of objects and stops at arrays, while sorting follows both, so a field
inside an element of an array is hashed.
-/

namespace LlmCacheProxy

open Json hiding Equiv

/-- A step from a value to one inside it. -/
inductive JsonStep where
  | member (name : Text)
  | elem (index : Nat)
  deriving DecidableEq

/-- `w` is `v` but for the member `k` of the object at `path`, which was `old`
and is `new`, with `none` for an absent one. -/
inductive Edit (k : Text) : List JsonStep → Option Json → Option Json → Json → Json → Prop
  | here {ms ns : List (Text × Json)} (hsame : ∀ l ≠ k, lookup l ms = lookup l ns) :
      Edit k [] (lookup k ms) (lookup k ns) (.object ms) (.object ns)
  | member {name : Text} {path : List JsonStep} {old new : Option Json} {v w : Json}
      {ms ns : List (Text × Json)} (hv : lookup name ms = some v) (hw : lookup name ns = some w)
      (hsame : ∀ l ≠ name, lookup l ms = lookup l ns) (tail : Edit k path old new v w) :
      Edit k (.member name :: path) old new (.object ms) (.object ns)
  | elem {before after : List Json} {path : List JsonStep} {old new : Option Json} {v w : Json}
      (tail : Edit k path old new v w) :
      Edit k (.elem before.length :: path) old new (.array (before ++ v :: after))
        (.array (before ++ w :: after))

/-- A path leads through objects alone, at least up to a stripped member. -/
def throughObjects (fields : List Text) : List JsonStep → Bool
  | [] => true
  | .member name :: path => fields.contains name || throughObjects fields path
  | .elem _ :: _ => false

/-! ### One place of difference -/

/-- Objects that differ under one name at most are equal when the values of that
name are. -/
theorem equiv_object_at {name : Text} {ms ns : List (Text × Json)}
    (hms : (Json.object ms).WellFormed) (hns : (Json.object ns).WellFormed)
    (hsame : ∀ l ≠ name, lookup l ms = lookup l ns) :
    Json.Equiv (.object ms) (.object ns) ↔
      Option.Rel Json.Equiv (lookup name ms) (lookup name ns) := by
  rw [equiv_object_iff hms.of_object.1 hns.of_object.1]
  constructor
  · exact fun h => h name
  · intro h l
    by_cases hl : l = name
    · exact hl ▸ h
    · rw [hsame l hl]
      cases hv : lookup l ns with
      | none => exact .none
      | some v => exact .some (.refl (hns.of_object.2 _ (mem_of_lookup hv)))

/-- Arrays that differ in one element at most are equal when that element is. -/
theorem equiv_array_at {before after : List Json} {v w : Json}
    (hwf : (Json.array (before ++ v :: after)).WellFormed) :
    Json.Equiv (.array (before ++ v :: after)) (.array (before ++ w :: after)) ↔
      Json.Equiv v w := by
  have hrefl : ∀ j ∈ before ++ v :: after, Json.Equiv j j := fun j hj => .refl (hwf.of_array j hj)
  rw [Json.Equiv, equivElems_iff]
  clear hwf
  induction before with
  | nil =>
      rw [List.nil_append, List.nil_append, List.forall₂_cons]
      refine ⟨fun hvw => hvw.1, fun hvw => ⟨hvw, ?_⟩⟩
      exact List.forall₂_same.mpr fun j hj => hrefl j (List.mem_cons_of_mem _ hj)
  | cons j before ih =>
      have hrest := ih fun i hi => hrefl i (List.mem_cons_of_mem _ hi)
      rw [List.cons_append, List.cons_append, List.forall₂_cons]
      exact ⟨fun hvw => hrest.mp hvw.2, fun hvw => ⟨hrefl j (List.mem_cons_self ..), hrest.mpr hvw⟩⟩

section Edits

variable {fields : List Text} {k : Text} {path : List JsonStep} {old new : Option Json} {v w : Json}

/-- An edit that changes something changes the value. -/
theorem Edit.equiv_iff (h : Edit k path old new v w) (hv : v.WellFormed) (hw : w.WellFormed) :
    Json.Equiv v w ↔ Option.Rel Json.Equiv old new := by
  induction h with
  | here hsame => exact equiv_object_at hv hw hsame
  | member hlv hlw hsame _ ih =>
      rw [equiv_object_at hv hw hsame, hlv, hlw, Option.rel_some_some]
      exact ih (hv.of_object.2 _ (mem_of_lookup hlv)) (hw.of_object.2 _ (mem_of_lookup hlw))
  | elem _ ih =>
      rw [equiv_array_at hv]
      exact ih (hv.of_array _ (by simp)) (hw.of_array _ (by simp))

private theorem lookup_stripMembers_congr {name : Text} {ms ns : List (Text × Json)}
    (hsame : ∀ l ≠ name, lookup l ms = lookup l ns) :
    ∀ l ≠ name, lookup l (stripMembers fields ms) = lookup l (stripMembers fields ns) := by
  intro l hl
  rw [lookup_stripMembers, lookup_stripMembers, hsame l hl]

/-- What is stripped hides an edit that objects alone lead to, and no other one. -/
theorem Edit.equiv_stripFields_iff (hk : k ∈ fields) (h : Edit k path old new v w)
    (hv : v.WellFormed) (hw : w.WellFormed) :
    Json.Equiv (stripFields fields v) (stripFields fields w) ↔
      throughObjects fields path = true ∨ Option.Rel Json.Equiv old new := by
  induction h with
  | here hsame =>
      have hsv := wellFormed_stripFields fields hv
      have hsw := wellFormed_stripFields fields hw
      rw [stripFields] at hsv hsw
      rw [stripFields, stripFields, equiv_object_at hsv hsw (lookup_stripMembers_congr hsame),
        lookup_stripMembers, lookup_stripMembers, if_pos hk, if_pos hk]
      exact ⟨fun _ => Or.inl rfl, fun _ => .none⟩
  | @member name path _ _ v w ms ns hlv hlw hsame _ ih =>
      have hsv := wellFormed_stripFields fields hv
      have hsw := wellFormed_stripFields fields hw
      rw [stripFields] at hsv hsw
      rw [stripFields, stripFields, equiv_object_at hsv hsw (lookup_stripMembers_congr hsame),
        lookup_stripMembers, lookup_stripMembers]
      by_cases hname : name ∈ fields
      · rw [if_pos hname, if_pos hname, throughObjects, List.contains_iff_mem.mpr hname,
          Bool.true_or]
        exact ⟨fun _ => Or.inl rfl, fun _ => .none⟩
      · have hnot : fields.contains name = false := by simpa using hname
        rw [if_neg hname, if_neg hname, hlv, hlw, Option.map_some, Option.map_some,
          Option.rel_some_some, throughObjects, hnot, Bool.false_or]
        exact ih (hv.of_object.2 _ (mem_of_lookup hlv)) (hw.of_object.2 _ (mem_of_lookup hlw))
  | elem tail _ =>
      have harray (elems : List Json) : stripFields fields (.array elems) = .array elems := rfl
      rw [harray, harray, equiv_array_at hv,
        tail.equiv_iff (hv.of_array _ (by simp)) (hw.of_array _ (by simp)), throughObjects]
      exact ⟨Or.inr, fun h => h.resolve_left Bool.false_ne_true⟩

end Edits

/-- A member `metadata` or `stream` is no part of the normal form exactly when
objects alone lead to it; otherwise the normal form changes with it. -/
theorem normalizeBody_edit_iff {c : Serde} (hc : Canonical c) {k : Text}
    (hk : k = "metadata" ∨ k = "stream") {path : List JsonStep} {old new : Option Json}
    {x y : Bytes} {v w : Json} (hx : c.parse x = some v) (hy : c.parse y = some w)
    (h : Edit k path old new v w) :
    normalizeBody c .anthropic x = normalizeBody c .anthropic y ↔
      throughObjects ["stream", "metadata"] path = true ∨ Option.Rel Json.Equiv old new := by
  have hmem : k ∈ strippedNames .anthropic := by
    rcases hk with rfl | rfl <;> decide
  rw [normalizeBody_eq_iff_equiv hc .anthropic hx hy, stripped_eq, stripped_eq,
    h.equiv_stripFields_iff hmem (hc.wellFormed hx) (hc.wellFormed hy)]
  rfl

/-! ### Two requests of one user -/

def userId (id : Text) : Json := .object [("user_id", .string id)]

/-- A message, with attribution inside the message or without it. -/
def messageRequest (metadata : List (Text × Json)) : Json :=
  .object [("messages", .array [.object (("role", .string "user") :: metadata)])]

/-- A request with attribution inside a member of it, or without it. -/
def configRequest (metadata : List (Text × Json)) : Json :=
  .object [("tool_choice", .object (("type", .string "auto") :: metadata))]

def attributed : List (Text × Json) := [("metadata", userId "u1")]

def attributionSerde : Serde :=
  serdeFor [messageRequest [], messageRequest attributed, configRequest [],
    configRequest attributed]

private theorem attributionSerde_canonical : Canonical attributionSerde := by
  have hone (k : Text) (v : Json) (hv : v.WellFormed) : (Json.object [(k, v)]).WellFormed :=
    .object (by simp) (by simpa using hv)
  have hid : (userId "u1").WellFormed := hone _ _ (.string _)
  have hinner (k s : Text) (hk : k ≠ "metadata") (metadata : List (Text × Json))
      (h : metadata = [] ∨ metadata = attributed) :
      (Json.object ((k, .string s) :: metadata)).WellFormed := by
    rcases h with rfl | rfl
    · exact hone _ _ (.string _)
    · exact .object (by simpa [attributed] using hk) (by simp [attributed, WellFormed.string, hid])
  apply serdeFor_canonical
  simp only [List.forall_mem_cons, List.not_mem_nil, false_implies, implies_true, and_true]
  have hmessage {metadata : List (Text × Json)} (h : metadata = [] ∨ metadata = attributed) :
      (messageRequest metadata).WellFormed :=
    hone _ _ (.array (by simpa using hinner "role" "user" (by decide) metadata h))
  have hconfig {metadata : List (Text × Json)} (h : metadata = [] ∨ metadata = attributed) :
      (configRequest metadata).WellFormed := hone _ _ (hinner "type" "auto" (by decide) metadata h)
  exact ⟨hmessage (.inl rfl), hmessage (.inr rfl), hconfig (.inl rfl), hconfig (.inr rfl)⟩

private theorem edit_attributed (k s : Text) (hk : k ≠ "metadata") :
    Edit "metadata" [] none (some (userId "u1")) (.object [(k, .string s)])
      (.object ((k, .string s) :: attributed)) := by
  have hms : lookup "metadata" [(k, .string s)] = none := by simp [lookup, hk.symm]
  have hns : lookup "metadata" ((k, .string s) :: attributed) = some (userId "u1") := by
    simp [lookup, attributed, hk.symm]
  rw [← hms, ← hns]
  refine .here fun l hl => ?_
  simp [lookup, attributed, hl]

/-- Inside an object attribution is no part of the normal form. -/
theorem normalizeBody_edit_object :
    normalizeBody attributionSerde .anthropic (configRequest []).compact.bytes =
      normalizeBody attributionSerde .anthropic (configRequest attributed).compact.bytes := by
  have hedit : Edit "metadata" [.member "tool_choice"] none (some (userId "u1"))
      (configRequest []) (configRequest attributed) :=
    .member rfl rfl (fun l hl => by simp [lookup, hl]) (edit_attributed _ _ (by decide))
  exact (normalizeBody_edit_iff attributionSerde_canonical (Or.inl rfl)
    (serdeFor_parse (by simp)) (serdeFor_parse (by simp)) hedit).mpr (Or.inl (by decide))

/-- Inside a message, which is an element of an array, it is. -/
theorem metadata_hashed :
    Edit "metadata" [.member "messages", .elem 0] none (some (userId "u1")) (messageRequest [])
      (messageRequest attributed) ∧
    attributionSerde.parse (messageRequest []).compact.bytes = some (messageRequest []) ∧
    attributionSerde.parse (messageRequest attributed).compact.bytes =
      some (messageRequest attributed) ∧
    normalizeBody attributionSerde .anthropic (messageRequest []).compact.bytes ≠
      normalizeBody attributionSerde .anthropic (messageRequest attributed).compact.bytes := by
  have hx : attributionSerde.parse (messageRequest []).compact.bytes = some (messageRequest []) :=
    serdeFor_parse (by simp)
  have hy : attributionSerde.parse (messageRequest attributed).compact.bytes =
      some (messageRequest attributed) := serdeFor_parse (by simp)
  refine ⟨?_, hx, hy, ?_⟩
  · refine .member rfl rfl (fun l hl => by simp [lookup, hl]) ?_
    exact @Edit.elem _ [] [] _ _ _ _ _ (edit_attributed _ _ (by decide))
  · rw [ne_eq, normalizeBody_eq_iff_equiv attributionSerde_canonical .anthropic hx hy]
    intro h
    obtain ⟨-, ⟨w, hw, heq⟩, -⟩ := h
    obtain rfl := Option.some.inj hw
    cases heq.1.1

end LlmCacheProxy
