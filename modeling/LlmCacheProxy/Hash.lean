import LlmCacheProxy.Foundation.JsonCanonical
import LlmCacheProxy.Foundation.JsonText
import LlmCacheProxy.Provider

/-!
# The cache key

The key is the digest of method, path and normalized body. Normalization drops
fields that do not influence the response and sorts the members of every
object. A body that is not JSON is hashed as it is.
-/

namespace LlmCacheProxy

open Json hiding Equiv

/-- `blake3::Hash`. -/
structure Digest where
  bytes : Bytes
  size : bytes.length = 32
  deriving DecidableEq

/-- `Hash::to_hex`. -/
def Digest.toHex (d : Digest) : Text := Text.hex d.bytes

theorem Digest.toHex_injective : Function.Injective Digest.toHex := by
  rintro ⟨xs, _⟩ ⟨ys, _⟩ h
  obtain rfl := Text.hex_injective h
  rfl

theorem Digest.length_toHex (d : Digest) : d.toHex.length = 64 := by
  rw [toHex, Text.length_hex, d.size]

/-- The crates behind the cache key. -/
structure KeyCrates extends Serde where
  blake3 : Bytes → Digest

/-! ### Normalization -/

mutual

/-- `strip_fields`: the fields go from an object and from every object that is
the value of one of its members, but not from the elements of an array. -/
def stripFields (fields : List Text) : Json → Json
  | .object members => .object (stripMembers fields members)
  | value => value

/-- The members that are kept, with their values stripped. -/
def stripMembers (fields : List Text) : List (Text × Json) → List (Text × Json)
  | [] => []
  | (k, v) :: rest =>
      if k ∈ fields then stripMembers fields rest
      else (k, stripFields fields v) :: stripMembers fields rest

end

mutual

/-- `sort_keys`: the sorted pairs are collected into a map again. -/
def sortKeys : Json → Json
  | .object members =>
      ofMembers ((sortValues members).insertionSort fun a b => a.1 ≤ b.1)
  | .array elems => .array (sortElems elems)
  | value => value

def sortElems : List Json → List Json
  | [] => []
  | v :: rest => sortKeys v :: sortElems rest

def sortValues : List (Text × Json) → List (Text × Json)
  | [] => []
  | (k, v) :: rest => (k, sortKeys v) :: sortValues rest

end

/-- What two request bodies must agree on, up to the order of members. -/
def stripped (p : Provider) (value : Json) : Json :=
  stripFields p.normalizationStripFields (stripFields ["stream"] value)

def normalizeBody (c : Serde) (p : Provider) (body : Bytes) : Text :=
  match c.parse body with
  | none => .lossy body
  | some value => c.serialize (sortKeys (stripped p value))

/-! ### The key -/

/-- The bytes fed to the hasher. -/
def hashInput (c : Serde) (p : Provider) (method path : Text) (body : Bytes) : Bytes :=
  method.bytes ++ 0x7C :: (path.bytes ++ 0x7C :: (normalizeBody c p body).bytes)

def cacheKey (c : KeyCrates) (p : Provider) (method path : Text) (body : Bytes) : Text :=
  (c.blake3 (hashInput c.toSerde p method path body)).toHex

/-- The key together with the `model` member of the body. -/
def cacheKeyAndModel (c : KeyCrates) (p : Provider) (method path : Text) (body : Bytes) :
    Text × Option Text :=
  let model := (c.parse body).bind fun v => (v.get "model").bind Json.asStr
  (cacheKey c p method path body, model)

/-! ### Stripping on well-formed values -/

theorem stripMembers_eq (fields : List Text) (members : List (Text × Json)) :
    stripMembers fields members =
      (members.filter fun p => p.1 ∉ fields).map fun p => (p.1, stripFields fields p.2) := by
  induction members with
  | nil => rfl
  | cons p rest ih =>
      by_cases hp : p.1 ∈ fields
      · simpa [stripMembers, hp] using ih
      · simpa [stripMembers, hp] using ih

private theorem names_stripMembers (fields : List Text) (members : List (Text × Json)) :
    (stripMembers fields members).map Prod.fst =
      (members.map Prod.fst).filter fun k => k ∉ fields := by
  rw [stripMembers_eq, List.map_map, List.filter_map]
  rfl

theorem lookup_stripMembers (fields : List Text) (k : Text) (members : List (Text × Json)) :
    lookup k (stripMembers fields members) =
      if k ∈ fields then none else (lookup k members).map (stripFields fields) := by
  induction members with
  | nil => simp [stripMembers, lookup]
  | cons p rest ih =>
      by_cases hp : p.1 ∈ fields
      · by_cases hk : k = p.1
        · rw [stripMembers, if_pos hp, ih, if_pos (hk ▸ hp), if_pos (hk ▸ hp)]
        · simpa [stripMembers, hp, lookup, hk] using ih
      · by_cases hk : k = p.1
        · simp [stripMembers, hp, lookup, hk]
        · simpa [stripMembers, hp, lookup, hk] using ih

theorem wellFormed_stripFields (fields : List Text) {a : Json} (h : a.WellFormed) :
    (stripFields fields a).WellFormed := by
  induction a using Json.inductOn with
  | null | bool | number | string | array => simpa only [stripFields] using h
  | object members ih =>
      obtain ⟨hn, hm⟩ := h.of_object
      rw [stripFields]
      apply WellFormed.object
      · rw [names_stripMembers]
        exact hn.filter _
      · intro p hp
        rw [stripMembers_eq] at hp
        obtain ⟨q, hq, rfl⟩ := List.mem_map.mp hp
        have hq := List.mem_of_mem_filter hq
        exact ih q hq (hm q hq)

/-- The order of members does not matter to what is stripped. -/
theorem equiv_stripFields (fields : List Text) {a b : Json} (ha : a.WellFormed)
    (hb : b.WellFormed) (h : Json.Equiv a b) :
    Json.Equiv (stripFields fields a) (stripFields fields b) := by
  induction a using Json.inductOn generalizing b with
  | null | bool | number | string | array => cases b <;> simp_all [Json.Equiv, stripFields]
  | object ms ih =>
      cases b with
      | object ns =>
          obtain ⟨hms, hwm⟩ := ha.of_object
          obtain ⟨hns, hwn⟩ := hb.of_object
          have hsm := (wellFormed_stripFields fields ha)
          have hsn := (wellFormed_stripFields fields hb)
          rw [stripFields] at hsm hsn
          rw [stripFields, stripFields, equiv_object_iff hsm.of_object.1 hsn.of_object.1]
          rw [equiv_object_iff hms hns] at h
          intro k
          rw [lookup_stripMembers, lookup_stripMembers]
          by_cases hk : k ∈ fields
          · simp only [if_pos hk]
            exact .none
          · simp only [if_neg hk]
            apply rel_map (h k)
            intro v hv w hw hvw
            have hv := mem_of_lookup hv
            exact ih _ hv (hwm _ hv) (hwn _ (mem_of_lookup hw)) hvw
      | null | bool | number | string | array => simp [Json.Equiv] at h

theorem wellFormed_stripped (p : Provider) {a : Json} (h : a.WellFormed) :
    (stripped p a).WellFormed :=
  wellFormed_stripFields _ (wellFormed_stripFields _ h)

theorem equiv_stripped (p : Provider) {a b : Json} (ha : a.WellFormed) (hb : b.WellFormed)
    (h : Json.Equiv a b) : Json.Equiv (stripped p a) (stripped p b) :=
  equiv_stripFields _ (wellFormed_stripFields _ ha) (wellFormed_stripFields _ hb)
    (equiv_stripFields _ ha hb h)

/-! ### Sorting gives the sorted value of the class -/

theorem sortElems_eq (elems : List Json) : sortElems elems = elems.map sortKeys := by
  induction elems with
  | nil => rfl
  | cons v rest ih => simp [sortElems, ih]

theorem sortValues_eq (members : List (Text × Json)) :
    sortValues members = members.map fun p => (p.1, sortKeys p.2) := by
  induction members with
  | nil => rfl
  | cons p rest ih => simp [sortValues, ih]

/-- The pairs of an object after sorting, before they are collected. -/
private theorem sortedPairs_spec {members : List (Text × Json)}
    (hn : (members.map Prod.fst).Nodup) :
    let pairs := (sortValues members).insertionSort fun a b => a.1 ≤ b.1
    (pairs.map Prod.fst).Pairwise (· < ·) ∧ pairs.Perm (sortValues members) := by
  intro pairs
  have hperm : pairs.Perm (sortValues members) := List.perm_insertionSort _ _
  have hnames : (pairs.map Prod.fst).Nodup := by
    apply (hperm.map Prod.fst).nodup_iff.mpr
    rw [sortValues_eq, List.map_map]
    exact hn
  have hle : (pairs.map Prod.fst).Pairwise (· ≤ ·) :=
    List.pairwise_map.mpr (List.pairwise_insertionSort _ _)
  constructor
  · exact (hle.and hnames).imp fun h => lt_of_le_of_ne h.1 h.2
  · exact hperm

/-- The sorted value of an object, without the collection into a map. -/
theorem sortKeys_object {members : List (Text × Json)} (hn : (members.map Prod.fst).Nodup) :
    sortKeys (.object members) =
      .object ((sortValues members).insertionSort fun a b => a.1 ≤ b.1) := by
  rw [sortKeys, ofMembers_of_increasing (sortedPairs_spec hn).1]

theorem sorted_sortKeys {a : Json} (h : a.WellFormed) : Sorted (sortKeys a) := by
  induction a using Json.inductOn with
  | null => exact .null
  | bool b => exact .bool b
  | number n => exact .number n
  | string s => exact .string s
  | array elems ih =>
      rw [sortKeys, sortElems_eq]
      apply Sorted.array
      intro j hj
      obtain ⟨v, hv, rfl⟩ := List.mem_map.mp hj
      exact ih v hv (h.of_array v hv)
  | object members ih =>
      obtain ⟨hn, hm⟩ := h.of_object
      obtain ⟨hlt, hperm⟩ := sortedPairs_spec hn
      rw [sortKeys_object hn]
      apply Sorted.object hlt
      intro p hp
      have hp := hperm.mem_iff.mp hp
      rw [sortValues_eq] at hp
      obtain ⟨q, hq, rfl⟩ := List.mem_map.mp hp
      exact ih q hq (hm q hq)

theorem equiv_sortKeys {a : Json} (h : a.WellFormed) : Json.Equiv a (sortKeys a) := by
  induction a using Json.inductOn with
  | null => trivial
  | bool | number | string => rfl
  | array elems ih =>
      rw [sortKeys, sortElems_eq, Json.Equiv, equivElems_iff, List.forall₂_map_right_iff]
      exact List.forall₂_same.mpr fun v hv => ih v hv (h.of_array v hv)
  | object members ih =>
      obtain ⟨hn, hm⟩ := h.of_object
      obtain ⟨hlt, hperm⟩ := sortedPairs_spec hn
      rw [sortKeys_object hn, Json.Equiv, equivMembers_iff]
      constructor
      · rw [hperm.length_eq, sortValues_eq, List.length_map]
      · intro p hp
        refine ⟨sortKeys p.2, ?_, ih p hp (hm p hp)⟩
        apply (lookup_eq_some_iff (nodup_of_increasing hlt)).mpr
        apply hperm.mem_iff.mpr
        rw [sortValues_eq]
        exact List.mem_map.mpr ⟨p, hp, rfl⟩

/-- Sorting is a canonical form of values with unordered objects. -/
theorem sortKeys_eq_iff {a b : Json} (ha : a.WellFormed) (hb : b.WellFormed) :
    sortKeys a = sortKeys b ↔ Json.Equiv a b := by
  have hsa := sorted_sortKeys ha
  have hsb := sorted_sortKeys hb
  constructor
  · intro h
    have hab : Json.Equiv a (sortKeys b) := h ▸ equiv_sortKeys ha
    exact hab.trans ((equiv_sortKeys hb).symm hb hsb.wellFormed)
  · intro h
    apply hsa.eq_of_equiv hsb
    calc
      Json.Equiv (sortKeys a) a := (equiv_sortKeys ha).symm ha hsa.wellFormed
      Json.Equiv _ b := h
      Json.Equiv _ (sortKeys b) := equiv_sortKeys hb

/-! ### Normal forms of bodies -/

/-- What is relied on: an object has one member for each name, and the text of
a value with sorted members determines it. -/
structure Canonical (c : Serde) : Prop where
  wellFormed : ∀ {body : Bytes} {v : Json}, c.parse body = some v → v.WellFormed
  injective : ∀ {a b : Json}, Sorted a → Sorted b → c.serialize a = c.serialize b → a = b

theorem normalizeBody_of_parse {c : Serde} {body : Bytes} {v : Json}
    (h : c.parse body = some v) (p : Provider) :
    normalizeBody c p body = c.serialize (sortKeys (stripped p v)) := by
  simp only [normalizeBody, h]

theorem normalizeBody_eq_iff_equiv {c : Serde} (hc : Canonical c) (p : Provider) {x y : Bytes}
    {v w : Json} (hx : c.parse x = some v) (hy : c.parse y = some w) :
    normalizeBody c p x = normalizeBody c p y ↔ Json.Equiv (stripped p v) (stripped p w) := by
  have hv := wellFormed_stripped p (hc.wellFormed hx)
  have hw := wellFormed_stripped p (hc.wellFormed hy)
  rw [normalizeBody_of_parse hx, normalizeBody_of_parse hy, ← sortKeys_eq_iff hv hw]
  constructor
  · exact hc.injective (sorted_sortKeys hv) (sorted_sortKeys hw)
  · exact congrArg c.serialize

/-- For one method and path, the hashed bytes differ only in the body. -/
theorem hashInput_eq_iff (c : Serde) (p : Provider) (method path : Text) (x y : Bytes) :
    hashInput c p method path x = hashInput c p method path y ↔
      normalizeBody c p x = normalizeBody c p y := by
  simp only [hashInput, List.append_cancel_left_eq, List.cons.injEq, true_and]
  exact ⟨Text.ext, congrArg Text.bytes⟩

/-- Normalization is a canonical form: two JSON bodies are hashed alike exactly
when their stripped values are equal up to the order of members. -/
theorem normalizeBody_canonical {c : Serde} (hc : Canonical c) (p : Provider) {x y : Bytes}
    {v w : Json} (hx : c.parse x = some v) (hy : c.parse y = some w) :
    (normalizeBody c p x = normalizeBody c p y ↔ Json.Equiv (stripped p v) (stripped p w)) ∧
      (Json.Equiv v w → ∀ (blake3 : Bytes → Digest) (method path : Text),
        cacheKey ⟨c, blake3⟩ p method path x = cacheKey ⟨c, blake3⟩ p method path y) ∧
      (¬ Json.Equiv (stripped p v) (stripped p w) → ∀ method path : Text,
        hashInput c p method path x ≠ hashInput c p method path y) := by
  have hiff := normalizeBody_eq_iff_equiv hc p hx hy
  refine ⟨hiff, ?_, ?_⟩
  · intro hvw blake3 method path
    have hsame := equiv_stripped p (hc.wellFormed hx) (hc.wellFormed hy) hvw
    have hinput := (hashInput_eq_iff c p method path x y).mpr (hiff.mpr hsame)
    simp only [cacheKey, hinput]
  · intro hdiff method path hinput
    exact hdiff (hiff.mp ((hashInput_eq_iff c p method path x y).mp hinput))

/-! ### A sample -/

/-- A body with a field that is stripped, and the value it parses to. -/
def sampleBody : Bytes :=
  (Text.ofString "\x7b\"stream\":true,\"b\":[\x7b\"d\":1,\"c\":2\x7d],\"a\":0\x7d").bytes

def sampleInner : Json :=
  .object [("c", .number (.ofU64 2)), ("d", .number (.ofU64 1))]

def sampleValue : Json :=
  .object [("a", .number (.ofU64 0)), ("b", .array [sampleInner]), ("stream", .bool true)]

/-- The same request without the field, in another order. -/
def reorderedBody : Bytes :=
  (Text.ofString "\x7b\"a\":0,\"b\":[\x7b\"c\":2,\"d\":1\x7d]\x7d").bytes

def reorderedValue : Json := .object [("a", .number (.ofU64 0)), ("b", .array [sampleInner])]

/-- `serde_json` on the two bodies. -/
def sampleSerde : Serde where
  parse body :=
    if body = sampleBody then some sampleValue
    else if body = reorderedBody then some reorderedValue
    else none
  serialize := Json.compact

private theorem wellFormed_number (n : UInt64) : (Json.number (.ofU64 n)).WellFormed := .number _

theorem sampleSerde_canonical : Canonical sampleSerde := by
  have hinner : sampleInner.WellFormed :=
    .object (by decide) (by simp [wellFormed_number])
  have harray : (Json.array [sampleInner]).WellFormed := .array (by simp [hinner])
  constructor
  · intro body v h
    simp only [sampleSerde] at h
    split at h
    · obtain rfl := Option.some.inj h
      exact .object (by decide) (by simp [wellFormed_number, harray, WellFormed.bool])
    split at h
    · obtain rfl := Option.some.inj h
      exact .object (by decide) (by simp [wellFormed_number, harray])
    · cases h
  · intro a b _ _ h
    exact Json.compact_injective h

theorem normalizeBody_canonical_reordered :
    normalizeBody sampleSerde .anthropic sampleBody =
      normalizeBody sampleSerde .anthropic reorderedBody := by
  have hne : reorderedBody ≠ sampleBody := by decide
  have hx : sampleSerde.parse sampleBody = some sampleValue := by simp [sampleSerde]
  have hy : sampleSerde.parse reorderedBody = some reorderedValue := by simp [sampleSerde, hne]
  apply (normalizeBody_canonical sampleSerde_canonical .anthropic hx hy).1.mpr
  have hv : stripped .anthropic sampleValue = reorderedValue := by rfl
  have hw : stripped .anthropic reorderedValue = reorderedValue := by rfl
  rw [hv, hw]
  exact Json.Equiv.refl (sampleSerde_canonical.wellFormed hy)

end LlmCacheProxy
