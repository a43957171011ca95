import LlmCacheProxy.Foundation.Text
import Mathlib.Algebra.Group.Nat.Defs
import Mathlib.Data.List.Forall2
import Mathlib.Order.Lattice

/-!
# JSON values

Values as `serde_json::Value` holds them: an object is the list of its members
in iteration order, with distinct names in every well-formed value. Equality
that ignores the order of members is `Json.Equiv`.
-/

/-- The bytes a number is printed with. -/
def isNumberByte (b : UInt8) : Bool :=
  (0x30 ≤ b.toNat && b.toNat ≤ 0x39) || b = 0x2B || b = 0x2D || b = 0x2E || b = 0x45 || b = 0x65

/-- A number is known by its printed form. -/
structure JsonNumber where
  repr : Bytes
  nonempty : repr ≠ []
  printed : ∀ b ∈ repr, isNumberByte b = true
  deriving DecidableEq

namespace JsonNumber

@[ext] theorem ext {m n : JsonNumber} (h : m.repr = n.repr) : m = n := by
  cases m
  cases n
  simpa using h

/-- Decimal digits without leading zeros. -/
def decimal (n : Nat) : Bytes :=
  if n < 10 then [UInt8.ofNat (0x30 + n)]
  else decimal (n / 10) ++ [UInt8.ofNat (0x30 + n % 10)]
termination_by n

private theorem toNat_digit {d : Nat} (h : d < 10) : (UInt8.ofNat (0x30 + d)).toNat = 0x30 + d := by
  rw [UInt8.toNat_ofNat']
  omega

private theorem isNumberByte_digit {d : Nat} (h : d < 10) :
    isNumberByte (UInt8.ofNat (0x30 + d)) = true := by
  simp only [isNumberByte, toNat_digit h]
  simp
  omega

private theorem decimal_spec (n : Nat) :
    decimal n ≠ [] ∧ ∀ b ∈ decimal n, isNumberByte b = true := by
  fun_induction decimal n with
  | case1 n h =>
      refine ⟨by simp, fun b hb => ?_⟩
      obtain rfl := List.mem_singleton.mp hb
      exact isNumberByte_digit h
  | case2 n h ih =>
      refine ⟨by simp, fun b hb => ?_⟩
      rcases List.mem_append.mp hb with hb | hb
      · exact ih.2 b hb
      · obtain rfl := List.mem_singleton.mp hb
        exact isNumberByte_digit (Nat.mod_lt _ (by omega))

/-- An unsigned integer. -/
def ofU64 (n : UInt64) : JsonNumber :=
  ⟨decimal n.toNat, (decimal_spec _).1, (decimal_spec _).2⟩

/-- The digits stand for the number they were printed from. -/
theorem foldl_decimal (n : Nat) :
    (decimal n).foldl (fun v d => 10 * v + (d.toNat - 0x30)) 0 = n := by
  fun_induction decimal n with
  | case1 n h =>
      rw [List.foldl_cons, List.foldl_nil, toNat_digit h]
      omega
  | case2 n h ih =>
      rw [List.foldl_append, ih, List.foldl_cons, List.foldl_nil,
        toNat_digit (Nat.mod_lt _ (by omega))]
      omega

theorem ofU64_injective : Function.Injective ofU64 := by
  intro m n h
  apply UInt64.toNat_inj.mp
  have hrepr : decimal m.toNat = decimal n.toNat := congrArg JsonNumber.repr h
  rw [← foldl_decimal m.toNat, hrepr, foldl_decimal]

/-- `Number::as_u64`: integers are printed with digits alone, floats are not. -/
def asU64 (n : JsonNumber) : Option UInt64 :=
  if n.repr.all fun d => 0x30 ≤ d.toNat && d.toNat ≤ 0x39 then
    let v := n.repr.foldl (fun v d => 10 * v + (d.toNat - 0x30)) 0
    if v < 2 ^ 64 then some (UInt64.ofNat v) else none
  else none

theorem digits_decimal (n : Nat) :
    ∀ d ∈ decimal n, 0x30 ≤ d.toNat ∧ d.toNat ≤ 0x39 := by
  have hdigit {d : Nat} (h : d < 10) :
      0x30 ≤ (UInt8.ofNat (0x30 + d)).toNat ∧ (UInt8.ofNat (0x30 + d)).toNat ≤ 0x39 := by
    rw [toNat_digit h]
    omega
  fun_induction decimal n with
  | case1 n h =>
      intro d hd
      obtain rfl := List.mem_singleton.mp hd
      exact hdigit h
  | case2 n h ih =>
      intro d hd
      rcases List.mem_append.mp hd with hd | hd
      · exact ih d hd
      · obtain rfl := List.mem_singleton.mp hd
        exact hdigit (Nat.mod_lt _ (by omega))

/-- A printed integer is read as itself. -/
@[simp] theorem asU64_ofU64 (n : UInt64) : (ofU64 n).asU64 = some n := by
  have hdigits : (ofU64 n).repr.all (fun d => 0x30 ≤ d.toNat && d.toNat ≤ 0x39) = true := by
    apply List.all_eq_true.mpr
    intro d hd
    simpa using digits_decimal n.toNat d hd
  rw [asU64, if_pos hdigits]
  simp only [ofU64, foldl_decimal, if_pos n.toNat_lt, UInt64.ofNat_toNat]

end JsonNumber

inductive Json where
  | null
  | bool (b : Bool)
  | number (n : JsonNumber)
  | string (s : Text)
  | array (elems : List Json)
  | object (members : List (Text × Json))

namespace Json

/-- Induction over a value with the hypothesis for every element and member. -/
theorem inductOn {motive : Json → Prop} (null : motive .null) (bool : ∀ b, motive (.bool b))
    (number : ∀ n, motive (.number n)) (string : ∀ s, motive (.string s))
    (array : ∀ elems, (∀ j ∈ elems, motive j) → motive (.array elems))
    (object : ∀ members, (∀ p ∈ members, motive p.2) → motive (.object members)) (j : Json) :
    motive j := by
  refine Json.rec (motive_1 := motive) (motive_2 := fun elems => ∀ j ∈ elems, motive j)
    (motive_3 := fun members => ∀ p ∈ members, motive p.2) (motive_4 := fun p => motive p.2)
    null bool number string array object ?_ ?_ ?_ ?_ ?_ j
  · simp
  · intro head tail hhead htail
    simpa using ⟨hhead, htail⟩
  · simp
  · intro head tail hhead htail
    simpa using ⟨hhead, fun a b => htail (a, b)⟩
  · intro k v hv
    exact hv

/-! ### Access -/

/-- The value of the member `k`. -/
def lookup (k : Text) : List (Text × Json) → Option Json
  | [] => none
  | (k', v) :: rest => if k = k' then some v else lookup k rest

/-- `Value::get` with a string index. -/
def get (j : Json) (k : Text) : Option Json :=
  match j with
  | .object members => lookup k members
  | _ => none

/-- `value[k]`: `Null` where there is no such member. -/
def index (j : Json) (k : Text) : Json := (j.get k).getD .null

def asStr : Json → Option Text
  | .string s => some s
  | _ => none

def asU64 : Json → Option UInt64
  | .number n => n.asU64
  | _ => none

def asBool : Json → Option Bool
  | .bool b => some b
  | _ => none

def asArray : Json → Option (List Json)
  | .array elems => some elems
  | _ => none

def asObject : Json → Option (List (Text × Json))
  | .object members => some members
  | _ => none

def isNull : Json → Bool
  | .null => true
  | _ => false

def isString : Json → Bool
  | .string _ => true
  | _ => false

/-- The array position a pointer token stands for: decimal digits without a
sign or a leading zero. -/
def parseIndex (token : Text) : Option Nat :=
  match token.bytes with
  | [] => none
  | b :: rest =>
      if (b.toNat = 0x30 && !rest.isEmpty) || !(b :: rest).all (fun d => 0x30 ≤ d.toNat && d.toNat ≤ 0x39)
      then none
      else some ((b :: rest).foldl (fun n d => 10 * n + (d.toNat - 0x30)) 0)

/-- `Value::pointer`, with the pointer already cut at its slashes. -/
def pointer : List Text → Json → Option Json
  | [], j => some j
  | token :: rest, j =>
      match j with
      | .object members => (lookup token members).bind (pointer rest)
      | .array elems => ((parseIndex token).bind fun i => elems[i]?).bind (pointer rest)
      | _ => none

/-- Insertion into a `serde_json::Map`, which iterates in name order. -/
def insertMember (k : Text) (v : Json) : List (Text × Json) → List (Text × Json)
  | [] => [(k, v)]
  | (k', v') :: rest =>
      if k < k' then (k, v) :: (k', v') :: rest
      else if k = k' then (k, v) :: rest
      else (k', v') :: insertMember k v rest

/-- An object literal of the `json!` macro. -/
def ofMembers (members : List (Text × Json)) : Json :=
  .object (members.foldl (fun acc p => insertMember p.1 p.2 acc) [])

/-- `value[k] = v` on an object. -/
def set (j : Json) (k : Text) (v : Json) : Json :=
  match j with
  | .object members => .object (insertMember k v members)
  | j => j

theorem lookup_insertMember (k k' : Text) (v : Json) (members : List (Text × Json)) :
    lookup k (insertMember k' v members) = if k = k' then some v else lookup k members := by
  induction members with
  | nil => rfl
  | cons p rest ih =>
      simp only [insertMember]
      split
      · rfl
      split
      · rename_i heq
        by_cases hk : k = k'
        · simp [lookup, hk]
        · simp [lookup, hk, ← heq]
      · rename_i hne
        by_cases hk : k = p.1
        · have hkk : k ≠ k' := fun h => hne (h.symm.trans hk)
          simp [lookup, hk, hk ▸ hkk]
        · simp [lookup, hk, ih]

/-- What has been set is found, and nothing else changes. -/
theorem get_set_object (members : List (Text × Json)) (k k' : Text) (v : Json) :
    ((Json.object members).set k' v).get k = if k = k' then some v else lookup k members :=
  lookup_insertMember k k' v members

theorem insertMember_insertMember (k : Text) (v w : Json) (members : List (Text × Json)) :
    insertMember k w (insertMember k v members) = insertMember k w members := by
  induction members with
  | nil => simp [insertMember]
  | cons p rest ih =>
      simp only [insertMember]
      split
      · simp [insertMember]
      split
      · simp [insertMember]
      · simp_all [insertMember]

/-- The last of several values stays. -/
theorem set_set (j : Json) (k : Text) (v w : Json) : (j.set k v).set k w = j.set k w := by
  cases j with
  | object members => exact congrArg Json.object (insertMember_insertMember k v w members)
  | _ => rfl

theorem mem_of_lookup {k : Text} {v : Json} {members : List (Text × Json)}
    (h : lookup k members = some v) : (k, v) ∈ members := by
  induction members with
  | nil => cases h
  | cons p rest ih =>
      simp only [lookup] at h
      split at h
      · rename_i heq
        obtain rfl : p.2 = v := by simpa using h
        simp [heq]
      · exact List.mem_cons_of_mem _ (ih h)

theorem lookup_eq_some_iff {k : Text} {v : Json} {members : List (Text × Json)}
    (hn : (members.map Prod.fst).Nodup) : lookup k members = some v ↔ (k, v) ∈ members := by
  refine ⟨mem_of_lookup, fun h => ?_⟩
  induction members with
  | nil => simp at h
  | cons p rest ih =>
      obtain ⟨hp, hrest⟩ := List.nodup_cons.mp hn
      rcases List.mem_cons.mp h with rfl | hmem
      · simp [lookup]
      · have hne : k ≠ p.1 := by
          rintro rfl
          exact hp (List.mem_map.mpr ⟨_, hmem, rfl⟩)
        simpa [lookup, hne] using ih hrest hmem

/-! ### Equality up to the order of members -/

/-- Distinct member names at every depth, as parsing guarantees. -/
inductive WellFormed : Json → Prop where
  | null : WellFormed .null
  | bool (b : Bool) : WellFormed (.bool b)
  | number (n : JsonNumber) : WellFormed (.number n)
  | string (s : Text) : WellFormed (.string s)
  | array {elems : List Json} (h : ∀ j ∈ elems, WellFormed j) : WellFormed (.array elems)
  | object {members : List (Text × Json)} (names : (members.map Prod.fst).Nodup)
      (h : ∀ p ∈ members, WellFormed p.2) : WellFormed (.object members)

theorem WellFormed.of_array {elems : List Json} (h : WellFormed (.array elems)) :
    ∀ j ∈ elems, WellFormed j := by
  cases h with
  | array h => exact h

theorem WellFormed.of_object {members : List (Text × Json)} (h : WellFormed (.object members)) :
    (members.map Prod.fst).Nodup ∧ ∀ p ∈ members, WellFormed p.2 := by
  cases h with
  | object names h => exact ⟨names, h⟩

theorem WellFormed.pointer {path : List Text} {j v : Json} (h : j.WellFormed)
    (hv : j.pointer path = some v) : v.WellFormed := by
  induction path generalizing j with
  | nil =>
      obtain rfl : j = v := by simpa [Json.pointer] using hv
      exact h
  | cons token path ih =>
      cases j with
      | object members =>
          obtain ⟨w, hw, hv⟩ := Option.bind_eq_some_iff.mp hv
          exact ih (h.of_object.2 _ (mem_of_lookup hw)) hv
      | array elems =>
          obtain ⟨w, hw, hv⟩ := Option.bind_eq_some_iff.mp hv
          obtain ⟨i, -, hi⟩ := Option.bind_eq_some_iff.mp hw
          exact ih (h.of_array _ (List.mem_of_getElem? hi)) hv
      | _ => cases hv

mutual

/-- Equality of values whose objects are unordered: as many members, and each
member has an equal one of the same name. -/
def Equiv : Json → Json → Prop
  | .null, .null => True
  | .bool a, .bool b => a = b
  | .number a, .number b => a = b
  | .string a, .string b => a = b
  | .array xs, .array ys => EquivElems xs ys
  | .object ms, .object ns => ms.length = ns.length ∧ EquivMembers ms ns
  | _, _ => False

def EquivElems : List Json → List Json → Prop
  | [], [] => True
  | x :: xs, y :: ys => Equiv x y ∧ EquivElems xs ys
  | _, _ => False

def EquivMembers : List (Text × Json) → List (Text × Json) → Prop
  | [], _ => True
  | (k, v) :: rest, ns => (∃ w, lookup k ns = some w ∧ Equiv v w) ∧ EquivMembers rest ns

end

theorem equivElems_iff {xs ys : List Json} : EquivElems xs ys ↔ List.Forall₂ Equiv xs ys := by
  induction xs generalizing ys with
  | nil => cases ys <;> simp [EquivElems]
  | cons x xs ih => cases ys <;> simp [EquivElems, ih]

theorem equivMembers_iff {ms ns : List (Text × Json)} :
    EquivMembers ms ns ↔ ∀ p ∈ ms, ∃ w, lookup p.1 ns = some w ∧ Equiv p.2 w := by
  induction ms with
  | nil => simp [EquivMembers]
  | cons p ms ih => simp [EquivMembers, ih]

end Json

/-- The functions of `serde_json` on values. -/
structure Serde where
  /-- `serde_json::from_slice`, with `none` for a parse error. -/
  parse : Bytes → Option Json
  /-- `serde_json::to_string`, which does not fail on a value. -/
  serialize : Json → Text
