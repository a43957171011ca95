import LlmCacheProxy.Foundation.Json
import Mathlib.Tactic.IntervalCases

/-!
# Compact JSON text

A value is printed without white space and members in the order in which they
stand. The first byte tells what kind of value follows, and each kind shows
where it ends, so the text determines the value.
-/

namespace Json

/-! ### Strings -/

/-- A byte inside a printed string. -/
def escapeByte (b : UInt8) : Bytes :=
  if b = 0x22 then [0x5C, 0x22]
  else if b = 0x5C then [0x5C, 0x5C]
  else if b = 0x08 then [0x5C, 0x62]
  else if b = 0x09 then [0x5C, 0x74]
  else if b = 0x0A then [0x5C, 0x6E]
  else if b = 0x0C then [0x5C, 0x66]
  else if b = 0x0D then [0x5C, 0x72]
  else if b.toNat < 0x20 then
    [0x5C, 0x75, 0x30, 0x30, Text.hexDigit (b.toNat / 16), Text.hexDigit (b.toNat % 16)]
  else [b]

/-- A string with its closing quote. -/
def closeString (bs : Bytes) : Bytes := bs.flatMap escapeByte ++ [0x22]

/-- Read one byte of a printed string. -/
def unescape : Bytes → Option (UInt8 × Bytes)
  | 0x5C :: 0x22 :: s => some (0x22, s)
  | 0x5C :: 0x5C :: s => some (0x5C, s)
  | 0x5C :: 0x62 :: s => some (0x08, s)
  | 0x5C :: 0x74 :: s => some (0x09, s)
  | 0x5C :: 0x6E :: s => some (0x0A, s)
  | 0x5C :: 0x66 :: s => some (0x0C, s)
  | 0x5C :: 0x72 :: s => some (0x0D, s)
  | 0x5C :: 0x75 :: 0x30 :: 0x30 :: h :: l :: s =>
      let digit (d : UInt8) := if d.toNat < 0x3A then d.toNat - 0x30 else d.toNat - 0x57
      some (UInt8.ofNat (16 * digit h + digit l), s)
  | b :: s => if b = 0x22 then none else some (b, s)
  | [] => none

private theorem unescape_control (n : Nat) (h : n < 0x20) (s : Bytes) :
    unescape (escapeByte (UInt8.ofNat n) ++ s) = some (UInt8.ofNat n, s) := by
  interval_cases n <;> rfl

/-- Reading undoes printing, whatever follows. -/
theorem unescape_escapeByte (b : UInt8) (s : Bytes) :
    unescape (escapeByte b ++ s) = some (b, s) := by
  by_cases hq : b = 0x22
  · subst hq
    rfl
  by_cases hb : b = 0x5C
  · subst hb
    rfl
  by_cases hc : b.toNat < 0x20
  · have hof : UInt8.ofNat b.toNat = b := UInt8.ofNat_toNat
    rw [← hof]
    exact unescape_control b.toNat hc s
  · have hne (c : UInt8) (hc' : c.toNat < 0x20) : b ≠ c := by
      rintro rfl
      exact hc hc'
    have hesc : escapeByte b = [b] := by
      simp only [escapeByte, if_neg hq, if_neg hb, if_neg (hne 0x08 (by decide)),
        if_neg (hne 0x09 (by decide)), if_neg (hne 0x0A (by decide)),
        if_neg (hne 0x0C (by decide)), if_neg (hne 0x0D (by decide)), if_neg hc]
    rw [hesc]
    simp [unescape, hq, hb]

/-- A printed string shows where it ends. -/
theorem closeString_append_inj {s t x y : Bytes}
    (h : closeString s ++ x = closeString t ++ y) : s = t ∧ x = y := by
  have hend (u : Bytes) : unescape (0x22 :: u) = none := rfl
  induction s generalizing t with
  | nil =>
      cases t with
      | nil => simpa [closeString] using h
      | cons b t =>
          have hu := congrArg unescape h
          simp only [closeString, List.flatMap_nil, List.flatMap_cons, List.nil_append,
            List.append_assoc, List.singleton_append, unescape_escapeByte] at hu
          cases (hend x).symm.trans hu
  | cons a s ih =>
      cases t with
      | nil =>
          have hu := congrArg unescape h
          simp only [closeString, List.flatMap_nil, List.flatMap_cons, List.nil_append,
            List.append_assoc, List.singleton_append, unescape_escapeByte] at hu
          cases hu.trans (hend y)
      | cons b t =>
          have hu := congrArg unescape h
          simp only [closeString, List.flatMap_cons, List.append_assoc, unescape_escapeByte,
            Option.some.injEq, Prod.mk.injEq] at hu
          obtain ⟨rfl, hrest⟩ := hu
          obtain ⟨rfl, rfl⟩ := ih (by simpa [closeString] using hrest)
          exact ⟨rfl, rfl⟩

/-! ### Values -/

mutual

/-- A value in compact form. -/
def compactBytes : Json → Bytes
  | .null => [0x6E, 0x75, 0x6C, 0x6C]
  | .bool true => [0x74, 0x72, 0x75, 0x65]
  | .bool false => [0x66, 0x61, 0x6C, 0x73, 0x65]
  | .number n => n.repr
  | .string s => 0x22 :: closeString s.bytes
  | .array [] => [0x5B, 0x5D]
  | .array (j :: js) => 0x5B :: compactBytes j ++ closeElems js
  | .object [] => [0x7B, 0x7D]
  | .object ((k, v) :: ms) =>
      0x7B :: 0x22 :: closeString k.bytes ++ 0x3A :: compactBytes v ++ closeMembers ms

/-- The elements after the first, and the closing bracket. -/
def closeElems : List Json → Bytes
  | [] => [0x5D]
  | j :: js => 0x2C :: compactBytes j ++ closeElems js

/-- The members after the first, and the closing brace. -/
def closeMembers : List (Text × Json) → Bytes
  | [] => [0x7D]
  | (k, v) :: ms => 0x2C :: 0x22 :: closeString k.bytes ++ 0x3A :: compactBytes v ++ closeMembers ms

end

/-! ### The text determines the value -/

/-- What follows a value does not continue a number. -/
def Delimited (x : Bytes) : Prop := ∀ b ∈ x.head?, isNumberByte b = false

theorem delimited_cons {b : UInt8} (h : isNumberByte b = false) (x : Bytes) :
    Delimited (b :: x) := by
  intro c hc
  obtain rfl : b = c := by simpa using hc
  exact h

theorem delimited_closeElems (js : List Json) (x : Bytes) : Delimited (closeElems js ++ x) := by
  cases js with
  | nil => exact delimited_cons (by decide) _
  | cons j js => exact delimited_cons (by decide) _

theorem delimited_closeMembers (ms : List (Text × Json)) (x : Bytes) :
    Delimited (closeMembers ms ++ x) := by
  cases ms with
  | nil => exact delimited_cons (by decide) _
  | cons p ms => exact delimited_cons (by decide) _

private theorem takeWhile_repr (n : JsonNumber) {x : Bytes} (hx : Delimited x) :
    (n.repr ++ x).takeWhile isNumberByte = n.repr := by
  have hrest : x.takeWhile isNumberByte = [] := by
    cases x with
    | nil => rfl
    | cons b x => exact List.takeWhile_cons_of_neg (by simp [hx b (by simp)])
  rw [List.takeWhile_append_of_pos n.printed, hrest, List.append_nil]

/-- A printed number shows where it ends. -/
theorem repr_append_inj {m n : JsonNumber} {x y : Bytes} (hx : Delimited x) (hy : Delimited y)
    (h : m.repr ++ x = n.repr ++ y) : m = n ∧ x = y := by
  have hrepr : m.repr = n.repr :=
    calc
      m.repr = (m.repr ++ x).takeWhile isNumberByte := (takeWhile_repr m hx).symm
      _ = (n.repr ++ y).takeWhile isNumberByte := by rw [h]
      _ = n.repr := takeWhile_repr n hy
  constructor
  · exact JsonNumber.ext hrepr
  · rw [hrepr] at h
    exact List.append_cancel_left h

/-- The first byte of a value, with one byte standing for all numbers. -/
def kind : Json → UInt8
  | .null => 0x6E
  | .bool true => 0x74
  | .bool false => 0x66
  | .number _ => 0x30
  | .string _ => 0x22
  | .array _ => 0x5B
  | .object _ => 0x7B

private theorem head?_compactBytes (j : Json) (x : Bytes) :
    (compactBytes j ++ x).head?.map (fun b => if isNumberByte b then 0x30 else b) =
      some (kind j) := by
  cases j with
  | null => rfl
  | bool b => cases b <;> rfl
  | number n =>
      obtain ⟨b, rest, hrepr⟩ := List.exists_cons_of_ne_nil n.nonempty
      have hb : isNumberByte b = true := n.printed b (by simp [hrepr])
      simp [compactBytes, kind, hrepr, hb]
  | string s => rfl
  | array js => cases js <;> rfl
  | object ms => cases ms <;> rfl

private theorem kind_eq {a b : Json} {x y : Bytes}
    (h : compactBytes a ++ x = compactBytes b ++ y) : kind a = kind b := by
  apply Option.some.inj
  rw [← head?_compactBytes a x, ← head?_compactBytes b y, h]

private theorem compactBytes_ne_bracket (j : Json) (x y : Bytes) :
    0x5D :: x ≠ compactBytes j ++ y := by
  intro h
  have hk := head?_compactBytes j y
  rw [← h] at hk
  have hk : kind j = 0x5D := (Option.some.inj hk).symm
  cases j with
  | bool b => cases b <;> simp [kind] at hk
  | null | number | string | array | object => simp [kind] at hk

/-- The text of `a`, followed by anything that does not continue a number, is
the text of no other value. -/
def Determined (a : Json) : Prop :=
  ∀ (b : Json) (x y : Bytes), Delimited x → Delimited y →
    compactBytes a ++ x = compactBytes b ++ y → a = b ∧ x = y

theorem closeElems_append_inj {js ks : List Json} {x y : Bytes} (hjs : ∀ j ∈ js, Determined j)
    (h : closeElems js ++ x = closeElems ks ++ y) :
    js = ks ∧ x = y := by
  induction js generalizing ks with
  | nil =>
      cases ks with
      | nil => simpa [closeElems] using h
      | cons k ks => simp [closeElems] at h
  | cons j js ih =>
      cases ks with
      | nil => simp [closeElems] at h
      | cons k ks =>
          simp only [closeElems, List.cons_append, List.append_assoc, List.cons.injEq,
            true_and] at h
          obtain ⟨rfl, hrest⟩ := hjs j (by simp) k _ _ (delimited_closeElems js x)
            (delimited_closeElems ks y) h
          obtain ⟨rfl, rfl⟩ := ih (fun j hj => hjs j (by simp [hj])) hrest
          exact ⟨rfl, rfl⟩

private theorem member_append_inj {k l : Text} {v w : Json} {x y : Bytes} (hv : Determined v)
    (hx : Delimited x) (hy : Delimited y)
    (h : closeString k.bytes ++ (0x3A :: (compactBytes v ++ x)) =
      closeString l.bytes ++ (0x3A :: (compactBytes w ++ y))) : (k, v) = (l, w) ∧ x = y := by
  obtain ⟨hkl, hval⟩ := closeString_append_inj h
  obtain ⟨rfl, rfl⟩ := hv w x y hx hy (List.cons.inj hval).2
  obtain rfl := Text.ext hkl
  exact ⟨rfl, rfl⟩

theorem closeMembers_append_inj {ms ns : List (Text × Json)} {x y : Bytes}
    (hms : ∀ p ∈ ms, Determined p.2)
    (h : closeMembers ms ++ x = closeMembers ns ++ y) : ms = ns ∧ x = y := by
  induction ms generalizing ns with
  | nil =>
      cases ns with
      | nil => simpa [closeMembers] using h
      | cons q ns => simp [closeMembers] at h
  | cons p ms ih =>
      cases ns with
      | nil => simp [closeMembers] at h
      | cons q ns =>
          simp only [closeMembers, List.cons_append, List.append_assoc, List.cons.injEq,
            true_and] at h
          obtain ⟨hpq, hrest⟩ := member_append_inj (hms p (by simp))
            (delimited_closeMembers ms x) (delimited_closeMembers ns y) h
          obtain ⟨rfl, rfl⟩ := ih (fun p hp => hms p (by simp [hp])) hrest
          exact ⟨by simp [Prod.mk.eta ▸ hpq], rfl⟩

theorem determined (a : Json) : Determined a := by
  induction a using Json.inductOn with
  | null =>
      intro b x y _ _ h
      have hk := kind_eq h
      cases b with
      | null => simpa [compactBytes] using h
      | bool b => cases b <;> simp [kind] at hk
      | number | string | array | object => simp [kind] at hk
  | bool a =>
      intro b x y _ _ h
      have hk := kind_eq h
      cases b with
      | bool b => cases a <;> cases b <;> simp_all [kind, compactBytes]
      | null | number | string | array | object => cases a <;> simp [kind] at hk
  | number n =>
      intro b x y hx hy h
      have hk := kind_eq h
      cases b with
      | number m =>
          simp only [compactBytes] at h
          obtain ⟨rfl, rfl⟩ := repr_append_inj hx hy h
          exact ⟨rfl, rfl⟩
      | bool b => cases b <;> simp [kind] at hk
      | null | string | array | object => simp [kind] at hk
  | string s =>
      intro b x y _ _ h
      have hk := kind_eq h
      cases b with
      | string t =>
          simp only [compactBytes, List.cons_append, List.cons.injEq, true_and] at h
          obtain ⟨hst, rfl⟩ := closeString_append_inj h
          exact ⟨congrArg Json.string (Text.ext hst), rfl⟩
      | bool b => cases b <;> simp [kind] at hk
      | null | number | array | object => simp [kind] at hk
  | array js ih =>
      intro b x y _ _ h
      have hk := kind_eq h
      cases b with
      | array ks =>
          cases js with
          | nil =>
              cases ks with
              | nil => simpa [compactBytes] using h
              | cons k ks =>
                  simp only [compactBytes, List.cons_append, List.append_assoc, List.cons.injEq,
                    true_and, List.nil_append] at h
                  exact absurd h (compactBytes_ne_bracket k _ _)
          | cons j js =>
              cases ks with
              | nil =>
                  simp only [compactBytes, List.cons_append, List.append_assoc, List.cons.injEq,
                    true_and, List.nil_append] at h
                  exact absurd h.symm (compactBytes_ne_bracket j _ _)
              | cons k ks =>
                  simp only [compactBytes, List.cons_append, List.append_assoc, List.cons.injEq,
                    true_and] at h
                  obtain ⟨rfl, hrest⟩ := ih j (by simp) k _ _ (delimited_closeElems js x)
                    (delimited_closeElems ks y) h
                  obtain ⟨rfl, rfl⟩ := closeElems_append_inj
                    (fun j hj => ih j (by simp [hj])) hrest
                  exact ⟨rfl, rfl⟩
      | bool b => cases b <;> simp [kind] at hk
      | null | number | string | object => simp [kind] at hk
  | object ms ih =>
      intro b x y _ _ h
      have hk := kind_eq h
      cases b with
      | object ns =>
          cases ms with
          | nil =>
              cases ns with
              | nil => simpa [compactBytes] using h
              | cons q ns => simp [compactBytes] at h
          | cons p ms =>
              cases ns with
              | nil => simp [compactBytes] at h
              | cons q ns =>
                  simp only [compactBytes, List.cons_append, List.append_assoc, List.cons.injEq,
                    true_and] at h
                  obtain ⟨hpq, hrest⟩ := member_append_inj (ih p (by simp))
                    (delimited_closeMembers ms x) (delimited_closeMembers ns y) h
                  obtain ⟨rfl, rfl⟩ := closeMembers_append_inj
                    (fun p hp => ih p (by simp [hp])) hrest
                  exact ⟨by simp [Prod.mk.eta ▸ hpq], rfl⟩
      | bool b => cases b <;> simp [kind] at hk
      | null | number | string | array => simp [kind] at hk

theorem compactBytes_injective : Function.Injective compactBytes := by
  intro a b h
  have hnil : ∀ c, ([] : Bytes).head? = some c → isNumberByte c = false := by simp
  apply (determined a b [] [] hnil hnil _).1
  rw [h]

/-! ### The text is UTF-8 -/

private theorem ascii_escapeByte {b c : UInt8} (hb : b.toNat < 0x80) (hc : c ∈ escapeByte b) :
    c.toNat < 0x80 := by
  have control (n : Nat) (hn : n < 0x20) :
      (escapeByte (UInt8.ofNat n)).all (fun c => c.toNat < 0x80) = true := by
    interval_cases n <;> rfl
  by_cases hlow : b.toNat < 0x20
  · have hall := control b.toNat hlow
    rw [UInt8.ofNat_toNat] at hall
    simpa using List.all_eq_true.mp hall c hc
  · simp only [escapeByte, if_neg hlow] at hc
    split_ifs at hc <;> simp at hc <;> rcases hc with rfl | rfl <;> simp_all

private theorem escapeByte_of_high {b : UInt8} (hb : ¬ b.toNat < 0x80) : escapeByte b = [b] := by
  have hne (c : UInt8) (hc : c.toNat < 0x80) : b ≠ c := by
    rintro rfl
    exact hb hc
  simp only [escapeByte, if_neg (hne 0x22 (by decide)), if_neg (hne 0x5C (by decide)),
    if_neg (hne 0x08 (by decide)), if_neg (hne 0x09 (by decide)), if_neg (hne 0x0A (by decide)),
    if_neg (hne 0x0C (by decide)), if_neg (hne 0x0D (by decide))]
  rw [if_neg (by omega)]

/-- Escapes are ASCII and stand for ASCII, so the automaton ends where it
would have ended without them. -/
private theorem run_flatMap_escapeByte {bs : Bytes} {s t : Utf8.State}
    (h : Utf8.run s bs = some t) : Utf8.run s (bs.flatMap escapeByte) = some t := by
  induction bs generalizing s with
  | nil => exact h
  | cons b bs ih =>
      obtain ⟨s', hs', hrest⟩ : ∃ s', Utf8.step s b = some s' ∧ Utf8.run s' bs = some t := by
        cases hs : Utf8.step s b with
        | none => simp [Utf8.run, hs] at h
        | some s' => exact ⟨s', rfl, by simpa [Utf8.run, hs] using h⟩
      have hesc : Utf8.run s (escapeByte b) = some s' := by
        by_cases hb : b.toNat < 0x80
        · rw [Utf8.step_ascii hb] at hs'
          split at hs'
          · rename_i hs
            obtain rfl : Utf8.State.boundary = s' := Option.some.inj hs'
            rw [hs]
            exact Utf8.valid_of_ascii fun c hc => ascii_escapeByte hb hc
          · cases hs'
        · simp [escapeByte_of_high hb, Utf8.run, hs']
      rw [List.flatMap_cons, Utf8.run_append, hesc]
      exact ih hrest

private theorem valid_closeString (s : Text) : Utf8.Valid (closeString s.bytes) :=
  Utf8.Valid.append (run_flatMap_escapeByte s.valid) (by decide)

private theorem valid_cons {b : UInt8} {x : Bytes} (hb : b.toNat < 0x80) (hx : Utf8.Valid x) :
    Utf8.Valid (b :: x) := by
  have hb : Utf8.Valid [b] := Utf8.valid_of_ascii (by simpa using hb)
  exact hb.append hx

private theorem valid_closeElems {js : List Json} (h : ∀ j ∈ js, Utf8.Valid (compactBytes j)) :
    Utf8.Valid (closeElems js) := by
  induction js with
  | nil => decide
  | cons j js ih =>
      apply valid_cons (by decide)
      exact (h j (by simp)).append (ih fun j hj => h j (by simp [hj]))

private theorem valid_member {k : Text} {v : Json} (hv : Utf8.Valid (compactBytes v))
    {rest : Bytes} (hrest : Utf8.Valid rest) :
    Utf8.Valid (0x22 :: closeString k.bytes ++ 0x3A :: compactBytes v ++ rest) := by
  apply Utf8.Valid.append _ hrest
  apply (valid_cons (by decide) (valid_closeString k)).append
  exact valid_cons (by decide) hv

private theorem valid_closeMembers {ms : List (Text × Json)}
    (h : ∀ p ∈ ms, Utf8.Valid (compactBytes p.2)) : Utf8.Valid (closeMembers ms) := by
  induction ms with
  | nil => decide
  | cons p ms ih =>
      apply valid_cons (by decide)
      exact valid_member (h p (by simp)) (ih fun p hp => h p (by simp [hp]))

theorem valid_compactBytes (j : Json) : Utf8.Valid (compactBytes j) := by
  induction j using Json.inductOn with
  | null => decide
  | bool b => cases b <;> decide
  | number n =>
      apply Utf8.valid_of_ascii
      intro b hb
      have := n.printed b hb
      simp only [isNumberByte, Bool.or_eq_true, Bool.and_eq_true, decide_eq_true_eq] at this
      rcases this with ((((h | rfl) | rfl) | rfl) | rfl) | rfl
      · omega
      all_goals decide
  | string s => exact valid_cons (by decide) (valid_closeString s)
  | array js ih =>
      cases js with
      | nil => decide
      | cons j js =>
          apply valid_cons (by decide)
          exact (ih j (by simp)).append (valid_closeElems fun j hj => ih j (by simp [hj]))
  | object ms ih =>
      cases ms with
      | nil => decide
      | cons p ms =>
          apply valid_cons (by decide)
          exact valid_member (ih p (by simp)) (valid_closeMembers fun p hp => ih p (by simp [hp]))

/-- The compact text of a value. -/
def compact (j : Json) : Text := ⟨compactBytes j, valid_compactBytes j⟩

theorem compact_injective : Function.Injective compact :=
  fun _ _ h => compactBytes_injective (congrArg Text.bytes h)

/-! ### The text has no control characters -/

/-- No byte is a control character. -/
def Printable (bs : Bytes) : Prop := ∀ b ∈ bs, 0x20 ≤ b.toNat

theorem Printable.append {x y : Bytes} (hx : Printable x) (hy : Printable y) :
    Printable (x ++ y) := by
  intro b hb
  rcases List.mem_append.mp hb with hb | hb
  · exact hx b hb
  · exact hy b hb

theorem Printable.cons {b : UInt8} {x : Bytes} (hb : 0x20 ≤ b.toNat) (hx : Printable x) :
    Printable (b :: x) := by
  intro c hc
  rcases List.mem_cons.mp hc with rfl | hc
  · exact hb
  · exact hx c hc

private theorem printable_escapeByte (b : UInt8) : Printable (escapeByte b) := by
  have control (n : Nat) (hn : n < 0x20) :
      (escapeByte (UInt8.ofNat n)).all (fun c => 0x20 ≤ c.toNat) = true := by
    interval_cases n <;> rfl
  intro c hc
  by_cases hlow : b.toNat < 0x20
  · have hall := control b.toNat hlow
    rw [UInt8.ofNat_toNat] at hall
    simpa using List.all_eq_true.mp hall c hc
  · have hb : 0x20 ≤ b.toNat := by omega
    simp only [escapeByte, if_neg hlow] at hc
    split_ifs at hc <;> simp at hc <;> rcases hc with rfl | rfl <;> first | exact hb | decide

private theorem printable_closeString (s : Bytes) : Printable (closeString s) := by
  apply Printable.append
  · intro c hc
    obtain ⟨b, -, hc⟩ := List.mem_flatMap.mp hc
    exact printable_escapeByte b c hc
  · exact .cons (by decide) fun _ h => absurd h List.not_mem_nil

private theorem printable_closeElems {js : List Json}
    (h : ∀ j ∈ js, Printable (compactBytes j)) : Printable (closeElems js) := by
  induction js with
  | nil => exact .cons (by decide) fun _ h => absurd h List.not_mem_nil
  | cons j js ih =>
      apply Printable.cons (by decide)
      exact (h j (by simp)).append (ih fun j hj => h j (by simp [hj]))

private theorem printable_member {k : Text} {v : Json} (hv : Printable (compactBytes v))
    {rest : Bytes} (hrest : Printable rest) :
    Printable (0x22 :: closeString k.bytes ++ 0x3A :: compactBytes v ++ rest) := by
  apply Printable.append _ hrest
  apply (Printable.cons (by decide) (printable_closeString k.bytes)).append
  exact .cons (by decide) hv

private theorem printable_closeMembers {ms : List (Text × Json)}
    (h : ∀ p ∈ ms, Printable (compactBytes p.2)) : Printable (closeMembers ms) := by
  induction ms with
  | nil => exact .cons (by decide) fun _ h => absurd h List.not_mem_nil
  | cons p ms ih =>
      apply Printable.cons (by decide)
      exact printable_member (h p (by simp)) (ih fun p hp => h p (by simp [hp]))

/-- Control characters are escaped, so the text is a single line. -/
theorem printable_compactBytes (j : Json) : Printable (compactBytes j) := by
  have hword {bs : Bytes} (h : bs.all (fun b => 0x20 ≤ b.toNat) = true) : Printable bs := by
    intro b hb
    simpa using List.all_eq_true.mp h b hb
  induction j using Json.inductOn with
  | null => exact hword (by decide)
  | bool b => cases b <;> exact hword (by decide)
  | number n =>
      intro b hb
      have := n.printed b hb
      simp only [isNumberByte, Bool.or_eq_true, Bool.and_eq_true, decide_eq_true_eq] at this
      rcases this with ((((h | rfl) | rfl) | rfl) | rfl) | rfl
      · omega
      all_goals decide
  | string s => exact .cons (by decide) (printable_closeString s.bytes)
  | array js ih =>
      cases js with
      | nil => exact hword (by decide)
      | cons j js =>
          apply Printable.cons (by decide)
          exact (ih j (by simp)).append (printable_closeElems fun j hj => ih j (by simp [hj]))
  | object ms ih =>
      cases ms with
      | nil => exact hword (by decide)
      | cons p ms =>
          apply Printable.cons (by decide)
          exact printable_member (ih p (by simp))
            (printable_closeMembers fun p hp => ih p (by simp [hp]))

/-! ### A library for a few values -/

/-- `serde_json` on the printed forms of a few values. -/
def serdeFor (values : List Json) : Serde where
  parse body := values.find? fun v => v.compact.bytes = body
  serialize := compact

theorem serdeFor_parse {values : List Json} {v : Json} (h : v ∈ values) :
    (serdeFor values).parse v.compact.bytes = some v := by
  have hsome : ((serdeFor values).parse v.compact.bytes).isSome := by
    rw [serdeFor, List.find?_isSome]
    exact ⟨v, h, by simp⟩
  obtain ⟨w, hw⟩ := Option.isSome_iff_exists.mp hsome
  have heq : w.compact.bytes = v.compact.bytes := by simpa using List.find?_some hw
  rw [hw, compact_injective (Text.ext heq)]

theorem mem_of_serdeFor_parse {values : List Json} {body : Bytes} {v : Json}
    (h : (serdeFor values).parse body = some v) : v ∈ values :=
  List.mem_of_find?_eq_some h

end Json
