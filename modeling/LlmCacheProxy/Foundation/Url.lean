import LlmCacheProxy.Foundation.UriComponent
import Mathlib.Data.List.DropRight
import Mathlib.Tactic.IntervalCases

/-!
# Parsing URLs

How a string is read as an `http` or `https` URL by the URL standard. Blanks are
removed first. The path is cut into segments at slashes and backslashes, dot
segments are resolved, and bytes that may not stand in a component are escaped;
escapes that are there already are kept. How the part with the host is read is a
parameter.
-/

namespace Url

open Uri

/-! ### Percent-encode sets -/

def isControl (b : UInt8) : Bool := b.toNat < 0x20 || 0x7E < b.toNat

/-- Controls and ` "#<>`. -/
def querySet (b : UInt8) : Bool := isControl b || b ∈ [0x20, 0x22, 0x23, 0x3C, 0x3E]

/-- The query set of special URLs has the apostrophe too. -/
def specialQuerySet (b : UInt8) : Bool := querySet b || b = 0x27

def fragmentSet (b : UInt8) : Bool := isControl b || b ∈ [0x20, 0x22, 0x3C, 0x3E, 0x60]

/-- The query set and the bytes ``?^`{}``, as in the current URL standard. Version 2.5
of the `url` crate leaves `^` as it is. -/
def pathSet (b : UInt8) : Bool := querySet b || b ∈ [0x3F, 0x5E, 0x60, 0x7B, 0x7D]

def upperHex (n : Nat) : UInt8 := UInt8.ofNat (if n < 10 then 0x30 + n else 0x37 + n)

def encodeByte (set : UInt8 → Bool) (b : UInt8) : Bytes :=
  if set b then [0x25, upperHex (b.toNat / 16), upperHex (b.toNat % 16)] else [b]

def encode (set : UInt8 → Bool) (s : Bytes) : Bytes := s.flatMap (encodeByte set)

/-! ### Segments -/

def isSlash (b : UInt8) : Bool := b = 0x2F || b = 0x5C

/-- The spellings of a dot. -/
def dotForms : List Bytes := [[0x2E], [0x25, 0x32, 0x65], [0x25, 0x32, 0x45]]

def isSingleDot (s : Bytes) : Bool := s ∈ dotForms

def isDoubleDot (s : Bytes) : Bool := dotForms.any fun x => dotForms.any fun y => s = x ++ y

/-- A segment with a slash behind it. -/
def enter (path : List Bytes) (s : Bytes) : List Bytes :=
  if isDoubleDot s then path.dropLast else if isSingleDot s then path else path ++ [s]

/-- The last segment. -/
def close (path : List Bytes) (s : Bytes) : List Bytes :=
  if isDoubleDot s then path.dropLast ++ [[]] else if isSingleDot s then path ++ [[]]
  else path ++ [s]

/-- The path after more segments. -/
def resolve : List Bytes → List Bytes → List Bytes
  | path, [] => path
  | path, [s] => close path s
  | path, s :: t :: rest => resolve (enter path s) (t :: rest)

/-- The segments of a part of a path, with what may not stand there escaped. -/
def segments (s : Bytes) : List Bytes := (s.splitOnP isSlash).map (encode pathSet)

/-! ### The parser -/

def isBlank (b : UInt8) : Bool := b.toNat ≤ 0x20

def isTabOrNewline (b : UInt8) : Bool := b ∈ [0x09, 0x0A, 0x0D]

/-- Without blanks at the end, and without tabs and newlines. -/
def cleanEnd (s : Bytes) : Bytes := (s.rdropWhile isBlank).filter fun b => !isTabOrNewline b

def clean (input : Bytes) : Bytes := cleanEnd (input.dropWhile isBlank)

/-- Not the beginning of a query or a fragment. -/
def inPath (b : UInt8) : Bool := b ≠ 0x3F && b ≠ 0x23

def inAuthority (b : UInt8) : Bool := inPath b && !isSlash b

def lower (b : UInt8) : UInt8 := if 0x41 ≤ b.toNat ∧ b.toNat ≤ 0x5A then b + 0x20 else b

end Url

/-- The parts of an `http` or `https` URL. -/
structure Url where
  scheme : Bytes
  authority : Bytes
  /-- The segments behind each slash. -/
  path : List Bytes
  query : Option Bytes
  fragment : Option Bytes
  deriving DecidableEq

namespace Url

open Uri

/-- The query and the fragment behind a path. -/
def queryOf (s : Bytes) : Option Bytes :=
  match s.dropWhile inPath with
  | 0x3F :: q => some (encode specialQuerySet (q.takeWhile fun b => b ≠ 0x23))
  | _ => none

def fragmentOf (s : Bytes) : Option Bytes :=
  match s.dropWhile fun b => b ≠ 0x23 with
  | _ :: f => some (encode fragmentSet f)
  | [] => none

/-- The path behind the authority, from its first slash on. -/
def pathOf (s : Bytes) : List Bytes := resolve [] (segments ((s.takeWhile inPath).drop 1))

def schemes : List Bytes := [[0x68, 0x74, 0x74, 0x70], [0x68, 0x74, 0x74, 0x70, 0x73]]

/-- The scheme and the authority, and what is behind them. Any number of slashes
may stand between the two. -/
def split (s : Bytes) : Option (Bytes × Bytes × Bytes) :=
  let scheme := (s.takeWhile fun b => b ≠ 0x3A).map lower
  let rest := ((s.dropWhile fun b => b ≠ 0x3A).drop 1).dropWhile isSlash
  if scheme ∈ schemes ∧ rest.takeWhile inAuthority ≠ [] then
    some (scheme, rest.takeWhile inAuthority, rest.dropWhile inAuthority)
  else none

/-- `host` reads an authority. -/
def parse (host : Bytes → Option Bytes) (input : Bytes) : Option Url := do
  let (scheme, authority, rest) ← split (clean input)
  let authority ← host authority
  some ⟨scheme, authority, pathOf rest, queryOf rest, fragmentOf rest⟩

/-! ### What encoding leaves -/

/-- Escapes are not escaped again. -/
structure KeepsEscapes (set : UInt8 → Bool) : Prop where
  percent : set 0x25 = false
  digit : ∀ b, (hexValue b).isSome = true → set b = false

private theorem digit_of_isSome {b : UInt8} (h : (hexValue b).isSome = true) :
    (0x30 ≤ b.toNat ∧ b.toNat ≤ 0x39) ∨ (0x41 ≤ b.toNat ∧ b.toNat ≤ 0x46) ∨
      (0x61 ≤ b.toNat ∧ b.toNat ≤ 0x66) := by
  unfold hexValue at h
  split_ifs at h with h₁ h₂ h₃
  · exact Or.inl h₁
  · exact Or.inr (Or.inl h₂)
  · exact Or.inr (Or.inr h₃)
  · cases h

theorem keepsEscapes_pathSet : KeepsEscapes pathSet := by
  refine ⟨by decide, fun b h => ?_⟩
  have hdigit := digit_of_isSome h
  simp only [pathSet, querySet, isControl, List.mem_cons, List.not_mem_nil, or_false,
    Bool.or_eq_false_iff, decide_eq_false_iff_not, ← UInt8.toNat_inj]
  simp
  omega

theorem keepsEscapes_specialQuerySet : KeepsEscapes specialQuerySet := by
  refine ⟨by decide, fun b h => ?_⟩
  have hdigit := digit_of_isSome h
  simp only [specialQuerySet, querySet, isControl, List.mem_cons, List.not_mem_nil, or_false,
    Bool.or_eq_false_iff, decide_eq_false_iff_not, ← UInt8.toNat_inj]
  simp
  omega

private theorem hexValue_upperHex {n : Nat} (h : n < 16) :
    hexValue (upperHex n) = some (UInt8.ofNat n) := by
  interval_cases n <;> rfl

theorem escaped_upperHex (b : UInt8) :
    escaped 0x25 (upperHex (b.toNat / 16)) (upperHex (b.toNat % 16)) = some b := by
  have hb := b.toNat_lt
  rw [escaped, if_pos rfl, hexValue_upperHex (by omega), hexValue_upperHex (by omega)]
  simp only [Option.bind_some, Option.map_some, Option.some.injEq]
  apply UInt8.toNat_inj.mp
  rw [UInt8.toNat_add, UInt8.toNat_mul, UInt8.toNat_ofNat', UInt8.toNat_ofNat']
  simp
  omega

/-- An encoded delimiter is none. -/
def reencode (set : UInt8 → Bool) : Symbol → Symbol
  | .delim b => if set b then .octet b else .delim b
  | u => u

theorem encode_cons (set : UInt8 → Bool) (b : UInt8) (s : Bytes) :
    encode set (b :: s) = encodeByte set b ++ encode set s := rfl

theorem encodeByte_of_false {set : UInt8 → Bool} {b : UInt8} (h : set b = false) :
    encodeByte set b = [b] := by
  rw [encodeByte, if_neg (by simp [h])]

theorem encodeByte_of_true {set : UInt8 → Bool} {b : UInt8} (h : set b = true) :
    encodeByte set b = [0x25, upperHex (b.toNat / 16), upperHex (b.toNat % 16)] := if_pos h

/-- Encoding what follows a byte completes no escape: it begins with a percent
sign where it changes something. -/
theorem escape?_cons_encode (set : UInt8 → Bool) {a : UInt8} {s : Bytes}
    (h : escape? (a :: s) = none) : escape? (a :: encode set s) = none := by
  have hsign (b : UInt8) : escaped a 0x25 b = none ∧ escaped a b 0x25 = none := by
    constructor
    · by_contra hne
      obtain ⟨v, hv⟩ := Option.ne_none_iff_exists'.mp hne
      exact absurd (escaped_eq_some hv).2.1 (by decide)
    · by_contra hne
      obtain ⟨v, hv⟩ := Option.ne_none_iff_exists'.mp hne
      exact absurd (escaped_eq_some hv).2.2 (by decide)
  cases s with
  | nil => rfl
  | cons b s =>
      rw [encode_cons]
      by_cases hb : set b = true
      · rw [encodeByte_of_true hb]
        exact (hsign _).1
      rw [encodeByte_of_false (by simpa using hb)]
      cases s with
      | nil => rfl
      | cons c s =>
          rw [encode_cons]
          by_cases hc : set c = true
          · rw [encodeByte_of_true hc]
            exact (hsign _).2
          · rw [encodeByte_of_false (by simpa using hc)]
            exact h

theorem symbols_encode {set : UInt8 → Bool} (hset : KeepsEscapes set) (s : Bytes) :
    symbols (encode set s) = (symbols s).map (reencode set) := by
  induction s using symbolsInduction with
  | nil => rfl
  | escape a b c v s hv ih =>
      obtain ⟨rfl, hb, hc⟩ := escaped_eq_some hv
      have hencode : encode set (0x25 :: b :: c :: s) = 0x25 :: b :: c :: encode set s := by
        rw [encode_cons, encode_cons, encode_cons, encodeByte_of_false hset.percent,
          encodeByte_of_false (hset.digit b hb), encodeByte_of_false (hset.digit c hc)]
        rfl
      rw [hencode, symbols_escape hv, symbols_escape hv, ih, List.map_cons]
      rfl
  | literal a s ha ih =>
      rw [encode_cons, symbols_literal ha, List.map_cons, ← ih]
      by_cases hset' : set a = true
      · have hpercent : a ≠ 0x25 := by
          rintro rfl
          cases hset.percent.symm.trans hset'
        have hliteral : reencode set (literal a) = .octet a := by
          unfold literal
          rw [if_neg hpercent]
          split
          · exact if_pos hset'
          · rfl
        rw [encodeByte_of_true hset', hliteral]
        exact symbols_escape (escaped_upperHex a) _
      · have hset' : set a = false := by simpa using hset'
        have hliteral : reencode set (literal a) = literal a := by
          unfold literal
          split
          · rfl
          split
          · exact if_neg (by simp [hset'])
          · rfl
        rw [encodeByte_of_false hset', hliteral]
        exact symbols_literal (escape?_cons_encode set ha)

/-! ### Dot segments -/

def isDots (s : Bytes) : Bool := isSingleDot s || isDoubleDot s

/-- The symbols of a path, with one for each slash. -/
def weight (path : List Bytes) : Nat := (path.map fun s => (symbols s).length + 1).sum

theorem weight_append (path path' : List Bytes) :
    weight (path ++ path') = weight path + weight path' := by
  simp [weight]

theorem weight_cons (s : Bytes) (path : List Bytes) :
    weight (s :: path) = (symbols s).length + 1 + weight path := by
  simp [weight]

theorem weight_dropLast_le (path : List Bytes) : weight path.dropLast ≤ weight path := by
  rcases List.eq_nil_or_concat path with rfl | ⟨front, s, rfl⟩
  · exact le_rfl
  · rw [List.concat_eq_append, List.dropLast_concat, weight_append]
    exact Nat.le_add_right _ _

theorem symbols_dots_pos {s : Bytes} (h : isDots s = true) : 0 < (symbols s).length := by
  have hne : s ≠ [] := by
    rintro rfl
    cases h
  exact List.length_pos_of_ne_nil (symbols_ne_nil hne)

theorem enter_of_not_dots {s : Bytes} (h : isDots s = false) (path : List Bytes) :
    enter path s = path ++ [s] := by
  simp only [isDots, Bool.or_eq_false_iff] at h
  simp [enter, h]

theorem close_of_not_dots {s : Bytes} (h : isDots s = false) (path : List Bytes) :
    close path s = path ++ [s] := by
  simp only [isDots, Bool.or_eq_false_iff] at h
  simp [close, h]

/-- Dot segments vanish, and may take another segment with them. -/
theorem weight_enter_lt {s : Bytes} (h : isDots s = true) (path : List Bytes) :
    weight (enter path s) < weight path + ((symbols s).length + 1) := by
  have hdrop := weight_dropLast_le path
  simp only [isDots, Bool.or_eq_true] at h
  unfold enter
  split
  · omega
  split
  · omega
  · simp_all

theorem weight_close_lt {s : Bytes} (h : isDots s = true) (path : List Bytes) :
    weight (close path s) < weight path + ((symbols s).length + 1) := by
  have hdrop := weight_dropLast_le path
  have hpos := symbols_dots_pos h
  have hempty : weight [[]] = 1 := rfl
  simp only [isDots, Bool.or_eq_true] at h
  unfold close
  split
  · rw [weight_append, hempty]
    omega
  split
  · rw [weight_append, hempty]
    omega
  · simp_all

theorem weight_enter_le (path : List Bytes) (s : Bytes) :
    weight (enter path s) ≤ weight path + ((symbols s).length + 1) := by
  cases h : isDots s with
  | true => exact (weight_enter_lt h path).le
  | false => simp [enter_of_not_dots h, weight]

theorem weight_close_le (path : List Bytes) (s : Bytes) :
    weight (close path s) ≤ weight path + ((symbols s).length + 1) := by
  cases h : isDots s with
  | true => exact (weight_close_lt h path).le
  | false => simp [close_of_not_dots h, weight]

theorem resolve_append {segs : List Bytes} (h : segs ≠ []) (path front : List Bytes) :
    resolve path (front ++ segs) = resolve (front.foldl enter path) segs := by
  obtain ⟨s, segs, rfl⟩ := List.exists_cons_of_ne_nil h
  induction front generalizing path with
  | nil => rfl
  | cons t front ih =>
      rw [List.foldl_cons, ← ih]
      cases front <;> rfl

theorem resolve_of_not_dots {segs : List Bytes} (h : ∀ s ∈ segs, isDots s = false)
    (path : List Bytes) : resolve path segs = path ++ segs := by
  induction segs generalizing path with
  | nil => exact (List.append_nil path).symm
  | cons s segs ih =>
      rw [List.forall_mem_cons] at h
      cases segs with
      | nil => exact close_of_not_dots h.1 path
      | cons t segs =>
          rw [resolve, ih h.2, enter_of_not_dots h.1, List.append_assoc]
          rfl

theorem weight_resolve_le (path segs : List Bytes) :
    weight (resolve path segs) ≤ weight path + weight segs := by
  induction segs generalizing path with
  | nil => exact Nat.le_add_right _ _
  | cons s segs ih =>
      rw [weight_cons]
      cases segs with
      | nil => exact weight_close_le path s
      | cons t segs =>
          rw [resolve]
          have henter := weight_enter_le path s
          have hrest := ih (enter path s)
          omega

/-- A path that lost nothing had no dot segments. -/
theorem not_dots_of_weight {path segs : List Bytes}
    (h : weight (resolve path segs) = weight path + weight segs) :
    ∀ s ∈ segs, isDots s = false := by
  induction segs generalizing path with
  | nil => exact fun _ hs => absurd hs List.not_mem_nil
  | cons s segs ih =>
      rw [weight_cons] at h
      cases segs with
      | nil =>
          have hnil : weight [] = 0 := rfl
          rw [resolve, hnil] at h
          rw [List.forall_mem_singleton]
          by_contra hdots
          have hlt := weight_close_lt (s := s) (by simpa using hdots) path
          omega
      | cons t segs =>
          rw [resolve] at h
          have henter := weight_enter_le path s
          have hrest := weight_resolve_le (enter path s) (t :: segs)
          rw [List.forall_mem_cons]
          constructor
          · by_contra hdots
            have hlt := weight_enter_lt (s := s) (by simpa using hdots) path
            omega
          · have hkept : weight (resolve (enter path s) (t :: segs)) =
                weight (enter path s) + weight (t :: segs) := by omega
            exact ih hkept

/-! ### Decoded paths -/

/-- A backslash counts as a slash. -/
def unslash (b : UInt8) : UInt8 := if b = 0x5C then 0x2F else b

theorem splitOnP_isSlash (s : Bytes) : s.splitOnP isSlash = (s.map unslash).splitOn 0x2F := by
  induction s with
  | nil => rfl
  | cons b s ih =>
      rw [List.splitOnP_cons_eq_if_modifyHead, List.map_cons,
        List.splitOn_cons_eq_if_modifyHead, ih]
      by_cases hslash : isSlash b = true
      · have hb : unslash b = 0x2F := by
          simp only [isSlash, Bool.or_eq_true, decide_eq_true_eq] at hslash
          rcases hslash with rfl | rfl <;> rfl
        simp [hslash, hb]
      · have hne : b ≠ 0x2F ∧ b ≠ 0x5C := by simpa [isSlash] using hslash
        have hb : unslash b = b := if_neg hne.2
        simp [hslash, hb, hne.1]

theorem weight_eq_sum (path : List Bytes) :
    weight path = ((path.map symbols).map fun s => s.length + 1).sum := by
  rw [weight, List.map_map]
  rfl

theorem weight_segments (s : Bytes) :
    weight (segments s) = (symbols (s.map unslash)).length + 1 := by
  have hencode (t : Bytes) : (symbols (encode pathSet t)).length = (symbols t).length := by
    rw [symbols_encode keepsEscapes_pathSet, List.length_map]
  have hslash : (0x2F : UInt8) ∈ reserved := by decide
  calc
    weight (segments s) = weight (s.splitOnP isSlash) := by
      simp only [weight, segments, List.map_map, Function.comp_def, hencode]
    _ = (((symbols (s.map unslash)).splitOn (.delim 0x2F)).map fun s => s.length + 1).sum := by
      rw [weight_eq_sum, splitOnP_isSlash, splitOn_symbols hslash]
    _ = (symbols (s.map unslash)).length + 1 := sum_length_splitOn _ _

/-- A component keeps its meaning unless one of its delimiters is encoded. -/
theorem symbols_encode_eq_iff {set : UInt8 → Bool} (hset : KeepsEscapes set) {s : Bytes} :
    symbols (encode set s) = symbols s ↔ ∀ b ∈ reserved, set b = true → b ∉ s := by
  have hid : (symbols s).map (reencode set) = symbols s ↔
      ∀ u ∈ symbols s, reencode set u = u := by
    conv_lhs => rw [← List.map_id (symbols s)]
    rw [List.map_map]
    exact List.map_inj_left
  rw [symbols_encode hset, hid]
  constructor
  · intro h b hb hencoded hmem
    have hdelim := h (.delim b) (delim_mem_symbols_iff.mpr ⟨hb, hmem⟩)
    rw [reencode, if_pos hencoded] at hdelim
    cases hdelim
  · intro h u hu
    cases u with
    | delim b =>
        obtain ⟨hb, hmem⟩ := delim_mem_symbols_iff.mp hu
        exact if_neg fun hencoded => h b hb hencoded hmem
    | percent => rfl
    | octet b => rfl

/-- In a path only `?` and `#` are encoded delimiters. -/
theorem symbols_encode_pathSet {s : Bytes} (h : ∀ b ∈ s, inPath b = true) :
    symbols (encode pathSet s) = symbols s := by
  have hset : ∀ b ∈ reserved, pathSet b = true → inPath b = false :=
    List.all_iff_forall_prop.mp (by decide)
  apply (symbols_encode_eq_iff keepsEscapes_pathSet).mpr
  intro b hb hencoded hmem
  exact absurd (h b hmem) (by simp [hset b hb hencoded])

/-- In a query only `#` and the apostrophe are. -/
theorem symbols_encode_specialQuerySet {s : Bytes} (h : ∀ b ∈ s, b ≠ 0x23) :
    symbols (encode specialQuerySet s) = symbols s ↔ 0x27 ∉ s := by
  have hset : ∀ b ∈ reserved, specialQuerySet b = true → b = 0x23 ∨ b = 0x27 :=
    List.all_iff_forall_prop.mp (by decide)
  rw [symbols_encode_eq_iff keepsEscapes_specialQuerySet]
  constructor
  · exact fun hno => hno 0x27 (by decide) (by decide)
  · intro hno b hb hencoded hmem
    rcases hset b hb hencoded with rfl | rfl
    · exact h _ hmem rfl
    · exact hno hmem

theorem map_symbols_segments {s : Bytes} (h : ∀ b ∈ s, inPath b = true) :
    (segments s).map symbols = (symbols (s.map unslash)).splitOn (.delim 0x2F) := by
  rw [splitOn_symbols (by decide), segments, splitOnP_isSlash, List.map_map]
  apply List.map_congr_left
  intro t ht
  apply symbols_encode_pathSet
  intro b hb
  obtain ⟨a, ha, rfl⟩ := List.mem_map.mp ((infix_of_mem_splitOn ht).mem hb)
  have hin := h a ha
  unfold unslash
  split
  · rfl
  · exact hin

theorem symbols_of_dots {s : Bytes} (h : isDots s = true) :
    symbols s = [.octet 0x2E] ∨ symbols s = [.octet 0x2E, .octet 0x2E] := by
  have hsingle : ∀ x ∈ dotForms, symbols x = [.octet 0x2E] := by decide
  have hdouble : ∀ x ∈ dotForms, ∀ y ∈ dotForms,
      symbols (x ++ y) = [.octet 0x2E, .octet 0x2E] := by decide
  simp only [isDots, isSingleDot, isDoubleDot, Bool.or_eq_true, decide_eq_true_eq,
    List.any_eq_true] at h
  rcases h with h | ⟨x, hx, y, hy, rfl⟩
  · exact Or.inl (hsingle s h)
  · exact Or.inr (hdouble x hx y hy)

/-- A component whose decoded bytes, read as a path, mean what it means: no
delimiter and no percent sign of it is escaped, and decoding brings about no
backslash, no escape and no dot segment. -/
structure ReadsDecoded (raw : Bytes) : Prop where
  escapes : ∀ u ∈ symbols raw, literal u.byte = u
  backslash : 0x5C ∉ percentDecode raw
  unescaped : Unescaped (percentDecode raw)
  dots : ∀ s ∈ (percentDecode raw).splitOn 0x2F, s ≠ [0x2E] ∧ s ≠ [0x2E, 0x2E]

theorem map_unslash {s : Bytes} : s.map unslash = s ↔ 0x5C ∉ s := by
  constructor
  · intro h hmem
    rw [← h] at hmem
    obtain ⟨a, -, ha⟩ := List.mem_map.mp hmem
    unfold unslash at ha
    split_ifs at ha with h₁
    · exact absurd ha (by decide)
    · exact h₁ ha
  · intro h
    refine (List.map_congr_left fun b hb => ?_).trans (List.map_id _)
    refine if_neg ?_
    rintro rfl
    exact h hb

/-- What the decoded bytes mean is what the component meant. -/
theorem ReadsDecoded.symbols {raw : Bytes} (h : ReadsDecoded raw) :
    Uri.symbols (percentDecode raw) = Uri.symbols raw := by
  rw [h.unescaped.symbols, percentDecode, List.map_map]
  exact (List.map_congr_left h.escapes).trans (List.map_id _)

/-- No delimiter comes from an escape. -/
theorem ReadsDecoded.mem_of_reserved {raw : Bytes} (h : ReadsDecoded raw) {b : UInt8}
    (hb : b ∈ reserved) (hmem : b ∈ percentDecode raw) : b ∈ raw := by
  obtain ⟨u, hu, rfl⟩ := List.mem_map.mp hmem
  have hdelim := h.escapes u hu
  rw [literal_of_reserved hb] at hdelim
  exact (delim_mem_symbols_iff.mp (hdelim ▸ hu)).2

theorem not_inPath_iff {b : UInt8} : inPath b = false ↔ b = 0x3F ∨ b = 0x23 := by
  rw [inPath, Bool.and_eq_false_iff, decide_eq_false_iff_not, decide_eq_false_iff_not, not_not,
    not_not]

theorem ReadsDecoded.all_inPath {raw : Bytes} (h : ReadsDecoded raw)
    (hin : ∀ b ∈ raw, Url.inPath b = true) : ∀ b ∈ percentDecode raw, Url.inPath b = true := by
  intro b hb
  by_contra hno
  have hreserved : b ∈ reserved := by
    rcases not_inPath_iff.mp (by simpa using hno) with rfl | rfl <;> decide
  exact hno (hin b (h.mem_of_reserved hreserved hb))

theorem ReadsDecoded.map_unslash {raw : Bytes} (h : ReadsDecoded raw) :
    (percentDecode raw).map unslash = percentDecode raw := Url.map_unslash.mpr h.backslash

theorem ReadsDecoded.not_dots {raw : Bytes} (h : ReadsDecoded raw)
    (hin : ∀ b ∈ percentDecode raw, inPath b = true) :
    ∀ s ∈ segments (percentDecode raw), isDots s = false := by
  rw [segments, splitOnP_isSlash, h.map_unslash]
  intro s hs
  obtain ⟨t, ht, rfl⟩ := List.mem_map.mp hs
  have hpart := infix_of_mem_splitOn ht
  have hunescaped : Unescaped t := fun a b c habc => h.unescaped a b c (habc.trans hpart)
  have hsymbols : Uri.symbols (encode pathSet t) = t.map literal := by
    rw [symbols_encode_pathSet fun b hb => hin b (hpart.mem hb), hunescaped.symbols]
  have hbytes : t = (Uri.symbols (encode pathSet t)).map Symbol.byte := by
    rw [hsymbols, map_byte_literal]
  by_contra hdots
  rcases symbols_of_dots (by simpa using hdots) with hone | htwo
  · rw [hone] at hbytes
    exact (h.dots t ht).1 hbytes
  · rw [htwo] at hbytes
    exact (h.dots t ht).2 hbytes

/-- Symbols are lost where bytes are, where an escape is read and where a dot
segment is resolved. -/
theorem whole_of_resolve {own : List Bytes} {raw w : Bytes} (hw : w.Sublist (percentDecode raw))
    (h : (resolve own (segments w)).map symbols =
      own.map symbols ++ (symbols raw).splitOn (.delim 0x2F)) :
    w = percentDecode raw ∧ Unescaped (w.map unslash) ∧ ∀ s ∈ segments w, isDots s = false := by
  have hweight : weight (resolve own (segments w)) = weight own + ((symbols raw).length + 1) := by
    rw [weight_eq_sum, h, List.map_append, List.sum_append, sum_length_splitOn, weight_eq_sum]
  have hresolve := weight_resolve_le own (segments w)
  have hsegments := weight_segments w
  have hread := length_symbols_le (w.map unslash)
  have hlength := hw.length_le
  rw [percentDecode, List.length_map] at hlength
  rw [List.length_map] at hread
  refine ⟨?_, ?_, ?_⟩
  · apply hw.eq_of_length
    rw [percentDecode, List.length_map]
    omega
  · apply unescaped_of_length
    rw [List.length_map]
    omega
  · have hkept : weight (resolve own (segments w)) = weight own + weight (segments w) := by omega
    exact not_dots_of_weight hkept

theorem readsDecoded_of_symbols {raw : Bytes}
    (hsymbols : symbols ((percentDecode raw).map unslash) = symbols raw)
    (hunescaped : Unescaped ((percentDecode raw).map unslash))
    (hdots : ∀ s ∈ segments (percentDecode raw), isDots s = false) : ReadsDecoded raw := by
  have hslash : (percentDecode raw).map unslash = percentDecode raw := by
    have hbytes := congrArg (List.map Symbol.byte) hsymbols
    rwa [hunescaped.symbols, map_byte_literal] at hbytes
  rw [hslash] at hsymbols hunescaped
  constructor
  · intro u hu
    rw [← hsymbols, hunescaped.symbols] at hu
    obtain ⟨b, -, rfl⟩ := List.mem_map.mp hu
    rw [byte_literal]
  · exact map_unslash.mp hslash
  · exact hunescaped
  · intro s hs
    have hmem : encode pathSet s ∈ segments (percentDecode raw) := by
      rw [segments, splitOnP_isSlash, hslash]
      exact List.mem_map_of_mem hs
    have hencoded := hdots _ hmem
    constructor
    · rintro rfl
      exact absurd hencoded (by decide)
    · rintro rfl
      exact absurd hencoded (by decide)

/-- Behind a base, what remains of the decoded bytes of a component means the same
as the component only if all of them remain, and they can be read as they are. -/
theorem resolve_segments_eq_iff {own : List Bytes} {raw w : Bytes}
    (hw : w.Sublist (percentDecode raw)) (hin : ∀ b ∈ w, inPath b = true) :
    (resolve own (segments w)).map symbols =
        own.map symbols ++ (symbols raw).splitOn (.delim 0x2F) ↔
      w = percentDecode raw ∧ ReadsDecoded raw := by
  constructor
  · intro h
    obtain ⟨rfl, hunescaped, hdots⟩ := whole_of_resolve hw h
    rw [resolve_of_not_dots hdots, List.map_append, map_symbols_segments hin] at h
    have hsymbols := splitOn_injective _ (List.append_cancel_left h)
    exact ⟨rfl, readsDecoded_of_symbols hsymbols hunescaped hdots⟩
  · rintro ⟨rfl, h⟩
    rw [resolve_of_not_dots (h.not_dots hin), List.map_append, map_symbols_segments hin,
      h.map_unslash, h.symbols]

/-! ### Strings under a base -/

section Scan
variable {α : Type*} {p : α → Bool} {c : α}

theorem takeWhile_append_cons (hc : p c = false) (front rest : List α) :
    (front ++ c :: rest).takeWhile p = front.takeWhile p := by
  induction front with
  | nil => simp [hc]
  | cons a front ih =>
      rw [List.cons_append, List.takeWhile_cons, List.takeWhile_cons, ih]

theorem dropWhile_append_cons (hc : p c = false) (front rest : List α) :
    (front ++ c :: rest).dropWhile p = front.dropWhile p ++ c :: rest := by
  induction front with
  | nil => simp [hc]
  | cons a front ih =>
      rw [List.cons_append, List.dropWhile_cons, List.dropWhile_cons, ih]
      split <;> rfl

theorem rdropWhile_append_cons (hc : p c = false) (front rest : List α) :
    (front ++ c :: rest).rdropWhile p = front ++ c :: rest.rdropWhile p := by
  induction rest using List.reverseRecOn with
  | nil => simp [hc]
  | append_singleton rest b ih =>
      have hassoc : front ++ c :: (rest ++ [b]) = (front ++ c :: rest) ++ [b] := by simp
      rw [hassoc, List.rdropWhile_concat, List.rdropWhile_concat, ih]
      split
      · rfl
      · exact hassoc.symm

end Scan

theorem cleanEnd_append_cons {c : UInt8} (hblank : isBlank c = false)
    (hnewline : isTabOrNewline c = false) (front rest : Bytes) :
    cleanEnd (front ++ c :: rest) =
      (front.filter fun b => !isTabOrNewline b) ++ c :: cleanEnd rest := by
  rw [cleanEnd, rdropWhile_append_cons hblank, List.filter_append, List.filter_cons_of_pos]
  · rfl
  · simp [hnewline]

theorem cleanEnd_sublist (s : Bytes) : (cleanEnd s).Sublist s :=
  List.filter_sublist.trans (List.rdropWhile_prefix isBlank s).sublist

theorem cleanEnd_eq_self_iff {s : Bytes} :
    cleanEnd s = s ↔
      (∀ b ∈ s, isTabOrNewline b = false) ∧ ∀ h : s ≠ [], isBlank (s.getLast h) = false := by
  have hfilter : (s.filter fun b => !isTabOrNewline b) = s ↔ ∀ b ∈ s, isTabOrNewline b = false := by
    simp [List.filter_eq_self]
  have hblank : s.rdropWhile isBlank = s ↔ ∀ h : s ≠ [], isBlank (s.getLast h) = false := by
    simp [List.rdropWhile_eq_self_iff]
  rw [← hfilter, ← hblank]
  constructor
  · intro h
    have hrdrop : s.rdropWhile isBlank = s := by
      have hsub : (cleanEnd s).Sublist (s.rdropWhile isBlank) := List.filter_sublist
      rw [h] at hsub
      exact (List.rdropWhile_prefix isBlank s).sublist.antisymm hsub
    rw [cleanEnd, hrdrop] at h
    exact ⟨h, hrdrop⟩
  · rintro ⟨h, hrdrop⟩
    rw [cleanEnd, hrdrop, h]

theorem clean_append_slash (front rest : Bytes) :
    clean (front ++ 0x2F :: rest) =
      ((front.dropWhile isBlank).filter fun b => !isTabOrNewline b) ++ 0x2F :: cleanEnd rest := by
  rw [clean, dropWhile_append_cons (by decide), cleanEnd_append_cons (by decide) (by decide)]

private theorem ne_colon {s : Bytes} (h : 0x3A ∉ s) : ∀ b ∈ s, decide (b ≠ 0x3A) = true := by
  intro b hb
  rw [decide_eq_true_eq]
  rintro rfl
  exact h hb

theorem split_append_colon {scheme : Bytes} (h : 0x3A ∉ scheme) (rest : Bytes) :
    split (scheme ++ 0x3A :: rest) =
      if scheme.map lower ∈ schemes ∧ (rest.dropWhile isSlash).takeWhile inAuthority ≠ [] then
        some (scheme.map lower, (rest.dropWhile isSlash).takeWhile inAuthority,
          (rest.dropWhile isSlash).dropWhile inAuthority)
      else none := by
  have htake : (scheme ++ 0x3A :: rest).takeWhile (fun b => b ≠ 0x3A) = scheme := by
    rw [takeWhile_append_cons (by decide)]
    exact List.takeWhile_eq_self_iff.mpr (ne_colon h)
  have hdrop : ((scheme ++ 0x3A :: rest).dropWhile fun b => b ≠ 0x3A).drop 1 = rest := by
    rw [dropWhile_append_cons (by decide), List.dropWhile_eq_nil_iff.mpr (ne_colon h)]
    rfl
  rw [split, htake, hdrop]

/-- No scheme goes on to a slash. -/
theorem colon_mem_of_split {x : Bytes} {parts : Bytes × Bytes × Bytes}
    (h : split (x ++ [0x2F]) = some parts) : 0x3A ∈ x := by
  by_contra hcolon
  have hall : (x ++ [0x2F]).takeWhile (fun b => b ≠ 0x3A) = x ++ [0x2F] := by
    apply List.takeWhile_eq_self_iff.mpr
    apply ne_colon
    simpa using hcolon
  have hslash : ∀ s ∈ schemes, 0x2F ∉ s := by decide
  rw [split, hall] at h
  split_ifs at h with hscheme
  exact hslash _ hscheme.1 (List.mem_map.mpr ⟨0x2F, by simp, by decide⟩)

/-- Scheme and authority do not depend on what follows a slash behind them. -/
theorem split_append_slash {x scheme authority tail : Bytes}
    (h : split (x ++ [0x2F]) = some (scheme, authority, tail)) :
    ∃ t, tail = t ++ [0x2F] ∧
      ∀ w, split (x ++ 0x2F :: w) = some (scheme, authority, t ++ 0x2F :: w) := by
  obtain ⟨front, x, rfl, hfront⟩ := List.eq_append_cons_of_mem (colon_mem_of_split h)
  have hsplit (w : Bytes) := split_append_colon hfront (x ++ 0x2F :: w)
  simp only [List.append_assoc, List.cons_append] at h ⊢
  simp only [hsplit] at h ⊢
  cases hx : x.dropWhile isSlash with
  | nil =>
      have hempty : (x ++ [0x2F]).dropWhile isSlash = [] := by
        rw [List.dropWhile_append, hx]
        decide
      rw [hempty] at h
      split_ifs at h with hscheme
      exact absurd rfl hscheme.2
  | cons b y =>
      have hrest (w : Bytes) : (x ++ 0x2F :: w).dropWhile isSlash = (b :: y) ++ 0x2F :: w := by
        rw [List.dropWhile_append, hx]
        rfl
      simp only [hrest, takeWhile_append_cons (show inAuthority 0x2F = false by decide),
        dropWhile_append_cons (show inAuthority 0x2F = false by decide)] at h ⊢
      split_ifs at h ⊢ with hscheme
      · obtain ⟨rfl, rfl, rfl⟩ : _ ∧ _ ∧ _ := by
          simpa only [Option.some.injEq, Prod.mk.injEq] using h
        exact ⟨_, rfl, fun w => rfl⟩

/-! The path ends where the query or the fragment begins. -/

theorem queryOf_append {t : Bytes} (ht : ∀ b ∈ t, inPath b = true) (w : Bytes) :
    queryOf (t ++ w) = queryOf w := by
  rw [queryOf, queryOf, List.dropWhile_append, if_pos]
  simpa using ht

theorem pathOf_append_slash {t : Bytes} (ht : ∀ b ∈ t, inPath b = true) :
    ∃ own, ∀ w, pathOf (t ++ 0x2F :: w) = resolve own (segments (w.takeWhile inPath)) := by
  have htake (w : Bytes) : (t ++ 0x2F :: w).takeWhile inPath = t ++ 0x2F :: w.takeWhile inPath := by
    rw [List.takeWhile_append_of_pos ht]
    rfl
  cases t with
  | nil => exact ⟨[], fun w => rfl⟩
  | cons c t =>
      refine ⟨(segments t).foldl enter [], fun w => ?_⟩
      have hsegments (v : Bytes) : segments (t ++ 0x2F :: v) = segments t ++ segments v := by
        rw [segments, List.splitOnP_append_cons t v (by decide), List.map_append]
        rfl
      have hne : segments (w.takeWhile inPath) ≠ [] := by
        simp [segments]
      rw [pathOf, htake, List.cons_append, List.drop_one, List.tail_cons, hsegments,
        resolve_append hne]

theorem pathOf_append_of_not_inPath {t : Bytes} (h : ¬ ∀ b ∈ t, inPath b = true) (w : Bytes) :
    pathOf (t ++ w) = pathOf t := by
  have htake : (t ++ w).takeWhile inPath = t.takeWhile inPath := by
    rw [List.takeWhile_append, if_neg]
    intro hlength
    apply h
    apply List.takeWhile_eq_self_iff.mp
    exact (List.takeWhile_prefix inPath).eq_of_length hlength
  rw [pathOf, pathOf, htake]

/-- A path without a query and a fragment behind it. -/
theorem plain_iff {t : Bytes} :
    queryOf t = none ∧ fragmentOf t = none ↔ ∀ b ∈ t, inPath b = true := by
  constructor
  · rintro ⟨hquery, hfragment⟩
    apply List.dropWhile_eq_nil_iff.mp
    have hstop := List.head?_dropWhile_not inPath t
    cases hdrop : t.dropWhile inPath with
    | nil => rfl
    | cons c q =>
        rw [hdrop] at hstop
        rcases not_inPath_iff.mp hstop with rfl | rfl
        · simp [queryOf, hdrop] at hquery
        · have hmem : 0x23 ∈ t := (List.dropWhile_suffix inPath).mem (hdrop ▸ List.mem_cons_self)
          obtain ⟨front, rest, rfl, -⟩ := List.eq_append_cons_of_mem hmem
          rw [fragmentOf, dropWhile_append_cons (by decide)] at hfragment
          split at hfragment
          · cases hfragment
          · rename_i hnil
            exact absurd hnil (by simp)
  · intro h
    have hdrop : t.dropWhile inPath = [] := List.dropWhile_eq_nil_iff.mpr h
    have hhash : (t.dropWhile fun b => b ≠ 0x23) = [] := by
      apply List.dropWhile_eq_nil_iff.mpr
      intro b hb
      have hin := h b hb
      simp only [inPath, Bool.and_eq_true] at hin
      exact hin.2
    simp only [queryOf, fragmentOf, hdrop, hhash]
    exact ⟨trivial, trivial⟩

section Base
variable {host : Bytes → Option Bytes} {b : Bytes} {base : Url}

/-- What stands behind the authority is read alone. -/
theorem parse_append_slash (h : parse host (b ++ [0x2F]) = some base) :
    ∃ t, base = ⟨base.scheme, base.authority, pathOf (t ++ [0x2F]), queryOf (t ++ [0x2F]),
        fragmentOf (t ++ [0x2F])⟩ ∧
      ∀ w, parse host (b ++ 0x2F :: w) = some ⟨base.scheme, base.authority,
        pathOf (t ++ 0x2F :: cleanEnd w), queryOf (t ++ 0x2F :: cleanEnd w),
        fragmentOf (t ++ 0x2F :: cleanEnd w)⟩ := by
  rw [parse, clean_append_slash] at h
  have hnil : cleanEnd [] = [] := rfl
  rw [hnil] at h
  obtain ⟨⟨scheme, authority, tail⟩, hsplit, h⟩ := Option.bind_eq_some_iff.mp h
  obtain ⟨authority', hhost, h⟩ := Option.bind_eq_some_iff.mp h
  obtain ⟨t, rfl, hw⟩ := split_append_slash hsplit
  obtain rfl := Option.some.inj h
  refine ⟨t, rfl, fun w => ?_⟩
  rw [parse, clean_append_slash, hw, Option.bind_eq_bind, Option.bind_some]
  simp only [hhost]
  rfl

/-- A path under a base without query and fragment. -/
theorem parse_under (h : parse host (b ++ [0x2F]) = some base) (hquery : base.query = none)
    (hfragment : base.fragment = none) :
    ∃ own, base.path = own ++ [[]] ∧ ∀ w, ∃ url, parse host (b ++ 0x2F :: w) = some url ∧
      url.path = resolve own (segments ((cleanEnd w).takeWhile inPath)) ∧
      url.query = queryOf (cleanEnd w) := by
  obtain ⟨t, hbase, hw⟩ := parse_append_slash h
  have hin : ∀ b ∈ t ++ [0x2F], inPath b = true := by
    rw [hbase] at hquery hfragment
    exact plain_iff.mp ⟨hquery, hfragment⟩
  have ht : ∀ b ∈ t, inPath b = true := fun b hb => hin b (List.mem_append_left _ hb)
  obtain ⟨own, hown⟩ := pathOf_append_slash ht
  refine ⟨own, ?_, fun w => ⟨_, hw w, hown _, ?_⟩⟩
  · rw [hbase]
    exact hown []
  · have hsplit : t ++ 0x2F :: cleanEnd w = (t ++ [0x2F]) ++ cleanEnd w := by simp
    rw [hsplit]
    exact queryOf_append hin (cleanEnd w)

/-- With a query or a fragment in the base, nothing behind it reaches the path. -/
theorem parse_under_query (h : parse host (b ++ [0x2F]) = some base)
    (hplain : ¬ (base.query = none ∧ base.fragment = none)) (w : Bytes) :
    ∃ url, parse host (b ++ 0x2F :: w) = some url ∧ url.path = base.path := by
  obtain ⟨t, hbase, hw⟩ := parse_append_slash h
  refine ⟨_, hw w, ?_⟩
  have ht : ¬ ∀ b ∈ t, inPath b = true := by
    intro ht
    apply hplain
    rw [hbase]
    apply plain_iff.mpr
    intro b hb
    rcases List.mem_append.mp hb with hb | hb
    · exact ht b hb
    · exact List.mem_singleton.mp hb ▸ rfl
  rw [hbase]
  exact (pathOf_append_of_not_inPath ht _).trans (pathOf_append_of_not_inPath ht _).symm

end Base

end Url
