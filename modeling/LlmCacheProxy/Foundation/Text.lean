import LlmCacheProxy.Foundation.Utf8
import Mathlib.Data.List.Lex
import Mathlib.Order.Lattice
import Mathlib.Order.Lex

/-!
# Rust strings

A `Text` is a byte string together with the proof that it is UTF-8, as a Rust
`String` is. Slicing is partial: a cut inside a character is the panic of the
source, so an operation that returns a `Text` has been shown not to panic.
-/

/-- A Rust `String`: bytes that are valid UTF-8. -/
structure Text where
  bytes : Bytes
  valid : Utf8.Valid bytes

namespace Text

@[ext] theorem ext {s t : Text} (h : s.bytes = t.bytes) : s = t := by
  cases s
  cases t
  simpa using h

private theorem toNats_injective : Function.Injective fun t : Text => t.bytes.map UInt8.toNat :=
  fun _ _ h => Text.ext (List.map_injective_iff.mpr (fun _ _ => UInt8.toNat_inj.mp) h)

/-- Strings are ordered by their bytes. -/
instance : LinearOrder Text :=
  LinearOrder.lift' (fun t : Text => t.bytes.map UInt8.toNat) toNats_injective

theorem lt_of_bytes_lt {s t : Text} (h : s.bytes < t.bytes) : s < t :=
  List.map_lt (fun _ _ hlt => UInt8.lt_iff_toNat_lt.mp hlt) h

def empty : Text := ⟨[], Utf8.valid_nil⟩

instance : Inhabited Text := ⟨empty⟩

@[simp] theorem bytes_empty : empty.bytes = [] := rfl

theorem eq_empty_iff {t : Text} : t = empty ↔ t.bytes = [] :=
  ⟨fun h => h ▸ rfl, fun h => Text.ext h⟩

/-- `String::push_str`. -/
def append (s t : Text) : Text := ⟨s.bytes ++ t.bytes, s.valid.append t.valid⟩

instance : Append Text := ⟨append⟩

@[simp] theorem bytes_append (s t : Text) : (s ++ t).bytes = s.bytes ++ t.bytes := rfl

@[simp] theorem append_empty (s : Text) : s ++ empty = s := Text.ext (by simp)

@[simp] theorem empty_append (s : Text) : empty ++ s = s := Text.ext (by simp)

theorem append_assoc (s t u : Text) : s ++ t ++ u = s ++ (t ++ u) := Text.ext (by simp)

/-- The concatenation of several strings. -/
def concat (ts : List Text) : Text :=
  ⟨(ts.map Text.bytes).flatten, Utf8.Valid.flatten (by
    intro p hp
    obtain ⟨t, _, rfl⟩ := List.mem_map.mp hp
    exact t.valid)⟩

@[simp] theorem bytes_concat (ts : List Text) :
    (concat ts).bytes = (ts.map Text.bytes).flatten := rfl

@[simp] theorem concat_nil : concat [] = empty := rfl

@[simp] theorem concat_cons (t : Text) (ts : List Text) : concat (t :: ts) = t ++ concat ts :=
  Text.ext rfl

@[simp] theorem concat_append (ts us : List Text) :
    concat (ts ++ us) = concat ts ++ concat us := Text.ext (by simp)

theorem concat_eq_empty_iff {ts : List Text} : concat ts = empty ↔ ∀ t ∈ ts, t = empty := by
  simp only [eq_empty_iff, bytes_concat, List.flatten_eq_nil_iff, List.forall_mem_map]

/-- `String::len`, in bytes. -/
def length (t : Text) : Nat := t.bytes.length

@[simp] theorem length_bytes (t : Text) : t.bytes.length = t.length := rfl

/-- `str::from_utf8` on an owned buffer. -/
def ofUtf8? (bs : Bytes) : Option Text :=
  if h : Utf8.Valid bs then some ⟨bs, h⟩ else none

theorem ofUtf8?_eq_some {bs : Bytes} {t : Text} : ofUtf8? bs = some t ↔ t.bytes = bs := by
  unfold ofUtf8?
  split
  · simp only [Option.some.injEq]
    exact ⟨fun h => h ▸ rfl, fun h => (Text.ext h).symm⟩
  · rename_i hv
    constructor
    · intro h
      cases h
    · rintro rfl
      exact absurd t.valid hv

theorem ofUtf8?_eq_none {bs : Bytes} : ofUtf8? bs = none ↔ ¬ Utf8.Valid bs := by
  unfold ofUtf8?
  split <;> simp_all

/-- `String::from_utf8_lossy`. -/
def lossy (bs : Bytes) : Text := ⟨Utf8.lossy bs, Utf8.valid_lossy bs⟩

/-- The slices `&t[..i]` and `&t[i..]`; `none` is the panic of a cut inside a
character or past the end. -/
def splitAt? (t : Text) (i : Nat) : Option (Text × Text) :=
  if h : Utf8.isCharBoundary t.bytes i = true then
    some (⟨t.bytes.take i, Utf8.valid_take t.valid h⟩, ⟨t.bytes.drop i, Utf8.valid_drop t.valid h⟩)
  else none

theorem splitAt?_eq_some {t l r : Text} {i : Nat} (h : t.splitAt? i = some (l, r)) :
    Utf8.isCharBoundary t.bytes i = true ∧ l.bytes = t.bytes.take i ∧ r.bytes = t.bytes.drop i := by
  unfold splitAt? at h
  split at h
  · rename_i hb
    simp only [Option.some.injEq, Prod.mk.injEq] at h
    obtain ⟨rfl, rfl⟩ := h
    exact ⟨hb, rfl, rfl⟩
  · cases h

theorem splitAt?_isSome {t : Text} {i : Nat} (h : Utf8.isCharBoundary t.bytes i = true) :
    ∃ l r, t.splitAt? i = some (l, r) := by
  refine ⟨⟨t.bytes.take i, Utf8.valid_take t.valid h⟩,
    ⟨t.bytes.drop i, Utf8.valid_drop t.valid h⟩, ?_⟩
  simp [splitAt?, h]

/-! ### Searching -/

/-- `str::find`, on bytes: where the first occurrence of `pat` starts. -/
def find? (pat : Bytes) : Bytes → Option Nat
  | [] => if pat = [] then some 0 else none
  | b :: rest =>
      if pat.isPrefixOf (b :: rest) then some 0 else (find? pat rest).map (· + 1)

/-! ### Trimming -/

/-- `str::trim_end_matches` with an ASCII character. -/
def trimEndMatches (t : Text) (b : UInt8) (hb : b.toNat < 0x80) : Text where
  bytes := (t.bytes.reverse.dropWhile fun c => c = b).reverse
  valid := by
    have hsplit : t.bytes = (t.bytes.reverse.dropWhile fun c => c = b).reverse ++
        (t.bytes.reverse.takeWhile fun c => c = b).reverse := by
      rw [← List.reverse_append, List.takeWhile_append_dropWhile, List.reverse_reverse]
    have hv : Utf8.Valid _ := hsplit ▸ t.valid
    apply hv.of_append_ascii
    intro c hc
    have hc : c = b := by
      simpa using List.all_eq_true.mp List.all_takeWhile c (List.mem_reverse.mp hc)
    rwa [hc]

/-! ### Hexadecimal -/

/-- A lower-case hexadecimal digit. -/
def hexDigit (n : Nat) : UInt8 := UInt8.ofNat (if n < 10 then 0x30 + n else 0x57 + n)

private theorem toNat_hexDigit {n : Nat} (h : n < 16) :
    (hexDigit n).toNat = if n < 10 then 0x30 + n else 0x57 + n := by
  rw [hexDigit, UInt8.toNat_ofNat', Nat.mod_eq_of_lt]
  split <;> omega

private theorem hexDigit_inj {m n : Nat} (hm : m < 16) (hn : n < 16)
    (h : hexDigit m = hexDigit n) : m = n := by
  have h := congrArg UInt8.toNat h
  rw [toNat_hexDigit hm, toNat_hexDigit hn] at h
  split at h <;> split at h <;> omega

private theorem mem_hexDigits {bs : Bytes} {c : UInt8}
    (h : c ∈ bs.flatMap fun b => [hexDigit (b.toNat / 16), hexDigit (b.toNat % 16)]) :
    0x30 ≤ c.toNat ∧ c.toNat < 0x67 := by
  have hdigit {n : Nat} (hn : n < 16) :
      0x30 ≤ (hexDigit n).toNat ∧ (hexDigit n).toNat < 0x67 := by
    rw [toNat_hexDigit hn]
    split <;> omega
  obtain ⟨b, _, hc⟩ := List.mem_flatMap.mp h
  have hb := b.toNat_lt
  rcases List.mem_pair.mp hc with rfl | rfl
  · exact hdigit (by omega)
  · exact hdigit (by omega)

/-- Two digits for each byte. -/
def hex (bs : Bytes) : Text :=
  ⟨bs.flatMap fun b => [hexDigit (b.toNat / 16), hexDigit (b.toNat % 16)],
    Utf8.valid_of_ascii fun _ h => (mem_hexDigits h).2.trans (by decide)⟩

theorem mem_hex {bs : Bytes} {c : UInt8} (h : c ∈ (hex bs).bytes) :
    0x30 ≤ c.toNat ∧ c.toNat < 0x67 := mem_hexDigits h

theorem length_hex (bs : Bytes) : (hex bs).length = 2 * bs.length := by
  induction bs with
  | nil => rfl
  | cons b bs ih =>
      simp only [length, hex, List.flatMap_cons, List.length_append, List.length_cons] at ih ⊢
      rw [ih]
      simp
      omega

theorem hex_injective : Function.Injective hex := by
  intro xs ys h
  replace h : (hex xs).bytes = (hex ys).bytes := by rw [h]
  induction xs generalizing ys with
  | nil =>
      cases ys with
      | nil => rfl
      | cons y ys => simp [hex] at h
  | cons x xs ih =>
      cases ys with
      | nil => simp [hex] at h
      | cons y ys =>
          have hx := x.toNat_lt
          have hy := y.toNat_lt
          simp only [hex, List.flatMap_cons, List.cons_append, List.nil_append,
            List.cons.injEq] at h
          obtain ⟨hhigh, hlow, hrest⟩ := h
          have hhigh := hexDigit_inj (by omega) (by omega) hhigh
          have hlow := hexDigit_inj (by omega) (by omega) hlow
          have hxy : x = y := by
            apply UInt8.toNat_inj.mp
            omega
          rw [hxy, ih hrest]

/-- A hexadecimal string can be cut anywhere. -/
theorem splitAt?_hex {bs : Bytes} {i : Nat} (hi : i ≤ 2 * bs.length) :
    ∃ l r, (hex bs).splitAt? i = some (l, r) := by
  apply splitAt?_isSome
  apply (Utf8.isCharBoundary_iff (hex bs).valid (by rw [length_bytes, length_hex]; exact hi)).mpr
  exact Utf8.valid_of_ascii fun c hc => (mem_hex (List.mem_of_mem_take hc)).2.trans (by decide)

/-! ### Literals -/

private theorem toNat_ofNat_small {k : Nat} (hk : k < 256) : (UInt8.ofNat k).toNat = k := by
  rw [UInt8.toNat_ofNat']
  omega

/-- The last bytes of every encoding carry six bits each. -/
private theorem run_tail (v : Nat) (n : Nat) (bs : Bytes) :
    Utf8.run (.tail n) (UInt8.ofNat (v % 64 + 128) :: bs) =
      Utf8.run (if n = 0 then .boundary else .tail (n - 1)) bs := by
  have hc : Utf8.isContinuation (UInt8.ofNat (v % 64 + 128)) = true := by
    simp only [Utf8.isContinuation, toNat_ofNat_small (show v % 64 + 128 < 256 by omega),
      Bool.and_eq_true, decide_eq_true_eq]
    omega
  cases n with
  | zero => simp only [Utf8.run, Utf8.step, if_pos hc, if_pos]
  | succ n =>
      simp only [Utf8.run, Utf8.step, if_pos hc]
      rfl

private theorem valid_three {v : Nat} (hlo : 2047 < v) (hhi : v ≤ 65535)
    (hs : v < 0xD800 ∨ 0xDFFF < v) :
    Utf8.Valid [UInt8.ofNat (v / 4096 % 16 + 224), UInt8.ofNat (v / 64 % 64 + 128),
      UInt8.ofNat (v % 64 + 128)] := by
  have h₁ := toNat_ofNat_small (show v / 4096 % 16 + 224 < 256 by omega)
  have h₂ := toNat_ofNat_small (show v / 64 % 64 + 128 < 256 by omega)
  have hlast : Utf8.run (.tail 0) [UInt8.ofNat (v % 64 + 128)] = some .boundary := run_tail v 0 []
  rcases (show v / 4096 = 0 ∨ v / 4096 = 13 ∨ (v / 4096 ≠ 0 ∧ v / 4096 ≠ 13) by omega) with
    h | h | ⟨h, h'⟩
  · have hl : Utf8.lead (UInt8.ofNat (v / 4096 % 16 + 224)) = some .afterE0 := by
      simp [Utf8.lead, h]
    simp only [Utf8.Valid, Utf8.run, Utf8.step, hl, h₂]
    rw [if_pos (by omega)]
    exact hlast
  · have hl : Utf8.lead (UInt8.ofNat (v / 4096 % 16 + 224)) = some .afterED := by
      simp [Utf8.lead, h]
    simp only [Utf8.Valid, Utf8.run, Utf8.step, hl, h₂]
    rw [if_pos (by omega)]
    exact hlast
  · have hl : Utf8.lead (UInt8.ofNat (v / 4096 % 16 + 224)) = some (.tail 1) := by
      simp only [Utf8.lead, h₁]
      rw [if_neg (by omega), if_neg (by omega), if_neg (by omega), if_neg (by omega),
        if_neg (by omega), if_pos (by omega)]
    have hmid := run_tail (v / 64) 1 [UInt8.ofNat (v % 64 + 128)]
    simp only [Utf8.Valid, Utf8.run, Utf8.step, hl]
    exact hmid.trans hlast

private theorem valid_four {v : Nat} (hlo : 65535 < v) (hhi : v < 0x110000) :
    Utf8.Valid [UInt8.ofNat (v / 262144 % 8 + 240), UInt8.ofNat (v / 4096 % 64 + 128),
      UInt8.ofNat (v / 64 % 64 + 128), UInt8.ofNat (v % 64 + 128)] := by
  have h₁ := toNat_ofNat_small (show v / 262144 % 8 + 240 < 256 by omega)
  have h₂ := toNat_ofNat_small (show v / 4096 % 64 + 128 < 256 by omega)
  have hlast : Utf8.run (.tail 1) [UInt8.ofNat (v / 64 % 64 + 128), UInt8.ofNat (v % 64 + 128)] =
      some .boundary :=
    (run_tail (v / 64) 1 _).trans (run_tail v 0 [])
  rcases (show v / 262144 = 0 ∨ v / 262144 = 4 ∨ (v / 262144 ≠ 0 ∧ v / 262144 < 4) by omega) with
    h | h | ⟨h, h'⟩
  · have hl : Utf8.lead (UInt8.ofNat (v / 262144 % 8 + 240)) = some .afterF0 := by
      simp [Utf8.lead, h]
    simp only [Utf8.Valid, Utf8.run, Utf8.step, hl, h₂]
    rw [if_pos (by omega)]
    exact hlast
  · have hl : Utf8.lead (UInt8.ofNat (v / 262144 % 8 + 240)) = some .afterF4 := by
      simp [Utf8.lead, h]
    simp only [Utf8.Valid, Utf8.run, Utf8.step, hl, h₂]
    rw [if_pos (by omega)]
    exact hlast
  · have hl : Utf8.lead (UInt8.ofNat (v / 262144 % 8 + 240)) = some (.tail 2) := by
      simp only [Utf8.lead, h₁]
      rw [if_neg (by omega), if_neg (by omega), if_neg (by omega), if_neg (by omega),
        if_neg (by omega), if_neg (by omega), if_neg (by omega), if_pos (by omega)]
    have hmid := run_tail (v / 4096) 2
      [UInt8.ofNat (v / 64 % 64 + 128), UInt8.ofNat (v % 64 + 128)]
    simp only [Utf8.Valid, Utf8.run, Utf8.step, hl]
    exact hmid.trans hlast

/-- A character's own encoding is accepted by the automaton. -/
theorem valid_utf8EncodeChar (c : Char) : Utf8.Valid (String.utf8EncodeChar c) := by
  have hc : c.val.toNat < 0xD800 ∨ 0xDFFF < c.val.toNat ∧ c.val.toNat < 0x110000 := c.valid
  unfold String.utf8EncodeChar
  generalize c.val.toNat = v at hc
  simp only
  split
  · simp only [Utf8.Valid, Utf8.run, Utf8.step, Utf8.lead, toNat_ofNat_small (show v < 256 by omega)]
    rw [if_pos (by omega)]
  split
  · have h₁ := toNat_ofNat_small (show v / 64 % 32 + 192 < 256 by omega)
    have hl : Utf8.lead (UInt8.ofNat (v / 64 % 32 + 192)) = some (.tail 0) := by
      simp only [Utf8.lead, h₁]
      rw [if_neg (by omega), if_neg (by omega), if_pos (by omega)]
    simp only [Utf8.Valid, Utf8.run, Utf8.step, hl]
    exact run_tail v 0 []
  split
  · exact valid_three (by omega) (by omega) (by omega)
  · exact valid_four (by omega) (by omega)

/-- The text of a literal. -/
def ofString (s : String) : Text :=
  ⟨s.toList.flatMap String.utf8EncodeChar, by
    rw [List.flatMap_def]
    apply Utf8.Valid.flatten
    intro p hp
    obtain ⟨c, _, rfl⟩ := List.mem_map.mp hp
    exact valid_utf8EncodeChar c⟩

instance : Coe String Text := ⟨ofString⟩

end Text

example : ((("abc" : String) : Text)) < (("abd" : String) : Text) := by decide
example : Text.ofString "event" ≠ Text.ofString "data" := by decide
