import LlmCacheProxy.Foundation.Utf8
import Mathlib.Algebra.Ring.Nat
import Mathlib.Data.Bool.AllAny
import Mathlib.Data.List.Infix

/-!
# Components of a URI

A path or a query is a sequence of symbols. A reserved character that is written
as such is a delimiter, and an escape of it is not. Of every other character the
escape means the same as the character itself. Two components are the same when
their symbols are.
-/

namespace Uri

/-! ### Symbols -/

inductive Symbol where
  | delim (b : UInt8)
  /-- A percent sign that begins no escape. -/
  | percent
  | octet (b : UInt8)
  deriving DecidableEq

/-- `:/?#[]@!$&'()*+,;=`. -/
def reserved : Bytes :=
  [0x3A, 0x2F, 0x3F, 0x23, 0x5B, 0x5D, 0x40, 0x21, 0x24, 0x26, 0x27, 0x28, 0x29, 0x2A, 0x2B, 0x2C,
    0x3B, 0x3D]

/-- A byte that is not part of an escape. -/
def literal (b : UInt8) : Symbol :=
  if b = 0x25 then .percent else if b ∈ reserved then .delim b else .octet b

/-- The byte a symbol stands for. -/
def Symbol.byte : Symbol → UInt8
  | .delim b => b
  | .percent => 0x25
  | .octet b => b

@[simp] theorem byte_literal (b : UInt8) : (literal b).byte = b := by
  unfold literal
  split
  · rename_i h
    exact h.symm
  split <;> rfl

theorem map_byte_literal (s : Bytes) : (s.map literal).map Symbol.byte = s := by
  rw [List.map_map]
  exact (List.map_congr_left fun b _ => byte_literal b).trans (List.map_id s)

/-- The value of a hexadecimal digit. -/
def hexValue (b : UInt8) : Option UInt8 :=
  if 0x30 ≤ b.toNat ∧ b.toNat ≤ 0x39 then some (b - 0x30)
  else if 0x41 ≤ b.toNat ∧ b.toNat ≤ 0x46 then some (b - 0x37)
  else if 0x61 ≤ b.toNat ∧ b.toNat ≤ 0x66 then some (b - 0x57)
  else none

/-- The byte of an escape. -/
def escaped (a b c : UInt8) : Option UInt8 :=
  if a = 0x25 then (hexValue b).bind fun x => (hexValue c).map fun y => x * 16 + y else none

/-- The byte of an escape in front. -/
def escape? : Bytes → Option UInt8
  | a :: b :: c :: _ => escaped a b c
  | _ => none

def symbols : Bytes → List Symbol
  | [] => []
  | [a] => [literal a]
  | [a, b] => [literal a, literal b]
  | a :: b :: c :: rest =>
      match escaped a b c with
      | some v => .octet v :: symbols rest
      | none => literal a :: symbols (b :: c :: rest)

/-- Every escape replaced by its byte. -/
def percentDecode (s : Bytes) : Bytes := (symbols s).map Symbol.byte

theorem symbols_escape {a b c v : UInt8} (h : escaped a b c = some v) (s : Bytes) :
    symbols (a :: b :: c :: s) = .octet v :: symbols s := by
  rw [symbols, h]

theorem symbols_literal {a : UInt8} {s : Bytes} (h : escape? (a :: s) = none) :
    symbols (a :: s) = literal a :: symbols s := by
  cases s with
  | nil => rfl
  | cons b s =>
      cases s with
      | nil => rfl
      | cons c s =>
          have h : escaped a b c = none := h
          rw [symbols, h]

/-- A component is read escape by escape and literal by literal. -/
theorem symbolsInduction {P : Bytes → Prop} (nil : P [])
    (escape : ∀ a b c v s, escaped a b c = some v → P s → P (a :: b :: c :: s))
    (literal : ∀ a s, escape? (a :: s) = none → P s → P (a :: s)) (s : Bytes) : P s := by
  induction s using symbols.induct with
  | case1 => exact nil
  | case2 a => exact literal a [] rfl nil
  | case3 a b => exact literal a [b] rfl (literal b [] rfl nil)
  | case4 a b c s v h ih => exact escape a b c v s h ih
  | case5 a b c s h ih => exact literal a (b :: c :: s) h ih

theorem escaped_of_ne {a : UInt8} (h : a ≠ 0x25) (b c : UInt8) : escaped a b c = none := if_neg h

theorem escape?_of_ne {a : UInt8} (h : a ≠ 0x25) (s : Bytes) : escape? (a :: s) = none := by
  cases s with
  | nil => rfl
  | cons b s =>
      cases s with
      | nil => rfl
      | cons c s => exact escaped_of_ne h b c

theorem escaped_eq_some {a b c v : UInt8} (h : escaped a b c = some v) :
    a = 0x25 ∧ (hexValue b).isSome = true ∧ (hexValue c).isSome = true := by
  unfold escaped at h
  split at h
  · rename_i ha
    obtain ⟨x, hx, hrest⟩ := Option.bind_eq_some_iff.mp h
    obtain ⟨y, hy, -⟩ := Option.map_eq_some_iff.mp hrest
    exact ⟨ha, by simp [hx], by simp [hy]⟩
  · cases h

theorem symbols_ne_nil {s : Bytes} (h : s ≠ []) : symbols s ≠ [] := by
  induction s using symbolsInduction with
  | nil => exact absurd rfl h
  | escape a b c v s hv ih => exact symbols_escape hv s ▸ List.cons_ne_nil _ _
  | literal a s ha ih => exact symbols_literal ha ▸ List.cons_ne_nil _ _

theorem length_symbols_le (s : Bytes) : (symbols s).length ≤ s.length := by
  induction s using symbolsInduction with
  | nil => exact le_rfl
  | escape a b c v s h ih =>
      rw [symbols_escape h]
      simp only [List.length_cons]
      omega
  | literal a s h ih =>
      rw [symbols_literal h]
      exact Nat.succ_le_succ ih

/-! ### Components without escapes -/

/-- No escape anywhere. -/
def Unescaped (s : Bytes) : Prop := ∀ a b c, [a, b, c] <:+: s → escaped a b c = none

theorem Unescaped.tail {a : UInt8} {s : Bytes} (h : Unescaped (a :: s)) : Unescaped s :=
  fun _ _ _ hin => h _ _ _ (hin.trans (List.suffix_cons a s).isInfix)

theorem Unescaped.escape? {a : UInt8} {s : Bytes} (h : Unescaped (a :: s)) :
    escape? (a :: s) = none := by
  cases s with
  | nil => rfl
  | cons b s =>
      cases s with
      | nil => rfl
      | cons c s => exact h a b c (List.prefix_append [a, b, c] s).isInfix

theorem Unescaped.symbols {s : Bytes} (h : Unescaped s) : symbols s = s.map literal := by
  induction s with
  | nil => rfl
  | cons a s ih => rw [symbols_literal h.escape?, ih h.tail, List.map_cons]

/-- An escape makes a component shorter. -/
theorem unescaped_of_length {s : Bytes} (h : (symbols s).length = s.length) : Unescaped s := by
  induction s using symbolsInduction with
  | nil =>
      intro a b c hin
      exact absurd (List.infix_nil.mp hin) (List.cons_ne_nil _ _)
  | escape a b c v s hv ih =>
      rw [symbols_escape hv] at h
      have hle := length_symbols_le s
      simp only [List.length_cons] at h
      omega
  | literal a s ha ih =>
      rw [symbols_literal ha] at h
      intro x y z hin
      rcases List.infix_cons_iff.mp hin with hpre | hin
      · obtain ⟨t, ht⟩ := hpre
        rw [← ht] at ha
        exact ha
      · exact ih (Nat.succ.inj h) x y z hin

/-! ### Components in parts -/

/-- No escape reaches beyond a byte that is not a hexadecimal digit. -/
theorem symbols_append_cons {c : UInt8} (hc : hexValue c = none) (s t : Bytes) :
    symbols (s ++ c :: t) = symbols s ++ symbols (c :: t) := by
  have hsecond (a b : UInt8) : escaped a b c = none := by
    by_contra h
    obtain ⟨v, hv⟩ := Option.ne_none_iff_exists'.mp h
    have hsome := (escaped_eq_some hv).2.2
    rw [hc] at hsome
    cases hsome
  have hfirst (a b : UInt8) : escaped a c b = none := by
    by_contra h
    obtain ⟨v, hv⟩ := Option.ne_none_iff_exists'.mp h
    have hsome := (escaped_eq_some hv).2.1
    rw [hc] at hsome
    cases hsome
  induction s using symbolsInduction with
  | nil => rfl
  | escape a b d v s hv ih =>
      rw [symbols_escape hv, List.cons_append, List.cons_append, List.cons_append,
        symbols_escape hv, ih, List.cons_append]
  | literal a s ha ih =>
      have hkeep : escape? (a :: (s ++ c :: t)) = none := by
        cases s with
        | nil =>
            cases t with
            | nil => rfl
            | cons b t => exact hfirst a b
        | cons b s =>
            cases s with
            | nil => exact hsecond a b
            | cons d s => exact ha
      rw [symbols_literal ha, List.cons_append, symbols_literal hkeep, ih, List.cons_append]

/-! ### Delimiters -/

theorem ne_percent_of_reserved {b : UInt8} (hb : b ∈ reserved) : b ≠ 0x25 := by
  rintro rfl
  exact absurd hb (by decide)

theorem literal_of_reserved {b : UInt8} (hb : b ∈ reserved) : literal b = .delim b := by
  rw [literal, if_neg (ne_percent_of_reserved hb), if_pos hb]

theorem hexValue_of_reserved {b : UInt8} (hb : b ∈ reserved) : hexValue b = none := by
  have hall : ∀ c ∈ reserved, hexValue c = none := List.all_iff_forall_prop.mp (by decide)
  exact hall b hb

theorem literal_eq_delim_iff {a b : UInt8} : literal a = .delim b ↔ b ∈ reserved ∧ b = a := by
  constructor
  · intro h
    obtain rfl : a = b := (byte_literal a).symm.trans (congrArg Symbol.byte h)
    refine ⟨?_, rfl⟩
    unfold literal at h
    split_ifs at h with h₁ h₂
    exact h₂
  · rintro ⟨hb, rfl⟩
    exact literal_of_reserved hb

/-- A delimiter is the only spelling of itself. -/
theorem delim_mem_symbols_iff {b : UInt8} {s : Bytes} :
    .delim b ∈ symbols s ↔ b ∈ reserved ∧ b ∈ s := by
  induction s using symbolsInduction with
  | nil => simp [symbols]
  | escape x y z v s hv ih =>
      obtain ⟨rfl, hy, hz⟩ := escaped_eq_some hv
      have hne {w : UInt8} (hb : b ∈ reserved) (hw : (hexValue w).isSome = true) : b ≠ w := by
        rintro rfl
        rw [hexValue_of_reserved hb] at hw
        cases hw
      rw [symbols_escape hv, List.mem_cons, ih]
      constructor
      · rintro (h | ⟨hb, hmem⟩)
        · cases h
        · exact ⟨hb, by simp [hmem]⟩
      · rintro ⟨hb, hmem⟩
        simp only [List.mem_cons, ne_percent_of_reserved hb, hne hb hy, hne hb hz, false_or] at hmem
        exact Or.inr ⟨hb, hmem⟩
  | literal a s ha ih =>
      rw [symbols_literal ha, List.mem_cons, List.mem_cons, ih, eq_comm, literal_eq_delim_iff,
        and_or_left]

theorem delim_not_mem_symbols {b : UInt8} {s : Bytes} (h : b ∉ s) : .delim b ∉ symbols s :=
  fun hmem => h (delim_mem_symbols_iff.mp hmem).2

theorem symbols_append_delim {b : UInt8} (hb : b ∈ reserved) (s t : Bytes) :
    symbols (s ++ b :: t) = symbols s ++ .delim b :: symbols t := by
  rw [symbols_append_cons (hexValue_of_reserved hb),
    symbols_literal (escape?_of_ne (ne_percent_of_reserved hb) t), literal_of_reserved hb]

theorem percentDecode_append_delim {b : UInt8} (hb : b ∈ reserved) (s t : Bytes) :
    percentDecode (s ++ b :: t) = percentDecode s ++ b :: percentDecode t := by
  rw [percentDecode, symbols_append_delim hb, List.map_append, List.map_cons]
  rfl

/-! ### Segments -/

/-- A list is read up to its first separator. -/
theorem splitInduction {α : Type*} {a : α} {P : List α → Prop} (whole : ∀ l, a ∉ l → P l)
    (cut : ∀ front rest, a ∉ front → P rest → P (front ++ a :: rest)) (l : List α) : P l := by
  induction hlen : l.length using Nat.strong_induction_on generalizing l with
  | _ n ih =>
      subst hlen
      by_cases hmem : a ∈ l
      · obtain ⟨front, rest, rfl, hfront⟩ := List.eq_append_cons_of_mem hmem
        have hlt : rest.length < (front ++ a :: rest).length := by
          rw [List.length_append, List.length_cons]
          omega
        exact cut front rest hfront (ih rest.length hlt rest rfl)
      · exact whole l hmem

theorem infix_of_mem_splitOn {α : Type*} [DecidableEq α] {a : α} {s l : List α}
    (h : s ∈ l.splitOn a) : s <:+: l := by
  induction l using splitInduction (a := a) with
  | whole l hl =>
      rw [List.splitOn_eq_singleton hl, List.mem_singleton] at h
      exact h ▸ List.infix_rfl
  | cut front rest hfront ih =>
      rw [List.splitOn_append_cons_self_of_not_mem hfront, List.mem_cons] at h
      rcases h with rfl | h
      · exact (List.prefix_append s (a :: rest)).isInfix
      · have hsuffix : rest <:+ front ++ a :: rest :=
          (List.suffix_cons a rest).trans (List.suffix_append front (a :: rest))
        exact (ih h).trans hsuffix.isInfix

/-- Every separator is one element. -/
theorem sum_length_splitOn {α : Type*} [DecidableEq α] (a : α) (l : List α) :
    ((l.splitOn a).map fun s => s.length + 1).sum = l.length + 1 := by
  induction l using splitInduction (a := a) with
  | whole l hl => simp [List.splitOn_eq_singleton hl]
  | cut front rest hfront ih =>
      rw [List.splitOn_append_cons_self_of_not_mem hfront, List.map_cons, List.sum_cons, ih,
        List.length_append, List.length_cons]
      omega

theorem splitOn_injective {α : Type*} [DecidableEq α] (a : α) :
    Function.Injective (List.splitOn a : List α → List (List α)) := by
  intro l l' h
  calc
    l = [a].intercalate (l.splitOn a) := (List.intercalate_splitOn a).symm
    _ = [a].intercalate (l'.splitOn a) := by rw [h]
    _ = l' := List.intercalate_splitOn a

/-- Cutting at a delimiter commutes with reading the symbols. -/
theorem splitOn_symbols {b : UInt8} (hb : b ∈ reserved) (s : Bytes) :
    (symbols s).splitOn (.delim b) = (s.splitOn b).map symbols := by
  induction s using splitInduction (a := b) with
  | whole s hs =>
      rw [List.splitOn_eq_singleton hs,
        List.splitOn_eq_singleton (delim_not_mem_symbols hs)]
      rfl
  | cut front rest hfront ih =>
      rw [symbols_append_delim hb,
        List.splitOn_append_cons_self_of_not_mem (delim_not_mem_symbols hfront),
        List.splitOn_append_cons_self_of_not_mem hfront, ih, List.map_cons]

end Uri
