import LlmCacheProxy.Foundation.Calendar
import LlmCacheProxy.Foundation.Text
import Mathlib.Algebra.Ring.Nat
import Mathlib.Data.Bool.AllAny

/-!
# Printed instants

Date and time are printed in digits of a fixed width. The fraction of the second
is printed with no digits, with three, six or nine, the fewest that are exact,
and the offset follows it. A shorter fraction compares as if its zeros were
there, because the offset begins with a byte that is smaller than a digit, and
than the point.
-/

namespace Rfc3339

open Calendar

/-! ### The first difference -/

section Below

variable {α : Type*} [LT α] {s t : List α}

/-- Smaller at the first difference, whatever follows. -/
def Below (s t : List α) : Prop := ∀ u v, s ++ u < t ++ v

theorem Below.append (h : Below s t) (u v : List α) : Below (s ++ u) (t ++ v) := by
  intro u' v'
  rw [List.append_assoc, List.append_assoc]
  exact h _ _

theorem Below.append_left (h : Below s t) (p : List α) : Below (p ++ s) (p ++ t) := by
  intro u v
  rw [List.append_assoc, List.append_assoc]
  exact List.append_left_lt (h u v)

theorem Below.cons (h : Below s t) (a : α) : Below (a :: s) (a :: t) := h.append_left [a]

theorem below_cons {a b : α} (h : a < b) (s t : List α) : Below (a :: s) (b :: t) :=
  fun _ _ => List.cons_lt_cons_iff.mpr (Or.inl h)

end Below

/-! ### Digits -/

def digit (n : Nat) : UInt8 := UInt8.ofNat (0x30 + n)

theorem toNat_digit {n : Nat} (h : n < 10) : (digit n).toNat = 0x30 + n := by
  rw [digit, UInt8.toNat_ofNat']
  omega

/-- The last digits of a number, as many as the width says. -/
def digits : Nat → Nat → Bytes
  | 0, _ => []
  | width + 1, n => digits width (n / 10) ++ [digit (n % 10)]

theorem length_digits (width n : Nat) : (digits width n).length = width := by
  induction width generalizing n with
  | zero => rfl
  | succ width ih => rw [digits, List.length_append, ih, List.length_singleton]

theorem mem_digits {width n : Nat} {b : UInt8} (h : b ∈ digits width n) :
    0x30 ≤ b.toNat ∧ b.toNat < 0x3A := by
  induction width generalizing n with
  | zero => cases h
  | succ width ih =>
      rcases List.mem_append.mp h with h | h
      · exact ih h
      · have hdigit := toNat_digit (Nat.mod_lt n (show 0 < 10 by decide))
        rw [List.mem_singleton.mp h, hdigit]
        omega

theorem digits_zero (width : Nat) : digits width 0 = List.replicate width 0x30 := by
  induction width with
  | zero => rfl
  | succ width ih => rw [digits, Nat.zero_div, ih, List.replicate_succ']; rfl

theorem digits_add (v w n : Nat) :
    digits (v + w) n = digits v (n / 10 ^ w) ++ digits w n := by
  induction w generalizing n with
  | zero => simp [digits]
  | succ w ih =>
      rw [← Nat.add_assoc, digits, ih, digits, Nat.div_div_eq_div_mul, ← Nat.pow_succ',
        List.append_assoc]

/-- Only the last digits of a number count. -/
theorem digits_mod (width n : Nat) : digits width (n % 10 ^ width) = digits width n := by
  induction width generalizing n with
  | zero => rfl
  | succ width ih =>
      rw [digits, digits, Nat.pow_succ', Nat.mod_mul_right_div_self, ih, Nat.mod_mul_right_mod]

/-- A smaller number of the same width is below. -/
theorem below_digits {width m n : Nat} (h : m < n) (hn : n < 10 ^ width) :
    Below (digits width m) (digits width n) := by
  induction width generalizing m n with
  | zero => omega
  | succ width ih =>
      rw [digits, digits]
      by_cases hdiv : m / 10 = n / 10
      · rw [hdiv]
        apply Below.append_left
        apply below_cons
        rw [UInt8.lt_iff_toNat_lt, toNat_digit (Nat.mod_lt _ (by decide)),
          toNat_digit (Nat.mod_lt _ (by decide))]
        omega
      · exact (ih (by omega) (by rw [Nat.pow_succ] at hn; omega)).append _ _

/-! ### Fractions -/

/-- The offset of UTC. -/
def zone : Bytes := [0x2B, 0x30, 0x30, 0x3A, 0x30, 0x30]

/-- The fraction of a second in nanoseconds. -/
def fraction (nano : Nat) : Bytes :=
  if nano = 0 then []
  else if nano % 1000000 = 0 then 0x2E :: digits 3 (nano / 1000000)
  else if nano % 1000 = 0 then 0x2E :: digits 6 (nano / 1000)
  else 0x2E :: digits 9 nano

private theorem digits_nine {width i nano : Nat} (hw : width + i = 9)
    (h : nano % 10 ^ i = 0) :
    digits width (nano / 10 ^ i) ++ List.replicate i 0x30 = digits 9 nano := by
  rw [← hw, digits_add, ← digits_mod i nano, h, digits_zero]

/-- With its zeros a fraction has nine digits. -/
theorem fraction_padded {nano : Nat} (h : nano ≠ 0) :
    ∃ s i, fraction nano = 0x2E :: s ∧ s ++ List.replicate i 0x30 = digits 9 nano := by
  rw [fraction, if_neg h]
  split
  · rename_i hmilli
    exact ⟨_, 6, rfl, digits_nine (i := 6) rfl hmilli⟩
  split
  · rename_i hmicro
    exact ⟨_, 3, rfl, digits_nine (i := 3) rfl hmicro⟩
  · exact ⟨_, 0, rfl, List.append_nil _⟩

private theorem not_lt_zeros {s : Bytes} (hs : ∀ b ∈ s, 0x30 ≤ b.toNat) :
    ¬ s < List.replicate s.length 0x30 := by
  induction s with
  | nil => exact List.not_lt_nil _
  | cons b s ih =>
      rw [List.forall_mem_cons] at hs
      rw [List.length_cons, List.replicate_succ, List.cons_lt_cons_iff]
      rintro (hb | ⟨-, hrest⟩)
      · rw [UInt8.lt_iff_toNat_lt] at hb
        exact absurd hs.1 (Nat.not_le_of_lt hb)
      · exact ih hs.2 hrest

/-- Digits with their zeros cut off, and a sign behind them, compare as the
digits do: at the first difference the greater one has a digit that is not zero,
so it has not been cut off, and the smaller one has a smaller digit there, or
the sign before it. -/
theorem lt_of_padded {s t : Bytes} {i j : Nat} (hs : ∀ b ∈ s, 0x30 ≤ b.toNat)
    (ht : ∀ b ∈ t, 0x30 ≤ b.toNat) (hlen : s.length + i = t.length + j)
    (h : s ++ List.replicate i 0x30 < t ++ List.replicate j 0x30) (u v : Bytes) :
    s ++ 0x2B :: u < t ++ 0x2B :: v := by
  induction t generalizing s with
  | nil =>
      -- nothing of this length is smaller than zeros
      have hzeros : ∀ b ∈ s ++ List.replicate i 0x30, 0x30 ≤ b.toNat := by
        intro b hb
        rcases List.mem_append.mp hb with hb | hb
        · exact hs b hb
        · rw [List.eq_of_mem_replicate hb]
          decide
      have hlength : (s ++ List.replicate i (0x30 : UInt8)).length = j := by
        simpa using hlen
      have hnot := not_lt_zeros hzeros
      rw [hlength] at hnot
      exact absurd h hnot
  | cons b t ih =>
      rw [List.forall_mem_cons] at ht
      cases s with
      | nil =>
          have hsign : (0x2B : UInt8) < b := by
            rw [UInt8.lt_iff_toNat_lt]
            exact lt_of_lt_of_le (by decide) ht.1
          exact List.cons_lt_cons_iff.mpr (Or.inl hsign)
      | cons a s =>
          rw [List.forall_mem_cons] at hs
          rw [List.cons_append, List.cons_append, List.cons_lt_cons_iff] at h ⊢
          refine h.imp_right fun hrest => ⟨hrest.1, ih hs.2 ht.2 ?_ hrest.2⟩
          simp only [List.length_cons] at hlen
          omega

private theorem mem_padded {s : Bytes} {i nano : Nat}
    (h : s ++ List.replicate i 0x30 = digits 9 nano) : ∀ b ∈ s, 0x30 ≤ b.toNat :=
  fun _ hb => (mem_digits (h ▸ List.mem_append_left _ hb)).1

/-- Fractions of any lengths, with the offset behind them. -/
theorem fraction_lt {m n : Nat} (h : m < n) (hn : n < 1000000000) :
    fraction m ++ zone < fraction n ++ zone := by
  obtain ⟨t, j, ht, hpad⟩ := fraction_padded (Nat.ne_zero_of_lt h)
  by_cases hm : m = 0
  · -- the sign is smaller than the point
    subst hm
    rw [ht]
    exact List.cons_lt_cons_iff.mpr (Or.inl (by decide))
  · obtain ⟨s, i, hs, hpad'⟩ := fraction_padded hm
    have hlt : s ++ List.replicate i 0x30 < t ++ List.replicate j 0x30 := by
      rw [hpad, hpad']
      simpa using below_digits h hn [] []
    have hlen : s.length + i = t.length + j := by
      have hlength := (congrArg List.length hpad').trans
        ((length_digits 9 m).trans ((length_digits 9 n).symm.trans
          (congrArg List.length hpad).symm))
      simpa using hlength
    rw [hs, ht]
    exact List.cons_lt_cons_iff.mpr (Or.inr ⟨rfl,
      lt_of_padded (mem_padded hpad') (mem_padded hpad) hlen hlt _ _⟩)

/-! ### Dates and times -/

def dateBytes (d : Date) : Bytes :=
  digits 4 d.year ++ 0x2D :: (digits 2 d.month ++ 0x2D :: digits 2 d.day)

def clockBytes (t : TimeOfDay) : Bytes :=
  digits 2 t.hour ++ 0x3A :: (digits 2 t.minute ++ 0x3A :: digits 2 t.second)

/-- An instant of a year with four digits. -/
def bytes (u : Utc) : Bytes :=
  dateBytes u.date ++ 0x54 :: (clockBytes u.time ++ (fraction u.time.nano ++ zone))

theorem below_dateBytes {d e : Date} (h : d.dayNumber < e.dayNumber) (he : e.year ≤ 9999) :
    Below (dateBytes d) (dateBytes e) := by
  have hyear : e.year < 10 ^ 4 := Nat.lt_succ_of_le he
  have hmonth : e.month < 10 ^ 2 := lt_of_le_of_lt e.month_le (by decide)
  have hday : e.day < 10 ^ 2 :=
    lt_of_le_of_lt (e.day_le.trans (monthLength_le _ _)) (by decide)
  unfold dateBytes
  rcases Date.lt_of_dayNumber_lt h with hy | ⟨hy, hm | ⟨hm, hd⟩⟩
  · exact (below_digits hy hyear).append _ _
  · rw [hy]
    exact (((below_digits hm hmonth).append _ _).cons _).append_left _
  · rw [hy, hm]
    exact ((((below_digits hd hday).cons _).append_left _).cons _).append_left _

/-- A later time of day is below, or it is in the same second. -/
theorem below_clockBytes {s t : TimeOfDay} (h : s.nanos < t.nanos) :
    Below (clockBytes s) (clockBytes t) ∨ clockBytes s = clockBytes t ∧ s.nano < t.nano := by
  have hhour : t.hour < 10 ^ 2 := t.hour_lt.trans (by decide)
  have hminute : t.minute < 10 ^ 2 := t.minute_lt.trans (by decide)
  have hsecond : t.second < 10 ^ 2 := t.second_lt.trans (by decide)
  unfold clockBytes
  rcases TimeOfDay.lt_of_nanos_lt h with hh | ⟨hh, hm | ⟨hm, hs | ⟨hs, hn⟩⟩⟩
  · exact Or.inl ((below_digits hh hhour).append _ _)
  · left
    rw [hh]
    exact (((below_digits hm hminute).append _ _).cons _).append_left _
  · left
    rw [hh, hm]
    exact ((((below_digits hs hsecond).cons _).append_left _).cons _).append_left _
  · rw [hh, hm, hs]
    exact Or.inr ⟨rfl, hn⟩

theorem bytes_lt {u v : Utc} (h : u.nanos < v.nanos) (hv : v.date.year ≤ 9999) :
    bytes u < bytes v := by
  unfold bytes
  rcases Utc.lt_of_nanos_lt h with hdate | ⟨hdate, htime⟩
  · exact below_dateBytes hdate hv _ _
  · rw [hdate]
    apply List.append_left_lt
    apply List.cons_lt_cons_iff.mpr
    refine Or.inr ⟨rfl, ?_⟩
    rcases below_clockBytes htime with hclock | ⟨hclock, hnano⟩
    · exact hclock _ _
    · rw [hclock]
      exact List.append_left_lt (fraction_lt hnano v.time.nano_lt)

private theorem ascii_digits (width n : Nat) : ∀ b ∈ digits width n, b.toNat < 0x80 :=
  fun _ hb => (mem_digits hb).2.trans (by decide)

private theorem ascii_fraction (nano : Nat) : ∀ b ∈ fraction nano, b.toNat < 0x80 := by
  by_cases h : nano = 0
  · subst h
    exact fun _ hb => absurd hb List.not_mem_nil
  · obtain ⟨s, i, hs, hpad⟩ := fraction_padded h
    rw [hs, List.forall_mem_cons]
    exact ⟨by decide, fun b hb => ascii_digits 9 nano b (hpad ▸ List.mem_append_left _ hb)⟩

theorem ascii_bytes (u : Utc) : ∀ b ∈ bytes u, b.toNat < 0x80 := by
  simp only [bytes, dateBytes, clockBytes, List.forall_mem_append, List.forall_mem_cons]
  have hzone : ∀ b ∈ zone, b.toNat < 0x80 := List.all_iff_forall_prop.mp (by decide)
  exact ⟨⟨ascii_digits _ _, by decide, ascii_digits _ _, by decide, ascii_digits _ _⟩, by decide,
    ⟨ascii_digits _ _, by decide, ascii_digits _ _, by decide, ascii_digits _ _⟩,
    ascii_fraction _, hzone⟩

def print (u : Utc) : Text := ⟨bytes u, Utf8.valid_of_ascii (ascii_bytes u)⟩

/-- A later instant is printed as a greater text. -/
theorem print_lt {u v : Utc} (h : u.nanos < v.nanos) (hv : v.date.year ≤ 9999) :
    print u < print v :=
  Text.lt_of_bytes_lt (bytes_lt h hv)

end Rfc3339

open Calendar in
example : Rfc3339.print ⟨Date.first, TimeOfDay.ofNanos 1500000000⟩ =
    Text.ofString "0000-01-01T00:00:01.500+00:00" := by decide
