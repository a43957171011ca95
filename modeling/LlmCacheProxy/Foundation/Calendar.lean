import Mathlib.Algebra.Order.Group.Unbundled.Int
import Mathlib.Tactic.Common

/-!
# The calendar and the clock

Days are counted from the first day of the year zero of the Gregorian calendar,
and instants in nanoseconds from the Unix epoch. Every day has one date, and a
later day has a later one.
-/

namespace Calendar

/-! ### Dates -/

def isLeap (year : Nat) : Bool := year % 4 = 0 && (year % 100 ≠ 0 || year % 400 = 0)

def yearLength (leap : Bool) : Nat := if leap then 366 else 365

def monthLength (leap : Bool) (month : Nat) : Nat :=
  if month = 2 then if leap then 29 else 28
  else if month = 4 ∨ month = 6 ∨ month = 9 ∨ month = 11 then 30
  else 31

/-- The days of the years before. -/
def daysBeforeYear : Nat → Nat
  | 0 => 0
  | year + 1 => daysBeforeYear year + yearLength (isLeap year)

/-- The days of the first months. -/
def daysOfMonths (leap : Bool) : Nat → Nat
  | 0 => 0
  | month + 1 => daysOfMonths leap month + monthLength leap (month + 1)

structure Date where
  year : Nat
  month : Nat
  day : Nat
  month_pos : 1 ≤ month
  month_le : month ≤ 12
  day_pos : 1 ≤ day
  day_le : day ≤ monthLength (isLeap year) month

namespace Date

theorem ext {d e : Date} (hy : d.year = e.year) (hm : d.month = e.month) (hd : d.day = e.day) :
    d = e := by
  cases d
  cases e
  simp_all

/-- The days before the date. -/
def dayNumber (d : Date) : Nat :=
  daysBeforeYear d.year + (daysOfMonths (isLeap d.year) (d.month - 1) + (d.day - 1))

end Date

theorem one_le_monthLength (leap : Bool) (month : Nat) : 1 ≤ monthLength leap month := by
  unfold monthLength
  split
  · split <;> decide
  split <;> decide

theorem monthLength_le (leap : Bool) (month : Nat) : monthLength leap month ≤ 31 := by
  unfold monthLength
  split
  · split <;> decide
  split <;> decide

theorem daysOfMonths_twelve (leap : Bool) : daysOfMonths leap 12 = yearLength leap := by
  cases leap <;> rfl

theorem daysOfMonths_mono (leap : Bool) : Monotone (daysOfMonths leap) :=
  monotone_nat_of_le_succ fun _ => Nat.le_add_right _ _

theorem daysBeforeYear_mono : Monotone daysBeforeYear :=
  monotone_nat_of_le_succ fun _ => Nat.le_add_right _ _

/-- The leap years before a year, counted. -/
theorem daysBeforeYear_eq (year : Nat) :
    daysBeforeYear year + (year + 99) / 100 =
      365 * year + (year + 3) / 4 + (year + 399) / 400 := by
  induction year with
  | zero => rfl
  | succ year ih =>
      rw [daysBeforeYear, yearLength]
      split
      · rename_i h
        simp only [isLeap, Bool.and_eq_true, Bool.or_eq_true, decide_eq_true_eq] at h
        omega
      · rename_i h
        have hcommon : year % 4 ≠ 0 ∨ year % 100 = 0 ∧ year % 400 ≠ 0 := by
          simpa [isLeap, imp_iff_not_or] using h
        rcases hcommon with hfour | hcentury
        · omega
        · omega

namespace Date

variable {d e : Date}

/-- A date comes before the end of its month. -/
theorem day_lt (d : Date) :
    daysOfMonths (isLeap d.year) (d.month - 1) + (d.day - 1) <
      daysOfMonths (isLeap d.year) d.month := by
  have hmonth : d.month = d.month - 1 + 1 := (Nat.sub_add_cancel d.month_pos).symm
  have hpos := d.day_pos
  have hle := d.day_le
  rw [hmonth] at hle
  rw [hmonth, daysOfMonths, Nat.add_sub_cancel]
  omega

theorem dayNumber_lt (d : Date) : d.dayNumber < daysBeforeYear (d.year + 1) := by
  have hyear : daysOfMonths (isLeap d.year) d.month ≤ yearLength (isLeap d.year) :=
    daysOfMonths_twelve (isLeap d.year) ▸ daysOfMonths_mono _ d.month_le
  exact Nat.add_lt_add_left (lt_of_lt_of_le d.day_lt hyear) _

theorem dayNumber_lt_of_year (h : d.year < e.year) : d.dayNumber < e.dayNumber :=
  calc
    d.dayNumber < daysBeforeYear (d.year + 1) := d.dayNumber_lt
    _ ≤ daysBeforeYear e.year := daysBeforeYear_mono h
    _ ≤ e.dayNumber := Nat.le_add_right _ _

theorem dayNumber_lt_of_month (hy : d.year = e.year) (h : d.month < e.month) :
    d.dayNumber < e.dayNumber := by
  have hle : daysOfMonths (isLeap d.year) d.month ≤
      daysOfMonths (isLeap e.year) (e.month - 1) :=
    hy ▸ daysOfMonths_mono _ (Nat.le_sub_one_of_lt h)
  have hlt := d.day_lt
  rw [dayNumber, dayNumber, ← hy]
  rw [← hy] at hle
  omega

theorem dayNumber_lt_of_day (hy : d.year = e.year) (hm : d.month = e.month) (h : d.day < e.day) :
    d.dayNumber < e.dayNumber := by
  have hpos := d.day_pos
  rw [dayNumber, dayNumber, ← hy, ← hm]
  omega

/-- A later day has a later year, or in it a later month, or in it a later day. -/
theorem lt_of_dayNumber_lt (h : d.dayNumber < e.dayNumber) :
    d.year < e.year ∨ d.year = e.year ∧
      (d.month < e.month ∨ d.month = e.month ∧ d.day < e.day) := by
  rcases lt_trichotomy d.year e.year with hy | hy | hy
  · exact Or.inl hy
  · refine Or.inr ⟨hy, ?_⟩
    rcases lt_trichotomy d.month e.month with hm | hm | hm
    · exact Or.inl hm
    · refine Or.inr ⟨hm, ?_⟩
      by_contra hday
      rcases Nat.lt_or_eq_of_le (Nat.le_of_not_lt hday) with hd | hd
      · exact absurd h (dayNumber_lt_of_day hy.symm hm.symm hd).asymm
      · exact absurd (Date.ext hy hm hd.symm ▸ h) (lt_irrefl _)
    · exact absurd h (dayNumber_lt_of_month hy.symm hm).asymm
  · exact absurd h (dayNumber_lt_of_year hy).asymm

theorem dayNumber_injective : Function.Injective dayNumber := by
  intro d e h
  rcases lt_trichotomy d.year e.year with hy | hy | hy
  · exact absurd h (dayNumber_lt_of_year hy).ne
  · rcases lt_trichotomy d.month e.month with hm | hm | hm
    · exact absurd h (dayNumber_lt_of_month hy hm).ne
    · rcases lt_trichotomy d.day e.day with hd | hd | hd
      · exact absurd h (dayNumber_lt_of_day hy hm hd).ne
      · exact Date.ext hy hm hd
      · exact absurd h (dayNumber_lt_of_day hy.symm hm.symm hd).ne'
    · exact absurd h (dayNumber_lt_of_month hy.symm hm).ne'
  · exact absurd h (dayNumber_lt_of_year hy).ne'

/-! ### Every day has a date -/

def first : Date := ⟨0, 1, 1, by decide, by decide, by decide, by decide⟩

/-- The date of the next day. -/
def next (d : Date) : Date :=
  if hd : d.day < monthLength (isLeap d.year) d.month then
    { d with day := d.day + 1, day_pos := Nat.le_add_left _ _, day_le := hd }
  else if hm : d.month < 12 then
    ⟨d.year, d.month + 1, 1, Nat.le_add_left _ _, hm, le_rfl, one_le_monthLength _ _⟩
  else ⟨d.year + 1, 1, 1, le_rfl, by decide, le_rfl, one_le_monthLength _ _⟩

theorem dayNumber_next (d : Date) : d.next.dayNumber = d.dayNumber + 1 := by
  have hpos := d.day_pos
  have hle := d.day_le
  have hmonth : d.month = d.month - 1 + 1 := (Nat.sub_add_cancel d.month_pos).symm
  have hdays : daysOfMonths (isLeap d.year) d.month =
      daysOfMonths (isLeap d.year) (d.month - 1) + monthLength (isLeap d.year) d.month := by
    conv_lhs => rw [hmonth, daysOfMonths, ← hmonth]
  unfold next
  split
  · simp only [dayNumber]
    omega
  split
  · simp only [dayNumber, Nat.add_sub_cancel]
    omega
  · have htwelve : d.month = 12 := by
      have hmax := d.month_le
      omega
    -- the last day of the year
    rw [htwelve, daysOfMonths_twelve] at hdays
    rw [htwelve] at hle
    simp only [dayNumber, daysBeforeYear, Nat.sub_self, daysOfMonths, htwelve] at *
    omega

/-- The date of a day, reached day by day. -/
def ofDays : Nat → Date
  | 0 => first
  | n + 1 => (ofDays n).next

theorem dayNumber_ofDays (n : Nat) : (ofDays n).dayNumber = n := by
  induction n with
  | zero => rfl
  | succ n ih => rw [ofDays, dayNumber_next, ih]

end Date

/-! ### Instants -/

structure TimeOfDay where
  hour : Nat
  minute : Nat
  second : Nat
  nano : Nat
  hour_lt : hour < 24
  minute_lt : minute < 60
  second_lt : second < 60
  nano_lt : nano < 1000000000

namespace TimeOfDay

variable {s t : TimeOfDay}

theorem ext (hh : s.hour = t.hour) (hm : s.minute = t.minute) (hs : s.second = t.second)
    (hn : s.nano = t.nano) : s = t := by
  cases s
  cases t
  simp_all

/-- The nanoseconds since midnight. -/
def nanos (t : TimeOfDay) : Nat := ((t.hour * 60 + t.minute) * 60 + t.second) * 1000000000 + t.nano

theorem nanos_lt (t : TimeOfDay) : t.nanos < 86400000000000 := by
  obtain ⟨hour, minute, second, nano, hh, hm, hs, hn⟩ := t
  simp only [nanos]
  omega

theorem lt_of_nanos_lt (h : s.nanos < t.nanos) :
    s.hour < t.hour ∨ s.hour = t.hour ∧
      (s.minute < t.minute ∨ s.minute = t.minute ∧
        (s.second < t.second ∨ s.second = t.second ∧ s.nano < t.nano)) := by
  obtain ⟨hour, minute, second, nano, hh, hm, hs, hn⟩ := s
  obtain ⟨hour', minute', second', nano', hh', hm', hs', hn'⟩ := t
  simp only [nanos] at h ⊢
  omega

theorem nanos_injective : Function.Injective nanos := by
  rintro ⟨hour, minute, second, nano, hh, hm, hs, hn⟩
    ⟨hour', minute', second', nano', hh', hm', hs', hn'⟩ h
  simp only [nanos] at h
  apply ext <;> simp only <;> omega

def ofNanos (n : Nat) : TimeOfDay where
  hour := n / 3600000000000 % 24
  minute := n / 60000000000 % 60
  second := n / 1000000000 % 60
  nano := n % 1000000000
  hour_lt := Nat.mod_lt _ (by decide)
  minute_lt := Nat.mod_lt _ (by decide)
  second_lt := Nat.mod_lt _ (by decide)
  nano_lt := Nat.mod_lt _ (by decide)

theorem nanos_ofNanos {n : Nat} (h : n < 86400000000000) : (ofNanos n).nanos = n := by
  simp only [nanos, ofNanos]
  omega

end TimeOfDay

/-- An instant by its date and time in UTC. -/
structure Utc where
  date : Date
  time : TimeOfDay

/-- The nanoseconds from the beginning of the year zero to the Unix epoch. -/
def epoch : Nat := 719528 * 86400000000000

namespace Utc

variable {u v : Utc}

/-- The nanoseconds since the beginning of the year zero. -/
def sinceZero (u : Utc) : Nat := u.date.dayNumber * 86400000000000 + u.time.nanos

/-- The nanoseconds since the epoch. -/
def nanos (u : Utc) : Int := u.sinceZero - epoch

theorem lt_of_nanos_lt (h : u.nanos < v.nanos) :
    u.date.dayNumber < v.date.dayNumber ∨ u.date = v.date ∧ u.time.nanos < v.time.nanos := by
  have hu := u.time.nanos_lt
  have hv := v.time.nanos_lt
  simp only [nanos, sinceZero] at h
  rcases lt_trichotomy u.date.dayNumber v.date.dayNumber with hd | hd | hd
  · exact Or.inl hd
  · exact Or.inr ⟨Date.dayNumber_injective hd, by omega⟩
  · omega

theorem nanos_injective : Function.Injective nanos := by
  rintro ⟨date, time⟩ ⟨date', time'⟩ h
  have hu := time.nanos_lt
  have hv := time'.nanos_lt
  simp only [nanos, sinceZero] at h
  have hdate : date = date' := Date.dayNumber_injective (by omega)
  have htime : time = time' := TimeOfDay.nanos_injective (by omega)
  rw [hdate, htime]

/-- The date and time of an instant from the year zero on. -/
def ofNanos (t : Int) : Utc where
  date := Date.ofDays ((t + epoch).toNat / 86400000000000)
  time := TimeOfDay.ofNanos ((t + epoch).toNat % 86400000000000)

theorem nanos_ofNanos {t : Int} (h : -epoch ≤ t) : (ofNanos t).nanos = t := by
  have htime := TimeOfDay.nanos_ofNanos
    (Nat.mod_lt (t + epoch).toNat (show 0 < 86400000000000 by decide))
  simp only [nanos, sinceZero, ofNanos, Date.dayNumber_ofDays, htime]
  omega

theorem ofNanos_nanos (u : Utc) : ofNanos u.nanos = u :=
  nanos_injective (nanos_ofNanos (by simp only [nanos]; omega))

end Utc

/-- The instants of the years 0000 to 9999. -/
def InYears (t : Int) : Prop := ∃ u : Utc, u.date.year ≤ 9999 ∧ u.nanos = t

/-- They are all instants from `0000-01-01T00:00:00` on and before
`10000-01-01T00:00:00`. -/
theorem inYears_iff {t : Int} :
    InYears t ↔ -62167219200000000000 ≤ t ∧ t < 253402300800000000000 := by
  have hend := daysBeforeYear_eq 10000
  constructor
  · rintro ⟨u, hyear, rfl⟩
    have hdate := u.date.dayNumber_lt
    have hmono := daysBeforeYear_mono (show u.date.year + 1 ≤ 10000 by omega)
    have htime := u.time.nanos_lt
    simp only [Utc.nanos, Utc.sinceZero, epoch]
    omega
  · rintro ⟨hlow, hhigh⟩
    have hnanos := Utc.nanos_ofNanos (t := t) (by simp only [epoch]; omega)
    refine ⟨Utc.ofNanos t, ?_, hnanos⟩
    by_contra hyear
    have hmono := daysBeforeYear_mono (show 10000 ≤ (Utc.ofNanos t).date.year by omega)
    have hle : daysBeforeYear (Utc.ofNanos t).date.year ≤ (Utc.ofNanos t).date.dayNumber :=
      Nat.le_add_right _ _
    simp only [Utc.nanos, Utc.sinceZero, epoch] at hnanos
    omega

end Calendar
