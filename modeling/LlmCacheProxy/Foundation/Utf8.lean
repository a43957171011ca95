import Mathlib.Data.Nat.Find
import Mathlib.Data.List.Basic
import Mathlib.Data.List.Induction
import Mathlib.Tactic.Common

/-!
# UTF-8 read one byte at a time

A byte string is well-formed UTF-8 when the automaton below returns to the
boundary state on its last byte. Character boundaries, the longest valid
prefix and lossy decoding are read off the same automaton, so every fact about
cutting a string at a byte offset is a fact about where the automaton stands.
-/

/-- Raw bytes, as read from or written to a stream. -/
abbrev Bytes := List UInt8

namespace Utf8

/-- The position of the automaton relative to the characters of the string. -/
inductive State where
  | boundary
  /-- `more + 1` continuation bytes are owed, with no further restriction. -/
  | tail (more : Nat)
  | afterE0
  | afterED
  | afterF0
  | afterF4
  deriving DecidableEq, Repr

/-- The bytes `0x80` to `0xBF`, which never start a character. -/
def isContinuation (b : UInt8) : Bool := 0x80 ≤ b.toNat && b.toNat ≤ 0xBF

/-- One byte read from a character boundary. -/
def lead (b : UInt8) : Option State :=
  let n := b.toNat
  if n < 0x80 then some .boundary
  else if n < 0xC2 then none
  else if n < 0xE0 then some (.tail 0)
  else if n = 0xE0 then some .afterE0
  else if n = 0xED then some .afterED
  else if n < 0xF0 then some (.tail 1)
  else if n = 0xF0 then some .afterF0
  else if n < 0xF4 then some (.tail 2)
  else if n = 0xF4 then some .afterF4
  else none

/-- One byte read from any state; `none` where UTF-8 cannot continue. -/
def step : State → UInt8 → Option State
  | .boundary, b => lead b
  | .tail 0, b => if isContinuation b then some .boundary else none
  | .tail (n + 1), b => if isContinuation b then some (.tail n) else none
  | .afterE0, b => if 0xA0 ≤ b.toNat ∧ b.toNat ≤ 0xBF then some (.tail 0) else none
  | .afterED, b => if 0x80 ≤ b.toNat ∧ b.toNat ≤ 0x9F then some (.tail 0) else none
  | .afterF0, b => if 0x90 ≤ b.toNat ∧ b.toNat ≤ 0xBF then some (.tail 1) else none
  | .afterF4, b => if 0x80 ≤ b.toNat ∧ b.toNat ≤ 0x8F then some (.tail 1) else none

/-- The state after a whole byte string. -/
def run : State → Bytes → Option State
  | s, [] => some s
  | s, b :: bs =>
      match step s b with
      | some s' => run s' bs
      | none => none

/-- Well-formed UTF-8: every character that starts also ends. -/
def Valid (bs : Bytes) : Prop := run .boundary bs = some .boundary

instance (bs : Bytes) : Decidable (Valid bs) :=
  inferInstanceAs (Decidable (run .boundary bs = some .boundary))

@[simp] theorem run_nil (s : State) : run s [] = some s := rfl

theorem run_append (s : State) (xs ys : Bytes) :
    run s (xs ++ ys) = (run s xs).bind fun s' => run s' ys := by
  induction xs generalizing s with
  | nil => rfl
  | cons b rest ih =>
      simp only [List.cons_append, run]
      cases step s b with
      | none => rfl
      | some s' => exact ih s'

@[simp] theorem valid_nil : Valid [] := rfl

theorem Valid.append {xs ys : Bytes} (hx : Valid xs) (hy : Valid ys) : Valid (xs ++ ys) := by
  unfold Valid at *
  rw [run_append, hx]
  exact hy

/-- After a valid prefix, the rest is valid exactly when the whole is. -/
theorem Valid.append_iff {xs ys : Bytes} (hx : Valid xs) : Valid (xs ++ ys) ↔ Valid ys := by
  unfold Valid at *
  rw [run_append, hx]
  rfl

theorem Valid.flatten {parts : List Bytes} (h : ∀ p ∈ parts, Valid p) : Valid parts.flatten := by
  induction parts with
  | nil => exact valid_nil
  | cons p rest ih =>
      rw [List.flatten_cons]
      exact (h p (by simp)).append (ih fun q hq => h q (by simp [hq]))

/-- No character starts with a continuation byte. -/
theorem lead_not_continuation {b : UInt8} {s : State} (h : lead b = some s) :
    isContinuation b = false := by
  simp only [lead] at h
  by_contra hc
  have hb : 0x80 ≤ b.toNat ∧ b.toNat ≤ 0xBF := by
    simpa [isContinuation] using hc
  rw [if_neg (by omega), if_pos (by omega)] at h
  cases h

/-- Inside a character only continuation bytes are accepted. -/
theorem step_inner_continuation {s s' : State} {b : UInt8} (hs : s ≠ .boundary)
    (h : step s b = some s') : isContinuation b = true := by
  have hb : isContinuation b = true ↔ 0x80 ≤ b.toNat ∧ b.toNat ≤ 0xBF := by
    simp [isContinuation]
  cases s with
  | boundary => exact absurd rfl hs
  | tail n =>
      cases n <;> simp only [step] at h <;> split at h <;> simp_all
  | afterE0 | afterED | afterF0 | afterF4 =>
      rw [hb]
      simp only [step] at h
      split at h
      · omega
      · cases h

/-- An ASCII byte is read at a character boundary only. -/
theorem step_ascii {b : UInt8} (hb : b.toNat < 0x80) (s : State) :
    step s b = if s = .boundary then some .boundary else none := by
  have hc : isContinuation b = false := by
    simp only [isContinuation, Bool.and_eq_false_iff, decide_eq_false_iff_not]
    omega
  cases s with
  | boundary => simp [step, lead, hb]
  | tail n => cases n <;> simp [step, hc]
  | afterE0 => simp only [step]; rw [if_neg (by omega)]; rfl
  | afterED => simp only [step]; rw [if_neg (by omega)]; rfl
  | afterF0 => simp only [step]; rw [if_neg (by omega)]; rfl
  | afterF4 => simp only [step]; rw [if_neg (by omega)]; rfl

theorem valid_of_ascii {bs : Bytes} (h : ∀ b ∈ bs, b.toNat < 0x80) : Valid bs := by
  induction bs with
  | nil => exact valid_nil
  | cons b rest ih =>
      have hb : step .boundary b = some .boundary := step_ascii (h b (by simp)) .boundary
      simp only [Valid, run, hb]
      exact ih fun c hc => h c (by simp [hc])

/-- What is left after ASCII characters are taken off the end is text. -/
theorem Valid.of_append_ascii {xs ys : Bytes} (h : Valid (xs ++ ys))
    (hy : ∀ b ∈ ys, b.toNat < 0x80) : Valid xs := by
  cases ys with
  | nil => simpa using h
  | cons b ys =>
      rw [Valid, run_append] at h
      cases hs : run .boundary xs with
      | none => simp [hs] at h
      | some s =>
          have hb := step_ascii (hy b (by simp)) s
          by_cases hbound : s = .boundary
          · rw [Valid, hs, hbound]
          · simp [hs, run, hb, hbound] at h

/-! ### Character boundaries -/

/-- Rust's `str::is_char_boundary`: decided by looking at one byte only. -/
def isCharBoundary (bs : Bytes) (i : Nat) : Bool :=
  if i = 0 then true
  else match bs[i]? with
    | some b => !isContinuation b
    | none => i == bs.length

@[simp] theorem isCharBoundary_zero (bs : Bytes) : isCharBoundary bs 0 = true := by
  simp [isCharBoundary]

@[simp] theorem isCharBoundary_length (bs : Bytes) : isCharBoundary bs bs.length = true := by
  by_cases h : bs.length = 0 <;> simp [isCharBoundary, h]

theorem isCharBoundary_le {bs : Bytes} {i : Nat} (h : isCharBoundary bs i = true) :
    i ≤ bs.length := by
  by_contra hlt
  have hi : i ≠ 0 := by omega
  have hnone : bs[i]? = none := List.getElem?_eq_none (by omega)
  simp only [isCharBoundary, if_neg hi, hnone, beq_iff_eq] at h
  omega

/-- In a valid string the byte test is exact: it holds where the bytes before
are themselves a valid string, and nowhere else. -/
theorem isCharBoundary_iff {bs : Bytes} (hv : Valid bs) {i : Nat} (hi : i ≤ bs.length) :
    isCharBoundary bs i = true ↔ Valid (bs.take i) := by
  rcases Nat.eq_or_lt_of_le hi with rfl | hlt
  · simpa using hv
  have hsplit : run .boundary bs =
      (run .boundary (bs.take i)).bind fun s => run s (bs.drop i) := by
    rw [← run_append, List.take_append_drop]
  rw [show run .boundary bs = some .boundary from hv] at hsplit
  obtain ⟨s, hs⟩ : ∃ s, run .boundary (bs.take i) = some s := by
    cases hr : run .boundary (bs.take i) with
    | none => simp [hr] at hsplit
    | some s => exact ⟨s, rfl⟩
  rw [hs, Option.bind_some, List.drop_eq_getElem_cons hlt] at hsplit
  obtain ⟨s', hs'⟩ : ∃ s', step s bs[i] = some s' := by
    cases hr : step s bs[i] with
    | none => simp [run, hr] at hsplit
    | some s' => exact ⟨s', rfl⟩
  have htest : i ≠ 0 → isCharBoundary bs i = !isContinuation bs[i] := by
    intro h0
    simp [isCharBoundary, h0, List.getElem?_eq_getElem hlt]
  by_cases h0 : i = 0
  · simp [h0]
  rw [htest h0]
  unfold Valid
  rw [hs]
  constructor
  · intro hnc
    by_contra hne
    have := step_inner_continuation (fun h => hne (congrArg some h)) hs'
    simp [this] at hnc
  · intro heq
    obtain rfl : s = .boundary := by simpa using heq
    have hc : isContinuation bs[i] = false := lead_not_continuation hs'
    simp [hc]

theorem valid_take {bs : Bytes} (hv : Valid bs) {i : Nat} (h : isCharBoundary bs i = true) :
    Valid (bs.take i) :=
  (isCharBoundary_iff hv (isCharBoundary_le h)).mp h

theorem valid_drop {bs : Bytes} (hv : Valid bs) {i : Nat} (h : isCharBoundary bs i = true) :
    Valid (bs.drop i) := by
  have ht := valid_take hv h
  rwa [← ht.append_iff, List.take_append_drop]

/-- A boundary of what follows a cut is a boundary of the whole. -/
theorem isCharBoundary_drop {bs : Bytes} {t i : Nat} (hi : i ≠ 0) (ht : t ≤ bs.length) :
    isCharBoundary (bs.drop t) i = isCharBoundary bs (t + i) := by
  have hne : t + i ≠ 0 := by omega
  simp only [isCharBoundary, if_neg hi, if_neg hne, List.getElem?_drop, List.length_drop]
  cases bs[t + i]? with
  | some b => rfl
  | none =>
      have h : (i = bs.length - t) ↔ (t + i = bs.length) := by omega
      rw [Bool.eq_iff_iff, beq_iff_eq, beq_iff_eq]
      exact h

/-- Walk back from `i` to the nearest character boundary. -/
def floorCharBoundary (bs : Bytes) : Nat → Nat
  | 0 => 0
  | i + 1 => if isCharBoundary bs (i + 1) then i + 1 else floorCharBoundary bs i

theorem floorCharBoundary_le (bs : Bytes) (i : Nat) : floorCharBoundary bs i ≤ i := by
  induction i with
  | zero => simp [floorCharBoundary]
  | succ i ih =>
      simp only [floorCharBoundary]
      split
      · exact le_rfl
      · omega

theorem isCharBoundary_floor (bs : Bytes) (i : Nat) :
    isCharBoundary bs (floorCharBoundary bs i) = true := by
  induction i with
  | zero => simp [floorCharBoundary]
  | succ i ih =>
      simp only [floorCharBoundary]
      split
      · assumption
      · exact ih

/-- The walk stops at the last boundary not after `i`. -/
theorem le_floorCharBoundary {bs : Bytes} {i j : Nat} (hj : isCharBoundary bs j = true)
    (hji : j ≤ i) : j ≤ floorCharBoundary bs i := by
  induction i with
  | zero => omega
  | succ i ih =>
      simp only [floorCharBoundary]
      split
      · exact hji
      · rename_i hnot
        have hne : j ≠ i + 1 := by
          rintro rfl
          exact hnot hj
        exact ih (by omega)

theorem floorCharBoundary_eq_self {bs : Bytes} {i : Nat} (h : isCharBoundary bs i = true) :
    floorCharBoundary bs i = i :=
  le_antisymm (floorCharBoundary_le bs i) (le_floorCharBoundary h le_rfl)

/-- Behind a boundary, walking back does not look at what is in front of it. -/
theorem floorCharBoundary_drop {bs : Bytes} {t i : Nat} (ht : isCharBoundary bs t = true)
    (hti : t ≤ i) : floorCharBoundary (bs.drop t) (i - t) = floorCharBoundary bs i - t := by
  have htl : t ≤ bs.length := isCharBoundary_le ht
  have hboundary {j : Nat} (hj : j ≠ 0) :
      isCharBoundary (bs.drop t) j = isCharBoundary bs (t + j) := isCharBoundary_drop hj htl
  apply le_antisymm
  · by_cases hzero : floorCharBoundary (bs.drop t) (i - t) = 0
    · omega
    · have hb := isCharBoundary_floor (bs.drop t) (i - t)
      rw [hboundary hzero] at hb
      have hle := floorCharBoundary_le (bs.drop t) (i - t)
      have := le_floorCharBoundary hb (show t + _ ≤ i by omega)
      omega
  · have hle := floorCharBoundary_le bs i
    have htf := le_floorCharBoundary ht hti
    by_cases hzero : floorCharBoundary bs i - t = 0
    · omega
    · apply le_floorCharBoundary
      · rw [hboundary hzero, Nat.add_sub_cancel' htf]
        exact isCharBoundary_floor bs i
      · omega

/-! ### Unfinished characters -/

/-- The continuation bytes that the character being read still takes. -/
def State.owed : State → Nat
  | .boundary => 0
  | .tail n => n + 1
  | .afterE0 | .afterED => 2
  | .afterF0 | .afterF4 => 3

theorem State.owed_pos {s : State} (h : s ≠ .boundary) : 0 < s.owed := by
  cases s with
  | boundary => exact absurd rfl h
  | tail n => exact Nat.succ_pos n
  | afterE0 | afterED | afterF0 | afterF4 => decide

theorem owed_lead {b : UInt8} {s : State} (h : lead b = some s) : s.owed ≤ 3 := by
  simp only [lead] at h
  split_ifs at h <;> cases h <;> decide

/-- Inside a character each byte pays one of those owed. -/
theorem owed_step {s s' : State} {b : UInt8} (hs : s ≠ .boundary) (h : step s b = some s') :
    s'.owed + 1 = s.owed := by
  cases s with
  | boundary => exact absurd rfl hs
  | tail n =>
      cases n with
      | zero | succ n =>
          simp only [step, Option.ite_none_right_eq_some] at h
          obtain ⟨-, rfl⟩ := by simpa using h
          rfl
  | afterE0 | afterED | afterF0 | afterF4 =>
      simp only [step, Option.ite_none_right_eq_some] at h
      obtain ⟨-, rfl⟩ := by simpa using h
      rfl

/-- What the automaton accepts is text and at most three bytes of one more
character. -/
theorem exists_unfinished {bs : Bytes} {s : State} (h : run .boundary bs = some s) :
    ∃ front part, bs = front ++ part ∧ Valid front ∧ part.length ≤ 3 ∧
      (s = .boundary → part = []) := by
  suffices hbytes : ∃ front part, bs = front ++ part ∧ Valid front ∧
      (s ≠ .boundary → part.length + s.owed ≤ 4) ∧ (s = .boundary → part = []) by
    obtain ⟨front, part, heq, hfront, howed, hpart⟩ := hbytes
    refine ⟨front, part, heq, hfront, ?_, hpart⟩
    by_cases hs : s = .boundary
    · simp [hpart hs]
    · have := howed hs
      have := State.owed_pos hs
      omega
  induction bs using List.reverseRecOn generalizing s with
  | nil =>
      obtain rfl : State.boundary = s := by simpa using h
      exact ⟨[], [], rfl, valid_nil, fun hne => absurd rfl hne, fun _ => rfl⟩
  | append_singleton bs b ih =>
      rw [run_append] at h
      obtain ⟨s₀, hrun, hstep⟩ := Option.bind_eq_some_iff.mp h
      have hstep : step s₀ b = some s := by
        cases hb : step s₀ b with
        | none => simp [run, hb] at hstep
        | some s₁ => simpa [run, hb] using hstep
      by_cases hs : s = .boundary
      · subst hs
        have hvalid : Valid (bs ++ [b]) := by
          rw [Valid, run_append]
          exact h
        exact ⟨bs ++ [b], [], (List.append_nil _).symm, hvalid, fun hne => absurd rfl hne,
          fun _ => rfl⟩
      · obtain ⟨front, part, rfl, hfront, howed, hpart⟩ := ih hrun
        refine ⟨front, part ++ [b], List.append_assoc .., hfront, fun _ => ?_,
          fun hb => absurd hb hs⟩
        rw [List.length_append, List.length_singleton]
        by_cases hs₀ : s₀ = .boundary
        · subst hs₀
          have := owed_lead hstep
          simp only [hpart rfl, List.length_nil]
          omega
        · have := owed_step hs₀ hstep
          have := howed hs₀
          omega

/-- A prefix of a text is text and at most three bytes. -/
theorem Valid.exists_unfinished {xs ys : Bytes} (h : Valid (xs ++ ys)) :
    ∃ front part, xs = front ++ part ∧ Valid front ∧ part.length ≤ 3 := by
  rw [Valid, run_append] at h
  obtain ⟨s, hrun, -⟩ := Option.bind_eq_some_iff.mp h
  obtain ⟨front, part, heq, hfront, hlen, -⟩ := Utf8.exists_unfinished hrun
  exact ⟨front, part, heq, hfront, hlen⟩

/-- In a text the walk back ends within three bytes. -/
theorem le_floorCharBoundary_add {bs : Bytes} (hv : Valid bs) {i : Nat} (hi : i ≤ bs.length) :
    i ≤ floorCharBoundary bs i + 3 := by
  rw [← List.take_append_drop i bs] at hv
  obtain ⟨front, part, heq, hfront, hlen⟩ := hv.exists_unfinished
  rw [List.take_append_drop] at hv
  have hsum := congrArg List.length heq
  rw [List.length_take, List.length_append, Nat.min_eq_left hi] at hsum
  have htake : bs.take front.length = front := by
    have := congrArg (List.take front.length) heq
    rwa [List.take_take, Nat.min_eq_left (by omega), List.take_left] at this
  have hb : isCharBoundary bs front.length = true :=
    (isCharBoundary_iff hv (by omega)).mpr (by rwa [htake])
  have := le_floorCharBoundary hb (show front.length ≤ i by omega)
  omega

/-! ### Longest valid prefix and lossy decoding -/

/-- `Utf8Error::valid_up_to`: the greatest length whose prefix is valid. -/
def validUpTo (bs : Bytes) : Nat := Nat.findGreatest (fun i => Valid (bs.take i)) bs.length

theorem valid_take_validUpTo (bs : Bytes) : Valid (bs.take (validUpTo bs)) :=
  Nat.findGreatest_spec (P := fun i => Valid (bs.take i)) (m := 0) (Nat.zero_le _) (by simp)

/-- Of a prefix of a text at most three bytes are behind its last character. -/
theorem Valid.length_le_validUpTo {xs ys : Bytes} (h : Valid (xs ++ ys)) :
    xs.length ≤ validUpTo xs + 3 := by
  obtain ⟨front, part, rfl, hfront, hlen⟩ := h.exists_unfinished
  have hle : front.length ≤ (front ++ part).length := by
    rw [List.length_append]
    exact Nat.le_add_right _ _
  have : front.length ≤ validUpTo (front ++ part) :=
    Nat.le_findGreatest hle (by rwa [List.take_left])
  rw [List.length_append]
  omega

/-- What is cut off after the longest valid prefix is not valid unless the
whole string is. -/
theorem not_valid_drop_validUpTo {bs : Bytes} (h : ¬ Valid bs) :
    ¬ Valid (bs.drop (validUpTo bs)) := by
  rwa [← (valid_take_validUpTo bs).append_iff, List.take_append_drop]

/-- U+FFFD, written for each maximal invalid sequence. -/
def replacement : Bytes := [0xEF, 0xBF, 0xBD]

/-- Lossy decoding with `part` the bytes of the character being read. A byte
that cannot continue the character ends it and is then read afresh. -/
def lossyFrom (s : State) (part : Bytes) : Bytes → Bytes
  | [] => if s = .boundary then [] else replacement
  | b :: bs =>
      match step s b with
      | some .boundary => part ++ b :: lossyFrom .boundary [] bs
      | some s' => lossyFrom s' (part ++ [b]) bs
      | none =>
          if s = .boundary then replacement ++ lossyFrom .boundary [] bs
          else replacement ++
            match lead b with
            | some .boundary => b :: lossyFrom .boundary [] bs
            | some s' => lossyFrom s' [b] bs
            | none => replacement ++ lossyFrom .boundary [] bs

/-- `String::from_utf8_lossy`. -/
def lossy (bs : Bytes) : Bytes := lossyFrom .boundary [] bs

/-- Up to a character boundary everything is kept. -/
theorem lossyFrom_append {s : State} {part bs : Bytes} (hpart : s = .boundary → part = [])
    (h : run s bs = some .boundary) (later : Bytes) :
    lossyFrom s part (bs ++ later) = part ++ bs ++ lossyFrom .boundary [] later := by
  induction bs generalizing s part with
  | nil =>
      obtain rfl : s = .boundary := by simpa using h
      simp [hpart rfl]
  | cons b rest ih =>
      cases hs : step s b with
      | none => simp [run, hs] at h
      | some s' =>
          have hrest : run s' rest = some .boundary := by simpa [run, hs] using h
          by_cases hb : s' = .boundary
          · subst hb
            simp only [List.cons_append, lossyFrom, hs]
            rw [ih (fun _ => rfl) hrest]
            simp
          · have : lossyFrom s' (part ++ [b]) (rest ++ later) =
                part ++ [b] ++ rest ++ lossyFrom .boundary [] later :=
              ih (fun h => absurd h hb) hrest
            cases s' <;> simp_all [lossyFrom]

/-- Inside a character nothing is written yet. -/
theorem lossyFrom_unfinished {s : State} {bs : Bytes}
    (hopen : ∀ q, q <+: bs → Valid q → q = []) (h : run .boundary bs = some s) (later : Bytes) :
    lossyFrom .boundary [] (bs ++ later) = lossyFrom s bs later := by
  induction bs using List.reverseRecOn generalizing s later with
  | nil =>
      obtain rfl : State.boundary = s := by simpa using h
      rfl
  | append_singleton bs b ih =>
      have hshort : ∀ q, q <+: bs → Valid q → q = [] :=
        fun q hq => hopen q (hq.trans (List.prefix_append bs [b]))
      rw [run_append] at h
      obtain ⟨s₀, hrun, hstep⟩ := Option.bind_eq_some_iff.mp h
      have hstep : step s₀ b = some s := by
        cases hb : step s₀ b with
        | none => simp [run, hb] at hstep
        | some s₁ => simpa [run, hb] using hstep
      have hs : s ≠ .boundary := by
        rintro rfl
        have hnil := hopen (bs ++ [b]) (List.prefix_refl _) (by
          rw [Valid, run_append]
          exact h)
        simp at hnil
      rw [List.append_assoc, List.singleton_append, ih hshort hrun]
      cases s <;> simp_all [lossyFrom]

private theorem valid_lossyFrom {s : State} {part bs : Bytes} (h : run .boundary part = some s) :
    Valid (lossyFrom s part bs) := by
  have hrepl : Valid replacement := by decide
  induction bs generalizing s part with
  | nil =>
      simp only [lossyFrom]
      split
      · exact valid_nil
      · exact hrepl
  | cons b bs ih =>
      have hpart {s' : State} (hs : step s b = some s') :
          run .boundary (part ++ [b]) = some s' := by
        rw [run_append, h]
        simp [run, hs]
      have hstart {s' : State} (hs : lead b = some s') : run .boundary [b] = some s' := by
        simp [run, step, hs]
      have hnil : Valid (lossyFrom .boundary [] bs) := ih rfl
      cases hs : step s b with
      | some s' =>
          cases s' with
          | boundary =>
              simp only [lossyFrom, hs]
              rw [List.append_cons]
              exact Valid.append (hpart hs) hnil
          | tail | afterE0 | afterED | afterF0 | afterF4 =>
              simp only [lossyFrom, hs]
              exact ih (hpart hs)
      | none =>
          simp only [lossyFrom, hs]
          split
          · exact hrepl.append hnil
          · apply hrepl.append
            cases hl : lead b with
            | none => exact hrepl.append hnil
            | some s' =>
                cases s' with
                | boundary => exact (show Valid [b] from hstart hl).append hnil
                | tail | afterE0 | afterED | afterF0 | afterF4 => exact ih (hstart hl)

/-- Whatever is decoded, the result is text. -/
theorem valid_lossy (bs : Bytes) : Valid (lossy bs) := valid_lossyFrom rfl

/-- Valid text is decoded to itself. -/
theorem lossy_of_valid {bs : Bytes} (h : Valid bs) : lossy bs = bs := by
  have hlossy := lossyFrom_append (fun _ => rfl) h []
  rwa [List.append_nil, List.nil_append, show lossyFrom .boundary [] [] = [] from rfl,
    List.append_nil] at hlossy

end Utf8
