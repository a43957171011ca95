import LlmCacheProxy.Foundation.Utf8
import Mathlib.Data.List.Infix

/-!
# What lossy decoding keeps

A byte string is made of characters and of maximal invalid sequences, and lossy
decoding writes U+FFFD for each of the latter. Two byte strings are decoded alike
exactly when they have the same characters, up to places where each of them has an
invalid sequence or U+FFFD itself.
-/

namespace Utf8

/-- A whole character and nothing else. -/
structure Character (c : Bytes) : Prop where
  valid : Valid c
  nonempty : c ≠ []
  single : ∀ q, q <+: c → Valid q → q = [] ∨ q = c

/-- `p` is a maximal invalid sequence in front of `rest`: the start of a
character that does not go on, or one byte that starts none. -/
structure Broken (p rest : Bytes) : Prop where
  nonempty : p ≠ []
  unfinished : ∀ q, q <+: p → Valid q → q = []
  starts : run .boundary p ≠ none ∨ p.length = 1
  stuck : ∀ b, rest.head? = some b → run .boundary (p ++ [b]) = none

/-- `p` is read as U+FFFD in front of `rest`. -/
def Marked (p rest : Bytes) : Prop := p = replacement ∨ Broken p rest

/-- The same characters, up to what is read as U+FFFD. -/
inductive Alike : Bytes → Bytes → Prop where
  | nil : Alike [] []
  | character {c x y : Bytes} : Character c → Alike x y → Alike (c ++ x) (c ++ y)
  | marked {p q x y : Bytes} : Marked p x → Marked q y → Alike x y → Alike (p ++ x) (q ++ y)

theorem character_replacement : Character replacement where
  valid := by decide
  nonempty := by decide
  single := by
    intro q hq
    have hall : ∀ q ∈ replacement.inits, Valid q → q = [] ∨ q = replacement := by decide
    exact hall q ((List.mem_inits _ _).mpr hq)

/-- No character is the start of another one. -/
theorem Character.append_inj {c d x y : Bytes} (hc : Character c) (hd : Character d)
    (h : c ++ x = d ++ y) : c = d ∧ x = y := by
  have heq : c = d := by
    rcases List.prefix_or_prefix_of_prefix (List.prefix_append c x)
      (h ▸ List.prefix_append d y) with hpre | hpre
    · exact (hd.single c hpre hc.valid).resolve_left hc.nonempty
    · exact ((hc.single d hpre hd.valid).resolve_left hd.nonempty).symm
  subst heq
  exact ⟨rfl, List.append_cancel_left h⟩

/-! ### Taking a string apart -/

/-- Reading on from an unfinished character ends it, one way or the other. -/
private theorem exists_end {s : State} {part : Bytes} (hs : s ≠ .boundary)
    (hrun : run .boundary part = some s) (hne : part ≠ [])
    (hopen : ∀ q, q <+: part → Valid q → q = []) (bs : Bytes) :
    ∃ u rest, part ++ bs = u ++ rest ∧ (Character u ∨ Broken u rest) := by
  induction bs generalizing s part with
  | nil =>
      refine ⟨part, [], rfl, Or.inr ⟨hne, hopen, Or.inl (by simp [hrun]), ?_⟩⟩
      intro b hb
      cases hb
  | cons b bs ih =>
      have hnext : run .boundary (part ++ [b]) = step s b := by
        rw [run_append, hrun]
        cases hb : step s b with
        | none | some s' => simp [run, hb]
      cases hb : step s b with
      | none =>
          refine ⟨part, b :: bs, rfl, Or.inr ⟨hne, hopen, Or.inl (by simp [hrun]), ?_⟩⟩
          intro b' hb'
          obtain rfl := Option.some.inj hb'
          exact hnext.trans hb
      | some s' =>
          by_cases hs' : s' = .boundary
          · subst hs'
            refine ⟨part ++ [b], bs, by simp, Or.inl ⟨hnext.trans hb, by simp, ?_⟩⟩
            intro q hq hv
            rcases List.prefix_concat_iff.mp hq with rfl | hq
            · exact Or.inr rfl
            · exact Or.inl (hopen q hq hv)
          · have hopen' : ∀ q, q <+: part ++ [b] → Valid q → q = [] := by
              intro q hq hv
              rcases List.prefix_concat_iff.mp hq with rfl | hq
              · have hbound := hv.symm.trans (hnext.trans hb)
                exact absurd (Option.some.inj hbound).symm hs'
              · exact hopen q hq hv
            obtain ⟨u, rest, heq, hu⟩ := ih hs' (hnext.trans hb) (by simp) hopen'
            exact ⟨u, rest, by rw [← heq, List.append_assoc, List.singleton_append], hu⟩

/-- Every byte string starts with a character or with a maximal invalid sequence. -/
theorem exists_first {bs : Bytes} (h : bs ≠ []) :
    ∃ u rest, bs = u ++ rest ∧ (Character u ∨ Broken u rest) := by
  obtain ⟨b, bs, rfl⟩ := List.exists_cons_of_ne_nil h
  have hrun : run .boundary [b] = lead b := by
    cases hb : lead b with
    | none | some s => simp [run, step, hb]
  have hprefix {q : Bytes} (hq : q <+: [b]) : q = [] ∨ q = [b] := by
    rcases List.prefix_cons_iff.mp hq with hnil | ⟨t, rfl, ht⟩
    · exact Or.inl hnil
    · rw [List.prefix_nil.mp ht]
      exact Or.inr rfl
  cases hb : lead b with
  | none =>
      refine ⟨[b], bs, rfl, Or.inr ⟨by simp, ?_, Or.inr rfl, ?_⟩⟩
      · intro q hq hv
        rcases hprefix hq with rfl | rfl
        · rfl
        · rw [Valid, hrun, hb] at hv
          cases hv
      · intro b' _
        rw [run_append, hrun, hb]
        rfl
  | some s =>
      by_cases hs : s = .boundary
      · subst hs
        exact ⟨[b], bs, rfl, Or.inl ⟨hrun.trans hb, by simp, fun q hq _ => hprefix hq⟩⟩
      · refine exists_end hs (hrun.trans hb) (by simp) ?_ bs
        intro q hq hv
        rcases hprefix hq with rfl | rfl
        · rfl
        · have hbound := hv.symm.trans (hrun.trans hb)
          exact absurd (Option.some.inj hbound).symm hs

/-! ### Decoding the parts -/

theorem lossyFrom_boundary_cons (b : UInt8) (bs : Bytes) :
    lossyFrom .boundary [] (b :: bs) =
      match lead b with
      | some .boundary => b :: lossyFrom .boundary [] bs
      | some s' => lossyFrom s' [b] bs
      | none => replacement ++ lossyFrom .boundary [] bs := by
  cases hb : lead b with
  | none => simp [lossyFrom, step, hb]
  | some s => cases s <;> simp [lossyFrom, step, hb]

/-- Characters in front are kept. -/
theorem Valid.lossy_append {p : Bytes} (h : Valid p) (x : Bytes) :
    lossy (p ++ x) = p ++ lossy x := lossyFrom_append (fun _ => rfl) h x

/-- A maximal invalid sequence in front is replaced. -/
theorem Broken.lossy_append {p x : Bytes} (h : Broken p x) :
    lossy (p ++ x) = replacement ++ lossy x := by
  cases hrun : run .boundary p with
  | none =>
      obtain ⟨b, rfl⟩ := List.length_eq_one_iff.mp (h.starts.resolve_left (absurd hrun))
      have hb : lead b = none := by
        cases hb : lead b with
        | none => rfl
        | some s => simp [run, step, hb] at hrun
      rw [lossy, List.singleton_append, lossyFrom_boundary_cons, hb]
      rfl
  | some s =>
      have hs : s ≠ .boundary := by
        rintro rfl
        exact h.nonempty (h.unfinished p (List.prefix_refl p) hrun)
      rw [lossy, lossyFrom_unfinished h.unfinished hrun]
      cases x with
      | nil => simp [lossyFrom, hs, lossy]
      | cons b x =>
          have hstuck := h.stuck b rfl
          rw [run_append, hrun] at hstuck
          have hb : step s b = none := by
            cases hb : step s b with
            | none => rfl
            | some s' => simp [run, hb] at hstuck
          rw [lossy, lossyFrom_boundary_cons]
          cases hl : lead b with
          | none => simp [lossyFrom, hb, hs, hl]
          | some s' => cases s' <;> simp [lossyFrom, hb, hs, hl]

theorem Marked.lossy_append {p x : Bytes} (h : Marked p x) :
    lossy (p ++ x) = replacement ++ lossy x := by
  rcases h with rfl | h
  · exact character_replacement.valid.lossy_append x
  · exact h.lossy_append

/-- What is decoded starts with a character, which tells what was there. -/
private theorem exists_decoded {bs : Bytes} (h : bs ≠ []) :
    ∃ u rest mark, bs = u ++ rest ∧ u ≠ [] ∧ Character mark ∧
      lossy bs = mark ++ lossy rest ∧
      (Character u ∧ mark = u ∨ Broken u rest ∧ mark = replacement) := by
  obtain ⟨u, rest, rfl, hu | hu⟩ := exists_first h
  · exact ⟨u, rest, u, rfl, hu.nonempty, hu, hu.valid.lossy_append rest, Or.inl ⟨hu, rfl⟩⟩
  · exact ⟨u, rest, replacement, rfl, hu.nonempty, character_replacement, hu.lossy_append,
      Or.inr ⟨hu, rfl⟩⟩

theorem Alike.lossy_eq {x y : Bytes} (h : Alike x y) : lossy x = lossy y := by
  induction h with
  | nil => rfl
  | character hc _ ih => rw [hc.valid.lossy_append, hc.valid.lossy_append, ih]
  | marked hp hq _ ih => rw [hp.lossy_append, hq.lossy_append, ih]

theorem alike_of_lossy_eq (n : Nat) {x y : Bytes} (hn : x.length ≤ n) (h : lossy x = lossy y) :
    Alike x y := by
  induction n generalizing x y with
  | zero =>
      obtain rfl : x = [] := List.length_eq_zero_iff.mp (Nat.le_zero.mp hn)
      by_cases hy : y = []
      · exact hy ▸ .nil
      · obtain ⟨u, rest, mark, -, -, hmark, hlossy, -⟩ := exists_decoded hy
        rw [hlossy] at h
        exact absurd (List.append_eq_nil_iff.mp h.symm).1 hmark.nonempty
  | succ n ih =>
      by_cases hx : x = []
      · subst hx
        exact ih (Nat.zero_le n) h
      by_cases hy : y = []
      · subst hy
        obtain ⟨u, rest, mark, -, -, hmark, hlossy, -⟩ := exists_decoded hx
        rw [hlossy] at h
        exact absurd (List.append_eq_nil_iff.mp h).1 hmark.nonempty
      obtain ⟨u, x, mark, rfl, hune, hmark, hlossy, hu⟩ := exists_decoded hx
      obtain ⟨v, y, mark', rfl, -, hmark', hlossy', hv⟩ := exists_decoded hy
      rw [hlossy, hlossy'] at h
      obtain ⟨rfl, hrest⟩ := hmark.append_inj hmark' h
      have hshort : x.length ≤ n := by
        have := List.length_pos_iff.mpr hune
        rw [List.length_append] at hn
        omega
      have hxy := ih hshort hrest
      rcases hu with ⟨hu, rfl⟩ | ⟨hu, rfl⟩ <;> rcases hv with ⟨hv, heq⟩ | ⟨hv, heq⟩
      · exact heq ▸ .character hu hxy
      · exact .marked (Or.inl heq) (Or.inr hv) hxy
      · exact .marked (Or.inr hu) (Or.inl heq.symm) hxy
      · exact .marked (Or.inr hu) (Or.inr hv) hxy

/-- Lossy decoding tells two byte strings apart exactly when they are not alike. -/
theorem lossy_eq_iff {x y : Bytes} : lossy x = lossy y ↔ Alike x y :=
  ⟨alike_of_lossy_eq x.length le_rfl, Alike.lossy_eq⟩

/-- Nothing is decoded to nothing but the empty string. -/
theorem lossy_ne_nil {bs : Bytes} (h : bs ≠ []) : lossy bs ≠ [] := by
  obtain ⟨u, rest, rfl, hu | hu⟩ := exists_first h
  · simp [hu.valid.lossy_append, hu.nonempty]
  · simp [hu.lossy_append, replacement]

end Utf8
