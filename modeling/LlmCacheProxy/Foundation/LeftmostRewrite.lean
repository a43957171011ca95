import Mathlib.Data.List.Basic
import Mathlib.Order.Basic
import Mathlib.Tactic.Common

/-!
# Leftmost non-overlapping replacement

A list is scanned from left to right. Where some rule's pattern starts, one such
rule is chosen, its replacement is written and the scan continues behind the
pattern; every other element is copied. The chosen occurrences are the hits of
the list. Cutting the list commutes with rewriting at every position that no hit
straddles, and only there once the replacements may be anything.
-/

/-- Occurrences of `pattern` become `replacement`. -/
structure RewriteRule (α : Type*) where
  pattern : List α
  replacement : List α

namespace LeftmostRewrite

variable {α : Type*} [DecidableEq α]

/-- The rules whose pattern starts here. An empty pattern occurs nowhere. -/
def candidates (rs : List (RewriteRule α)) (s : List α) : List (RewriteRule α) :=
  rs.filter fun r => !r.pattern.isEmpty && r.pattern.isPrefixOf s

/-- How ties between rules that start at the same place are broken. The choice
looks at patterns only and is stable: removing other rules does not change it. -/
structure Policy (α : Type*) where
  choose : List (RewriteRule α) → Option (RewriteRule α)
  choose_mem : ∀ cs r, choose cs = some r → r ∈ cs
  choose_eq_none : ∀ cs, choose cs = none → cs = []
  choose_filter : ∀ cs r (p : RewriteRule α → Bool), choose cs = some r → p r = true →
    choose (cs.filter p) = some r
  choose_pattern : ∀ cs cs', cs.map RewriteRule.pattern = cs'.map RewriteRule.pattern →
    (choose cs).map RewriteRule.pattern = (choose cs').map RewriteRule.pattern

/-- The earliest rule of the list wins. -/
def Policy.first (α : Type*) : Policy α where
  choose := List.head?
  choose_mem := fun _ _ h => List.mem_of_head? h
  choose_eq_none := fun _ h => List.head?_eq_none_iff.mp h
  choose_filter := by
    intro cs r p h hp
    cases cs with
    | nil => cases h
    | cons c rest =>
        obtain rfl : c = r := by simpa using h
        simp [hp]
  choose_pattern := by
    intro cs cs' h
    rw [← List.head?_map, ← List.head?_map, h]

variable (π : Policy α)

/-- Rewrite a list whose first `skip` elements belong to an earlier hit. -/
def rewriteFrom (rs : List (RewriteRule α)) : Nat → List α → List α
  | _, [] => []
  | skip + 1, _ :: s => rewriteFrom rs skip s
  | 0, a :: s =>
      match π.choose (candidates rs (a :: s)) with
      | some r => r.replacement ++ rewriteFrom rs (r.pattern.length - 1) s
      | none => a :: rewriteFrom rs 0 s

/-- Replace each leftmost non-overlapping occurrence. -/
def rewrite (rs : List (RewriteRule α)) (s : List α) : List α := rewriteFrom π rs 0 s

theorem mem_candidates {rs : List (RewriteRule α)} {s : List α} {r : RewriteRule α} :
    r ∈ candidates rs s ↔ r ∈ rs ∧ r.pattern ≠ [] ∧ r.pattern <+: s := by
  simp [candidates]

theorem rewriteFrom_eq (rs : List (RewriteRule α)) (n : Nat) (s : List α) :
    rewriteFrom π rs n s = rewrite π rs (s.drop n) := by
  induction n generalizing s with
  | zero => rfl
  | succ n ih =>
      cases s with
      | nil => simp [rewriteFrom, rewrite]
      | cons a s => simpa [rewriteFrom] using ih s

@[simp] theorem rewrite_nil (rs : List (RewriteRule α)) : rewrite π rs [] = [] := rfl

theorem rewrite_of_none {rs : List (RewriteRule α)} {a : α} {s : List α}
    (h : π.choose (candidates rs (a :: s)) = none) :
    rewrite π rs (a :: s) = a :: rewrite π rs s := by
  simp only [rewrite, rewriteFrom, h]

theorem rewrite_of_some {rs : List (RewriteRule α)} {r : RewriteRule α} {s : List α}
    (h : π.choose (candidates rs s) = some r) :
    rewrite π rs s = r.replacement ++ rewrite π rs (s.drop r.pattern.length) := by
  obtain ⟨-, hne, hpre⟩ := mem_candidates.mp (π.choose_mem _ _ h)
  have hpos : 0 < r.pattern.length := List.length_pos_iff.mpr hne
  cases s with
  | nil => exact absurd (List.prefix_nil.mp hpre) hne
  | cons a s =>
      have hdrop : (a :: s).drop r.pattern.length = s.drop (r.pattern.length - 1) := by
        conv_lhs => rw [show r.pattern.length = (r.pattern.length - 1) + 1 by omega]
        rfl
      rw [hdrop, ← rewriteFrom_eq]
      simp only [rewrite, rewriteFrom, h]

/-- A list in which no pattern occurs is copied. -/
theorem rewrite_of_no_occurrence {rs : List (RewriteRule α)} {s : List α}
    (h : ∀ r ∈ rs, r.pattern ≠ [] → ¬ r.pattern <:+: s) : rewrite π rs s = s := by
  induction s with
  | nil => rfl
  | cons a s ih =>
      have hnone : π.choose (candidates rs (a :: s)) = none := by
        rw [Option.eq_none_iff_forall_ne_some]
        intro r hr
        obtain ⟨hmem, hne, hpre⟩ := mem_candidates.mp (π.choose_mem _ _ hr)
        exact h r hmem hne hpre.isInfix
      rw [rewrite_of_none π hnone, ih]
      intro r hmem hne hin
      exact h r hmem hne (hin.trans (List.suffix_cons a s).isInfix)

/-- `HitAt s n p`: the scan of `s` replaces an occurrence of `p` at position `n`. -/
inductive HitAt (rs : List (RewriteRule α)) : List α → Nat → List α → Prop where
  | here {s : List α} {r : RewriteRule α} (h : π.choose (candidates rs s) = some r) :
      HitAt rs s 0 r.pattern
  | copied {a : α} {s : List α} {n : Nat} {p : List α}
      (h : π.choose (candidates rs (a :: s)) = none) (tail : HitAt rs s n p) :
      HitAt rs (a :: s) (n + 1) p
  | behind {s : List α} {r : RewriteRule α} {n : Nat} {p : List α}
      (h : π.choose (candidates rs s) = some r) (tail : HitAt rs (s.drop r.pattern.length) n p) :
      HitAt rs s (r.pattern.length + n) p

variable {π}

/-- A hit is an occurrence of one of the patterns. -/
theorem HitAt.occurs {rs : List (RewriteRule α)} {s p : List α} {n : Nat}
    (h : HitAt π rs s n p) : (∃ r ∈ rs, r.pattern = p) ∧ p ≠ [] ∧ p <+: s.drop n := by
  induction h with
  | here h =>
      obtain ⟨hr, hne, hpre⟩ := mem_candidates.mp (π.choose_mem _ _ h)
      exact ⟨⟨_, hr, rfl⟩, hne, hpre⟩
  | copied h tail ih => exact ih
  | behind h tail ih =>
      refine ⟨ih.1, ih.2.1, ?_⟩
      rw [← List.drop_drop]
      exact ih.2.2

/-- Behind a copied element the scan goes on. -/
theorem hitAt_of_none {rs : List (RewriteRule α)} {a : α} {s p : List α}
    (h : π.choose (candidates rs (a :: s)) = none) (n : Nat) :
    HitAt π rs (a :: s) (n + 1) p ↔ HitAt π rs s n p := by
  refine ⟨fun hit => ?_, HitAt.copied h⟩
  generalize hs : a :: s = u at hit
  generalize hn : n + 1 = k at hit
  cases hit with
  | here h' => omega
  | copied h' tail =>
      obtain ⟨rfl, rfl⟩ := List.cons.inj hs
      obtain rfl : n = _ := Nat.succ.inj hn
      exact tail
  | behind h' tail =>
      subst hs
      rw [h] at h'
      cases h'

/-- Behind a replaced pattern the scan goes on. -/
theorem hitAt_of_some {rs : List (RewriteRule α)} {s p : List α} {r : RewriteRule α}
    (h : π.choose (candidates rs s) = some r) (n : Nat) :
    HitAt π rs s (r.pattern.length + n) p ↔ HitAt π rs (s.drop r.pattern.length) n p := by
  have hpos : 0 < r.pattern.length :=
    List.length_pos_iff.mpr (mem_candidates.mp (π.choose_mem _ _ h)).2.1
  refine ⟨fun hit => ?_, HitAt.behind h⟩
  generalize hk : r.pattern.length + n = k at hit
  cases hit with
  | here h' => omega
  | copied h' tail =>
      rw [h] at h'
      cases h'
  | @behind _ r' m _ h' tail =>
      obtain rfl : r = r' := Option.some.inj (h.symm.trans h')
      obtain rfl : n = m := by omega
      exact tail

/-- The list of the patterns alone fixes the hits. -/
theorem HitAt.of_patterns {rs rs' : List (RewriteRule α)} {s p : List α} {n : Nat}
    (hp : rs.map RewriteRule.pattern = rs'.map RewriteRule.pattern) (h : HitAt π rs s n p) :
    HitAt π rs' s n p := by
  have hc (s : List α) : (candidates rs s).map RewriteRule.pattern =
      (candidates rs' s).map RewriteRule.pattern := by
    have hf (l : List (RewriteRule α)) : (candidates l s).map RewriteRule.pattern =
        (l.map RewriteRule.pattern).filter fun q => !q.isEmpty && q.isPrefixOf s := by
      simp [candidates, List.filter_map, Function.comp_def]
    rw [hf, hf, hp]
  induction h with
  | @here s r h =>
      have hr := π.choose_pattern _ _ (hc s)
      rw [h] at hr
      obtain ⟨r', hr', heq⟩ := Option.map_eq_some_iff.mp hr.symm
      exact heq ▸ HitAt.here hr'
  | @copied a s n p h tail ih =>
      have hr := π.choose_pattern _ _ (hc (a :: s))
      rw [h] at hr
      exact HitAt.copied (Option.map_eq_none_iff.mp hr.symm) ih
  | @behind s r n p h tail ih =>
      have hr := π.choose_pattern _ _ (hc s)
      rw [h] at hr
      obtain ⟨r', hr', heq⟩ := Option.map_eq_some_iff.mp hr.symm
      rw [← heq] at ih ⊢
      exact HitAt.behind hr' ih

/-- Shortening the list can only remove candidates. -/
theorem candidates_take (rs : List (RewriteRule α)) (s : List α) (n : Nat) :
    candidates rs (s.take n) =
      (candidates rs s).filter fun r => decide (r.pattern.length ≤ n) := by
  unfold candidates
  rw [List.filter_filter]
  apply List.filter_congr
  intro r _
  have h : r.pattern <+: s.take n ↔ r.pattern.length ≤ n ∧ r.pattern <+: s := by
    rw [List.prefix_take_iff, and_comm]
  rw [Bool.eq_iff_iff]
  simp [h]
  tauto

/-- A copied element is copied again in every shorter list. -/
theorem choose_take_of_none {rs : List (RewriteRule α)} {s : List α}
    (h : π.choose (candidates rs s) = none) (n : Nat) :
    π.choose (candidates rs (s.take n)) = none := by
  have hnil := π.choose_eq_none _ h
  rw [hnil] at h
  rw [candidates_take, hnil]
  exact h

/-- A chosen rule is chosen again in every shorter list that contains its pattern. -/
theorem choose_take_of_some {rs : List (RewriteRule α)} {s : List α} {r : RewriteRule α}
    (h : π.choose (candidates rs s) = some r) {n : Nat} (hn : r.pattern.length ≤ n) :
    π.choose (candidates rs (s.take n)) = some r := by
  rw [candidates_take]
  exact π.choose_filter _ _ _ h (by simpa using hn)

/-- A position that no hit straddles. -/
def Unstraddled (π : Policy α) (rs : List (RewriteRule α)) (s : List α) (n : Nat) : Prop :=
  ∀ m p, HitAt π rs s m p → m < n → m + p.length ≤ n

theorem Unstraddled.of_none {rs : List (RewriteRule α)} {a : α} {s : List α} {n : Nat}
    (h : Unstraddled π rs (a :: s) (n + 1)) (hc : π.choose (candidates rs (a :: s)) = none) :
    Unstraddled π rs s n := by
  intro m p hm hmn
  have := h (m + 1) p (HitAt.copied hc hm) (by omega)
  omega

theorem Unstraddled.of_some {rs : List (RewriteRule α)} {s : List α} {n : Nat}
    (h : Unstraddled π rs s n) (hn : 0 < n) {r : RewriteRule α}
    (hc : π.choose (candidates rs s) = some r) :
    r.pattern.length ≤ n ∧
      Unstraddled π rs (s.drop r.pattern.length) (n - r.pattern.length) := by
  have hle : r.pattern.length ≤ n := by simpa using h 0 r.pattern (HitAt.here hc) hn
  refine ⟨hle, fun m p hm hmn => ?_⟩
  have := h (r.pattern.length + m) p (HitAt.behind hc hm) (by omega)
  omega

/-- The hits behind a cut that no hit straddles are those of the rest. -/
theorem hitAt_drop {rs : List (RewriteRule α)} {s p : List α} {n : Nat}
    (h : Unstraddled π rs s n) (m : Nat) :
    HitAt π rs (s.drop n) m p ↔ HitAt π rs s (n + m) p := by
  induction hlen : s.length using Nat.strongRecOn generalizing s n with
  | ind len ih =>
      cases n with
      | zero => simp
      | succ n =>
          cases s with
          | nil =>
              have hnone (k : Nat) : ¬ HitAt π rs [] k p := by
                intro hit
                obtain ⟨-, hne, hpre⟩ := hit.occurs
                exact hne (by simpa using hpre)
              simp [hnone]
          | cons a s =>
              cases hc : π.choose (candidates rs (a :: s)) with
              | none =>
                  rw [Nat.add_right_comm, hitAt_of_none hc, List.drop_succ_cons]
                  exact ih s.length (by simp [← hlen]) (h.of_none hc) rfl
              | some r =>
                  obtain ⟨-, hne, -⟩ := mem_candidates.mp (π.choose_mem _ _ hc)
                  have hpos : 0 < r.pattern.length := List.length_pos_iff.mpr hne
                  obtain ⟨hle, hs⟩ := h.of_some (Nat.succ_pos n) hc
                  have hrec := ih ((a :: s).drop r.pattern.length).length
                    (by rw [← hlen, List.length_drop, List.length_cons]; omega) hs rfl
                  rw [List.drop_drop, show r.pattern.length + (n + 1 - r.pattern.length) = n + 1
                    by omega, ← hitAt_of_some hc] at hrec
                  rw [hrec, show r.pattern.length + (n + 1 - r.pattern.length + m) = n + 1 + m
                    by omega]

/-- Rewriting commutes with a cut that no hit straddles. -/
theorem rewrite_split {rs : List (RewriteRule α)} {s : List α} {n : Nat}
    (h : Unstraddled π rs s n) :
    rewrite π rs s = rewrite π rs (s.take n) ++ rewrite π rs (s.drop n) := by
  induction hlen : s.length using Nat.strongRecOn generalizing s n with
  | ind len ih =>
      cases n with
      | zero => simp
      | succ n =>
          cases s with
          | nil => simp
          | cons a s =>
              cases hc : π.choose (candidates rs (a :: s)) with
              | none =>
                  have hc' : π.choose (candidates rs (a :: s.take n)) = none :=
                    choose_take_of_none hc (n + 1)
                  rw [rewrite_of_none π hc, List.take_succ_cons, rewrite_of_none π hc',
                    ih s.length (by simp [← hlen]) (h.of_none hc) rfl]
                  rfl
              | some r =>
                  obtain ⟨-, hne, -⟩ := mem_candidates.mp (π.choose_mem _ _ hc)
                  have hpos : 0 < r.pattern.length := List.length_pos_iff.mpr hne
                  obtain ⟨hle, hs⟩ := h.of_some (Nat.succ_pos n) hc
                  have hc' := choose_take_of_some hc hle
                  have hrec := ih ((a :: s).drop r.pattern.length).length
                    (by rw [← hlen, List.length_drop, List.length_cons]; omega) hs rfl
                  have hcut : r.pattern.length + (n + 1 - r.pattern.length) = n + 1 := by omega
                  calc
                    rewrite π rs (a :: s) =
                        r.replacement ++ rewrite π rs ((a :: s).drop r.pattern.length) :=
                      rewrite_of_some π hc
                    _ = r.replacement ++
                        rewrite π rs (((a :: s).take (n + 1)).drop r.pattern.length) ++
                          rewrite π rs ((a :: s).drop (n + 1)) := by
                      rw [hrec, List.drop_take, List.drop_drop, hcut, List.append_assoc]
                    _ = _ := by rw [rewrite_of_some π hc']

/-- Where a whole pattern still fits, later input does not change the candidates. -/
theorem candidates_append {rs : List (RewriteRule α)} {M : Nat}
    (hM : ∀ r ∈ rs, r.pattern.length ≤ M) {s : List α} (hs : M ≤ s.length) (t : List α) :
    candidates rs (s ++ t) = candidates rs s := by
  apply List.filter_congr
  intro r hr
  have h : r.pattern <+: s ++ t ↔ r.pattern <+: s :=
    ⟨fun hp => List.prefix_of_prefix_length_le hp (List.prefix_append s t)
        (Nat.le_trans (hM r hr) hs),
      fun hp => hp.trans (List.prefix_append s t)⟩
  rw [Bool.eq_iff_iff]
  simp [h]

/-- A hit that starts at least a window before the end is already final. -/
theorem HitAt.of_append {rs : List (RewriteRule α)} {M : Nat}
    (hM : ∀ r ∈ rs, r.pattern.length ≤ M) {s t p : List α} {n : Nat}
    (h : HitAt π rs (s ++ t) n p) (hn : n + M ≤ s.length) : HitAt π rs s n p := by
  generalize hu : s ++ t = u at h
  induction h generalizing s with
  | here h =>
      subst hu
      rw [candidates_append hM (by omega)] at h
      exact HitAt.here h
  | @copied a u n p h tail ih =>
      cases s with
      | nil => simp at hn
      | cons b s =>
          obtain ⟨rfl, rfl⟩ := by simpa using hu
          rw [← List.cons_append, candidates_append hM (by simp at hn ⊢; omega)] at h
          exact HitAt.copied h (ih (by simp at hn; omega) rfl)
  | @behind u r n p h tail ih =>
      subst hu
      rw [candidates_append hM (by omega)] at h
      have hle : r.pattern.length ≤ s.length := by omega
      refine HitAt.behind h (ih ?_ ?_)
      · rw [List.length_drop]
        omega
      · rw [List.drop_append_of_le_length hle]

/-- A hit that starts at least a window before the end is a hit of every longer list. -/
theorem HitAt.append {rs : List (RewriteRule α)} {M : Nat}
    (hM : ∀ r ∈ rs, r.pattern.length ≤ M) {s p : List α} {n : Nat} (h : HitAt π rs s n p)
    (hn : n + M ≤ s.length) (t : List α) : HitAt π rs (s ++ t) n p := by
  induction h with
  | here h =>
      rw [← candidates_append hM (by omega) t] at h
      exact HitAt.here h
  | @copied a s n p h tail ih =>
      rw [← candidates_append hM (by omega) t] at h
      exact HitAt.copied h (ih (by simp at hn; omega))
  | @behind s r n p h tail ih =>
      have hle : r.pattern.length ≤ s.length := by omega
      rw [← candidates_append hM (by omega) t] at h
      refine HitAt.behind h ?_
      rw [List.drop_append_of_le_length hle]
      exact ih (by rw [List.length_drop]; omega)

/-- A cut made a window before the end, straddled by no hit so far, stays
good whatever input follows. -/
theorem rewrite_append_split {rs : List (RewriteRule α)} {M : Nat}
    (hM : ∀ r ∈ rs, r.pattern.length ≤ M) {s : List α} {n : Nat} (hn : n + M ≤ s.length)
    (h : Unstraddled π rs s n) (t : List α) :
    rewrite π rs (s ++ t) = rewrite π rs (s.take n) ++ rewrite π rs (s.drop n ++ t) := by
  have hu : Unstraddled π rs (s ++ t) n := fun m p hm hmn =>
    h m p (hm.of_append hM (by omega)) hmn
  rw [rewrite_split hu, List.take_append_of_le_length (by omega),
    List.drop_append_of_le_length (by omega)]

/-! ### A straddled cut is always visible -/

/-- Give every rule the replacement that `o` assigns to its pattern. -/
def assign (o : List α → List α) (rs : List (RewriteRule α)) : List (RewriteRule α) :=
  rs.map fun r => { r with replacement := o r.pattern }

omit [DecidableEq α] in
@[simp] theorem assign_patterns (o : List α → List α) (rs : List (RewriteRule α)) :
    (assign o rs).map RewriteRule.pattern = rs.map RewriteRule.pattern := by
  simp [assign, Function.comp_def]

theorem replacement_of_assign {o : List α → List α} {rs : List (RewriteRule α)} {s : List α}
    {r : RewriteRule α} (h : π.choose (candidates (assign o rs) s) = some r) :
    r.replacement = o r.pattern := by
  obtain ⟨hr, -, -⟩ := mem_candidates.mp (π.choose_mem _ _ h)
  obtain ⟨r₀, -, rfl⟩ := List.mem_map.mp hr
  rfl

/-- Up to a straddled cut the two scans agree; at the hit the first writes the
hit's replacement and the second something else. -/
private theorem assign_diverges {o : List α → List α} {rs : List (RewriteRule α)} {s p : List α}
    {m n : Nat} (h : HitAt π (assign o rs) s m p) (hmn : m < n) (hnp : n < m + p.length)
    {x y : α} (hp : o p = [x]) (ho : ∀ q, q ≠ p → o q = [y]) (hxy : x ≠ y)
    (hx : ∀ a, s[m]? = some a → x ≠ a) :
    ∃ pre rest₁ rest₂ c, rewrite π (assign o rs) s = pre ++ x :: rest₁ ∧
      rewrite π (assign o rs) (s.take n) = pre ++ c :: rest₂ ∧ x ≠ c := by
  induction h generalizing n with
  | @here s r h =>
      have hw : rewrite π (assign o rs) s =
          x :: rewrite π (assign o rs) (s.drop r.pattern.length) := by
        rw [rewrite_of_some π h, replacement_of_assign h, hp]
        rfl
      cases s with
      | nil =>
          obtain ⟨-, hne, hpre⟩ := mem_candidates.mp (π.choose_mem _ _ h)
          exact absurd (List.prefix_nil.mp hpre) hne
      | cons a s =>
          obtain ⟨n, rfl⟩ : ∃ k, n = k + 1 := ⟨n - 1, by omega⟩
          cases hc : π.choose (candidates (assign o rs) ((a :: s).take (n + 1))) with
          | none =>
              exact ⟨[], _, _, a, hw, rewrite_of_none π hc, hx a rfl⟩
          | some r' =>
              obtain ⟨-, -, hpre⟩ := mem_candidates.mp (π.choose_mem _ _ hc)
              have hne : r'.pattern ≠ r.pattern := by
                intro heq
                have := hpre.length_le
                rw [heq, List.length_take] at this
                omega
              have hw' : rewrite π (assign o rs) ((a :: s).take (n + 1)) =
                  y :: rewrite π (assign o rs) (((a :: s).take (n + 1)).drop
                      r'.pattern.length) := by
                rw [rewrite_of_some π hc, replacement_of_assign hc, ho _ hne]
                rfl
              exact ⟨[], _, _, y, hw, hw', hxy⟩
  | @copied a s m p h tail ih =>
      obtain ⟨n, rfl⟩ : ∃ k, n = k + 1 := ⟨n - 1, by omega⟩
      obtain ⟨pre, rest₁, rest₂, c, h₁, h₂, hc⟩ :=
        ih (n := n) (by omega) (by omega) hp ho (by simpa using hx)
      refine ⟨a :: pre, rest₁, rest₂, c, ?_, ?_, hc⟩
      · rw [rewrite_of_none π h, h₁]
        rfl
      · have h' := choose_take_of_none h (n + 1)
        rw [List.take_succ_cons] at h' ⊢
        rw [rewrite_of_none π h', h₂]
        rfl
  | @behind s r m p h tail ih =>
      have hle : r.pattern.length ≤ n := by omega
      obtain ⟨pre, rest₁, rest₂, c, h₁, h₂, hc⟩ :=
        ih (n := n - r.pattern.length) (by omega) (by omega) hp ho
          (by simpa [List.getElem?_drop] using hx)
      refine ⟨r.replacement ++ pre, rest₁, rest₂, c, ?_, ?_, hc⟩
      · rw [rewrite_of_some π h, h₁, List.append_assoc]
      · rw [rewrite_of_some π (choose_take_of_some h hle), List.drop_take, h₂, List.append_assoc]

/-- If a cut lands inside a hit of `p`, then with suitable one-element
replacements no continuation of the rewritten first part is the rewritten whole. -/
theorem rewrite_ne_of_straddled {rs : List (RewriteRule α)} {s p : List α} {m n : Nat}
    (h : HitAt π rs s m p) (hmn : m < n) (hnp : n < m + p.length)
    {x y : α} (hxy : x ≠ y) (hx : ∀ a, s[m]? = some a → x ≠ a) (u : List α) :
    rewrite π (assign (fun q => if q = p then [x] else [y]) rs) s ≠
      rewrite π (assign (fun q => if q = p then [x] else [y]) rs) (s.take n) ++ u := by
  have h' : HitAt π (assign (fun q => if q = p then [x] else [y]) rs) s m p :=
    h.of_patterns (assign_patterns _ rs).symm
  obtain ⟨pre, rest₁, rest₂, c, h₁, h₂, hc⟩ := assign_diverges h' hmn hnp (x := x) (y := y)
    (by simp) (fun q hq => by simp [hq]) hxy hx
  rw [h₁, h₂]
  intro heq
  apply hc
  simpa using congrArg (fun l => (l.drop pre.length).head?) heq

end LeftmostRewrite
