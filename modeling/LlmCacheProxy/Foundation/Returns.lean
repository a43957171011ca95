import LlmCacheProxy.Foundation.Framing

/-!
# Dropped returns

A pass drops the return in front of a newline, and a later pass may drop one
more. Whatever is dropped in between, an empty line of the list stays where it
is, counted in symbols other than returns.
-/

namespace Framing

variable {α : Type*} [DecidableEq α] {cr nl : α}

/-- The symbols other than returns. -/
def plain (cr : α) (s : List α) : List α := s.filter fun a => decide (a ≠ cr)

@[simp] theorem plain_nil : plain cr ([] : List α) = [] := rfl

@[simp] theorem plain_append (s t : List α) : plain cr (s ++ t) = plain cr s ++ plain cr t :=
  List.filter_append ..

theorem plain_return (s : List α) : plain cr (cr :: s) = plain cr s := by
  simp [plain]

theorem plain_cons {a : α} (h : a ≠ cr) (s : List α) : plain cr (a :: s) = a :: plain cr s := by
  simp [plain, h]

/-- `y` is `x` without some of its returns. -/
structure Thinned (cr : α) (y x : List α) : Prop where
  sublist : y.Sublist x
  plain : plain cr y = plain cr x

theorem Thinned.refl (s : List α) : Thinned cr s s := ⟨List.Sublist.refl s, rfl⟩

theorem Thinned.trans {x y z : List α} (hz : Thinned cr z y) (hy : Thinned cr y x) :
    Thinned cr z x :=
  ⟨hz.sublist.trans hy.sublist, hz.plain.trans hy.plain⟩

theorem Thinned.append {x y x' y' : List α} (h : Thinned cr y x) (h' : Thinned cr y' x') :
    Thinned cr (y ++ y') (x ++ x') :=
  ⟨h.sublist.append h'.sublist, by rw [plain_append, plain_append, h.plain, h'.plain]⟩

theorem collapse_thinned (cr nl : α) (s : List α) : Thinned cr (collapse cr nl s) s := by
  fun_induction collapse cr nl s with
  | case1 a b rest hab ih =>
      obtain ⟨rfl, rfl⟩ := hab
      have hcons : Thinned a (b :: collapse a b rest) (b :: rest) := (Thinned.refl [b]).append ih
      exact ⟨hcons.sublist.trans (List.sublist_cons_self a _), hcons.plain.trans
        (plain_return _).symm⟩
  | case2 a b rest hab ih => exact (Thinned.refl [a]).append ih
  | case3 s => exact Thinned.refl s

/-- A thinned list splits where the list does. -/
theorem Thinned.split {y a b : List α} (h : Thinned cr y (a ++ b)) :
    ∃ y₁ y₂, y = y₁ ++ y₂ ∧ Thinned cr y₁ a ∧ Thinned cr y₂ b := by
  obtain ⟨y₁, y₂, rfl, h₁, h₂⟩ := List.sublist_append_iff.mp h.sublist
  have hp₁ : (Framing.plain cr y₁).Sublist (Framing.plain cr a) := h₁.filter _
  have hp₂ : (Framing.plain cr y₂).Sublist (Framing.plain cr b) := h₂.filter _
  have hlen := congrArg List.length h.plain
  simp only [plain_append, List.length_append] at hlen
  have hle₁ := hp₁.length_le
  have hle₂ := hp₂.length_le
  exact ⟨y₁, y₂, rfl, ⟨h₁, hp₁.eq_of_length (by omega)⟩, ⟨h₂, hp₂.eq_of_length (by omega)⟩⟩

/-- A symbol that is no return is not dropped. -/
theorem Thinned.cons {a : α} {y b : List α} (ha : a ≠ cr) (h : Thinned cr y (a :: b)) :
    ∃ y', y = a :: y' ∧ Thinned cr y' b := by
  rcases List.sublist_cons_iff.mp h.sublist with hsub | ⟨y', rfl, hsub⟩
  · have hlen := congrArg List.length h.plain
    have hle : (Framing.plain cr y).length ≤ (Framing.plain cr b).length :=
      (hsub.filter _).length_le
    rw [plain_cons ha, List.length_cons] at hlen
    omega
  · have hplain := h.plain
    rw [plain_cons ha, plain_cons ha] at hplain
    exact ⟨y', rfl, hsub, (List.cons.inj hplain).2⟩

/-! ### Empty lines -/

/-- Behind `n` symbols other than returns stand two newlines, with at most one
return between them. -/
def EmptyLineAt (cr nl : α) (n : Nat) (s : List α) : Prop :=
  ∃ a c b, s = a ++ nl :: (c ++ nl :: b) ∧ (plain cr a).length = n ∧ (c = [] ∨ c = [cr])

/-- How a list starts that collapses to one starting with a newline. -/
private theorem head_of_collapse {s v : List α} (h : collapse cr nl s = nl :: v) :
    ∃ c b, s = c ++ nl :: b ∧ (c = [] ∨ c = [cr]) := by
  rcases head_collapse cr nl s with hhead | ⟨b, rfl, -⟩
  · rw [h] at hhead
    cases s with
    | nil => cases hhead
    | cons a b =>
        obtain rfl : nl = a := Option.some.inj hhead
        exact ⟨[], b, rfl, Or.inl rfl⟩
  · exact ⟨[cr], b, rfl, Or.inr rfl⟩

/-- Two newlines of the collapsed list end an empty line of the list. -/
theorem emptyLineAt_of_collapse (hne : cr ≠ nl) {s u v : List α}
    (h : collapse cr nl s = u ++ nl :: nl :: v) : EmptyLineAt cr nl (plain cr u).length s := by
  fun_induction collapse cr nl s generalizing u with
  | case1 a b rest hab ih =>
      obtain ⟨rfl, rfl⟩ := hab
      cases u with
      | nil =>
          obtain ⟨c, t, rfl, hc⟩ := head_of_collapse (List.cons.inj h).2
          exact ⟨[a], c, t, rfl, by rw [plain_return], hc⟩
      | cons e u =>
          obtain ⟨rfl, htail⟩ := List.cons.inj h
          obtain ⟨p, c, t, rfl, hp, hc⟩ := ih htail
          refine ⟨a :: b :: p, c, t, rfl, ?_, hc⟩
          rw [plain_return, plain_cons hne.symm, plain_cons hne.symm, List.length_cons,
            List.length_cons, hp]
  | case2 a b rest hab ih =>
      cases u with
      | nil =>
          obtain ⟨rfl, htail⟩ := List.cons.inj h
          obtain ⟨c, t, ht, hc⟩ := head_of_collapse htail
          exact ⟨[], c, t, by rw [ht]; rfl, rfl, hc⟩
      | cons e u =>
          obtain ⟨rfl, htail⟩ := List.cons.inj h
          obtain ⟨p, c, t, ht, hp, hc⟩ := ih htail
          refine ⟨a :: p, c, t, by rw [ht]; rfl, ?_, hc⟩
          by_cases ha : a = cr
          · rw [ha, plain_return, plain_return, hp]
          · rw [plain_cons ha, plain_cons ha, List.length_cons, List.length_cons, hp]
  | case3 s hs =>
      rcases s with - | ⟨a, - | ⟨b, rest⟩⟩
      · have hlen := congrArg List.length h
        simp at hlen
      · have hlen := congrArg List.length h
        simp at hlen
        omega
      · exact absurd rfl (hs a b rest)

/-- Dropping returns leaves an empty line where it is. -/
theorem EmptyLineAt.thinned (hne : cr ≠ nl) {n : Nat} {x y : List α} (h : Thinned cr y x)
    (hx : EmptyLineAt cr nl n x) : EmptyLineAt cr nl n y := by
  obtain ⟨a, c, b, rfl, hn, hc⟩ := hx
  obtain ⟨a', y₁, rfl, ha, h₁⟩ := h.split
  obtain ⟨y₂, rfl, h₂⟩ := h₁.cons hne.symm
  obtain ⟨c', y₃, rfl, hc', h₃⟩ := h₂.split
  obtain ⟨b', rfl, -⟩ := h₃.cons hne.symm
  refine ⟨a', c', b', rfl, by rw [ha.plain, hn], ?_⟩
  rcases hc with rfl | rfl
  · exact Or.inl (List.sublist_nil.mp hc'.sublist)
  · rcases List.sublist_cons_iff.mp hc'.sublist with hnil | ⟨r, rfl, hr⟩
    · exact Or.inl (List.sublist_nil.mp hnil)
    · rw [List.sublist_nil.mp hr]
      exact Or.inr rfl

/-- An empty line behind a prefix is one of the rest. -/
theorem EmptyLineAt.drop (hne : cr ≠ nl) {n : Nat} {d x : List α}
    (h : EmptyLineAt cr nl n (d ++ x)) (hd : (plain cr d).length ≤ n) :
    EmptyLineAt cr nl (n - (plain cr d).length) x := by
  obtain ⟨a, c, b, heq, hn, hc⟩ := h
  rcases List.append_eq_append_iff.mp heq with ⟨a', rfl, rfl⟩ | ⟨d', rfl, hx⟩
  · refine ⟨a', c, b, rfl, ?_, hc⟩
    rw [plain_append, List.length_append] at hn
    omega
  · cases d' with
    | nil =>
        refine ⟨[], c, b, hx.symm, ?_, hc⟩
        rw [List.append_nil, hn]
        simp
    | cons e d' =>
        obtain ⟨rfl, -⟩ := List.cons.inj hx
        rw [plain_append, plain_cons hne.symm, List.length_append, List.length_cons] at hd
        omega

/-- A newline survives collapsing, with the plain symbols in front of it. -/
private theorem collapse_newline (hne : cr ≠ nl) (a t : List α) :
    ∃ u, collapse cr nl (a ++ nl :: t) = u ++ nl :: collapse cr nl t ∧ plain cr u = plain cr a := by
  induction a with
  | nil => exact ⟨[], collapse_cons fun heq => absurd heq.symm hne, rfl⟩
  | cons e a ih =>
      obtain ⟨u, hu, hplain⟩ := ih
      by_cases hpair : e = cr ∧ (a ++ nl :: t).head? = some nl
      · obtain ⟨rfl, hhead⟩ := hpair
        obtain ⟨w, hw⟩ : ∃ w, a ++ nl :: t = nl :: w := by
          cases hs : a ++ nl :: t with
          | nil =>
              rw [hs] at hhead
              cases hhead
          | cons b w =>
              rw [hs] at hhead
              exact ⟨w, by rw [Option.some.inj hhead]⟩
        refine ⟨u, ?_, hplain.trans (plain_return a).symm⟩
        rw [← hu, List.cons_append, hw, collapse_pair,
          collapse_cons fun heq => absurd heq.symm hne]
      · refine ⟨e :: u, ?_, ?_⟩
        · rw [List.cons_append, collapse_cons fun he hhead => hpair ⟨he, hhead⟩, hu]
          rfl
        · by_cases he : e = cr
          · rw [he, plain_return, plain_return, hplain]
          · rw [plain_cons he, plain_cons he, hplain]

/-- Collapsing brings the two newlines of an empty line together. -/
theorem EmptyLineAt.collapse (hne : cr ≠ nl) {n : Nat} {s : List α}
    (h : EmptyLineAt cr nl n s) :
    ∃ u v, collapse cr nl s = u ++ nl :: nl :: v ∧ (plain cr u).length = n := by
  obtain ⟨a, c, b, rfl, hn, hc⟩ := h
  obtain ⟨u, hu, hplain⟩ := collapse_newline hne a (c ++ nl :: b)
  refine ⟨u, Framing.collapse cr nl b, ?_, by rw [hplain, hn]⟩
  rw [hu]
  rcases hc with rfl | rfl
  · rw [List.nil_append, collapse_cons fun heq => absurd heq.symm hne]
  · rw [List.singleton_append, collapse_pair]

/-! ### Empty lines and blocks -/

theorem nextBlock_ne_none (nl : α) (u v : List α) : nextBlock nl (u ++ nl :: nl :: v) ≠ none := by
  induction u with
  | nil => simp [nextBlock]
  | cons a u ih =>
      cases hs : u ++ nl :: nl :: v with
      | nil => simp at hs
      | cons b rest =>
          rw [List.cons_append, hs, nextBlock]
          split
          · exact Option.some_ne_none _
          · rw [hs] at ih
            simpa using ih

/-- The unfinished rest has no first block. -/
theorem nextBlock_rest (nl : α) (s : List α) : nextBlock nl (blocks nl s).2 = none := by
  fun_induction blocks nl s with
  | case1 s h => exact h
  | case2 s f r h later ih => exact ih

private theorem nextBlock_ends {s f r : List α} (h : nextBlock nl s = some (f, r)) :
    ∃ u, f = u ++ [nl, nl] := by
  fun_induction nextBlock nl s generalizing f with
  | case1 a b rest hab =>
      obtain ⟨rfl, rfl⟩ := hab
      obtain ⟨rfl, -⟩ := Prod.mk.inj (Option.some.inj h)
      exact ⟨[], rfl⟩
  | case2 a b rest hab ih =>
      obtain ⟨⟨f', r'⟩, hf, heq⟩ := Option.map_eq_some_iff.mp h
      obtain ⟨rfl, rfl⟩ := Prod.mk.inj heq
      obtain ⟨u, rfl⟩ := ih hf
      exact ⟨a :: u, rfl⟩
  | case3 => cases h

/-- A block ends with an empty line. -/
theorem IsBlock.ends {s : List α} (h : IsBlock nl s) : ∃ u, s = u ++ [nl, nl] := nextBlock_ends h

/-- The blocks cover an empty line but for its last newline. -/
theorem EmptyLineAt.lt_plain_blocks (hne : cr ≠ nl) {n : Nat} {s : List α}
    (h : EmptyLineAt cr nl n s) :
    n < (plain cr (blocks nl (Framing.collapse cr nl s)).1.flatten).length := by
  obtain ⟨u, v, hu, rfl⟩ := h.collapse hne
  have hflat := blocks_flatten nl (Framing.collapse cr nl s)
  have hrest := nextBlock_rest nl (Framing.collapse cr nl s)
  generalize blocks nl (Framing.collapse cr nl s) = p at hflat hrest ⊢
  rw [hu] at hflat
  rcases List.append_eq_append_iff.mp hflat with ⟨c, -, hr⟩ | ⟨c, hc, hr⟩
  · rw [hr] at hrest
    exact absurd hrest (nextBlock_ne_none nl c v)
  · cases c with
    | nil =>
        rw [List.nil_append] at hr
        rw [← hr] at hrest
        exact absurd hrest (nextBlock_ne_none nl [] v)
    | cons e c =>
        obtain ⟨rfl, -⟩ := List.cons.inj hr
        rw [hc, plain_append, plain_cons hne.symm, List.length_append, List.length_cons]
        omega

/-- What was cut off a thinned list, with the blocks of the rest, covers each
empty line but for its last newline. -/
theorem EmptyLineAt.lt_plain (hne : cr ≠ nl) {n : Nat} {s d x : List α}
    (h : EmptyLineAt cr nl n s) (hthin : Thinned cr (d ++ x) s) :
    n < (plain cr (d ++ (blocks nl (Framing.collapse cr nl x)).1.flatten)).length := by
  rw [plain_append, List.length_append]
  by_cases hd : (plain cr d).length ≤ n
  · have hlt := ((h.thinned hne hthin).drop hne hd).lt_plain_blocks hne
    omega
  · omega

/-! ### Blocks of a prefix -/

/-- What a list collapses to, up to a newline, is not changed by what follows. -/
private theorem collapse_append_newline (hne : cr ≠ nl) {s w r : List α}
    (h : collapse cr nl s = w ++ nl :: r) (t : List α) :
    ∃ r', collapse cr nl (s ++ t) = w ++ nl :: r' := by
  fun_induction collapse cr nl s generalizing w with
  | case1 a b rest hab ih =>
      obtain ⟨rfl, rfl⟩ := hab
      rw [List.cons_append, List.cons_append, collapse_pair]
      cases w with
      | nil => exact ⟨_, rfl⟩
      | cons e w =>
          obtain ⟨rfl, htail⟩ := List.cons.inj h
          obtain ⟨r', hr'⟩ := ih htail
          exact ⟨r', by rw [hr']; rfl⟩
  | case2 a b rest hab ih =>
      have hcons : collapse cr nl (a :: b :: rest ++ t) = a :: collapse cr nl (b :: rest ++ t) := by
        rw [List.cons_append, List.cons_append, collapse, if_neg hab]
      rw [hcons]
      cases w with
      | nil =>
          obtain ⟨rfl, -⟩ := List.cons.inj h
          exact ⟨_, rfl⟩
      | cons e w =>
          obtain ⟨rfl, htail⟩ := List.cons.inj h
          obtain ⟨r', hr'⟩ := ih htail
          exact ⟨r', by rw [hr']; rfl⟩
  | case3 s hs =>
      rcases s with - | ⟨a, - | ⟨b, rest⟩⟩
      · simp at h
      · obtain ⟨rfl, rfl⟩ : w = [] ∧ a = nl := by
          cases w with
          | nil => exact ⟨rfl, (List.cons.inj h).1⟩
          | cons e w => simp at h
        exact ⟨_, collapse_cons fun heq => absurd heq.symm hne⟩
      · exact absurd rfl (hs a b rest)

/-- The blocks of a collapsed prefix are the first blocks of the whole. -/
theorem blocks_collapse_prefix (hne : cr ≠ nl) (s t : List α) :
    (blocks nl (collapse cr nl s)).1 <+: (blocks nl (collapse cr nl (s ++ t))).1 := by
  obtain ⟨r, hr⟩ : ∃ r, collapse cr nl (s ++ t) =
      (blocks nl (collapse cr nl s)).1.flatten ++ r := by
    rcases blocks_getLast nl (collapse cr nl s) with hnil | hlast
    · exact ⟨collapse cr nl (s ++ t), by rw [hnil]; rfl⟩
    · obtain ⟨w, hw⟩ := List.getLast?_eq_some_iff.mp hlast
      have hflat := blocks_flatten nl (collapse cr nl s)
      rw [hw, List.append_assoc] at hflat
      obtain ⟨r, hr⟩ := collapse_append_newline hne hflat.symm t
      exact ⟨r, by rw [hr, hw, List.append_assoc]; rfl⟩
  rw [hr, blocks_replace]
  exact List.prefix_append _ _

end Framing
