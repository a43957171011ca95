import LlmCacheProxy.Foundation.Json
import Mathlib.Data.List.Induction
import Mathlib.Data.List.Sort

/-!
# Sorted JSON values

On well-formed values, equality up to the order of members is an equivalence.
Each class has one value whose members stand in name order at every depth.
-/

namespace Json

/-! ### Members by name -/

theorem lookup_eq_none_iff {k : Text} {members : List (Text × Json)} :
    lookup k members = none ↔ k ∉ members.map Prod.fst := by
  induction members with
  | nil => simp [lookup]
  | cons p rest ih =>
      by_cases hk : k = p.1
      · simp [lookup, hk]
      · simpa [lookup, hk] using ih

private theorem names_perm {ms ns : List (Text × Json)} (hms : (ms.map Prod.fst).Nodup)
    (hns : (ns.map Prod.fst).Nodup) (h : ∀ k, lookup k ms = none ↔ lookup k ns = none) :
    (ms.map Prod.fst).Perm (ns.map Prod.fst) := by
  apply (List.perm_ext_iff_of_nodup hms hns).mpr
  intro k
  have hk := h k
  rw [lookup_eq_none_iff, lookup_eq_none_iff] at hk
  exact not_iff_not.mp hk

/-- Two objects are equal when every name stands for equal values, or for none. -/
theorem equiv_object_iff {ms ns : List (Text × Json)} (hms : (ms.map Prod.fst).Nodup)
    (hns : (ns.map Prod.fst).Nodup) :
    Equiv (.object ms) (.object ns) ↔ ∀ k, Option.Rel Equiv (lookup k ms) (lookup k ns) := by
  rw [Equiv, equivMembers_iff]
  constructor
  · rintro ⟨hlen, hmem⟩ k
    have hsub : ms.map Prod.fst ⊆ ns.map Prod.fst := by
      intro l hl
      obtain ⟨p, hp, rfl⟩ := List.mem_map.mp hl
      obtain ⟨w, hw, _⟩ := hmem p hp
      exact List.mem_map.mpr ⟨_, mem_of_lookup hw, rfl⟩
    have hperm : (ms.map Prod.fst).Perm (ns.map Prod.fst) :=
      (List.subperm_of_subset hms hsub).perm_of_length_le (by simp [hlen])
    cases hk : lookup k ms with
    | none =>
        have hn : lookup k ns = none :=
          lookup_eq_none_iff.mpr fun hmem => lookup_eq_none_iff.mp hk (hperm.mem_iff.mpr hmem)
        rw [hn]
        exact .none
    | some v =>
        obtain ⟨w, hw, hvw⟩ := hmem (k, v) (mem_of_lookup hk)
        rw [show lookup k ns = some w from hw]
        exact .some hvw
  · intro hrel
    constructor
    · -- the same names occur, so there are as many members
      have hnone (k : Text) : lookup k ms = none ↔ lookup k ns = none := by
        have hk := hrel k
        generalize lookup k ms = o at hk ⊢
        generalize lookup k ns = u at hk ⊢
        cases hk <;> simp
      simpa using (names_perm hms hns hnone).length_eq
    · intro p hp
      have hp' : lookup p.1 ms = some p.2 := (lookup_eq_some_iff hms).mpr hp
      have hr := hrel p.1
      rw [hp'] at hr
      generalize lookup p.1 ns = o at hr ⊢
      cases hr with
      | some h => exact ⟨_, rfl, h⟩

/-- Related values stay related under maps that respect them. -/
theorem rel_map {R S : Json → Json → Prop} {f g : Json → Json} {o u : Option Json}
    (h : Option.Rel R o u) (hf : ∀ v ∈ o, ∀ w ∈ u, R v w → S (f v) (g w)) :
    Option.Rel S (o.map f) (u.map g) := by
  cases h with
  | none => exact .none
  | some hvw => exact .some (hf _ rfl _ rfl hvw)

/-! ### An equivalence -/

theorem Equiv.refl {a : Json} (h : a.WellFormed) : Equiv a a := by
  induction a using Json.inductOn with
  | null => trivial
  | bool | number | string => rfl
  | array elems ih =>
      rw [Equiv, equivElems_iff]
      exact List.forall₂_same.mpr fun j hj => ih j hj (h.of_array j hj)
  | object members ih =>
      obtain ⟨hn, hm⟩ := h.of_object
      apply (equiv_object_iff hn hn).mpr
      intro k
      cases hk : lookup k members with
      | none => exact .none
      | some v =>
          have hmem := mem_of_lookup hk
          exact .some (ih _ hmem (hm _ hmem))

theorem Equiv.symm {a b : Json} (ha : a.WellFormed) (hb : b.WellFormed) (h : Equiv a b) :
    Equiv b a := by
  induction a using Json.inductOn generalizing b with
  | null | bool | number | string => cases b <;> simp_all [Equiv]
  | array xs ih =>
      cases b with
      | array ys =>
          rw [Equiv, equivElems_iff] at h ⊢
          have hx := ha.of_array
          have hy := hb.of_array
          clear ha hb
          induction h with
          | nil => exact .nil
          | cons hxy hrest ihr =>
              apply List.Forall₂.cons
              · exact ih _ (by simp) (hx _ (by simp)) (hy _ (by simp)) hxy
              · exact ihr (fun j hj => ih j (by simp [hj])) (fun j hj => hx j (by simp [hj]))
                  (fun j hj => hy j (by simp [hj]))
      | null | bool | number | string | object => simp [Equiv] at h
  | object ms ih =>
      cases b with
      | object ns =>
          obtain ⟨hms, hwm⟩ := ha.of_object
          obtain ⟨hns, hwn⟩ := hb.of_object
          rw [equiv_object_iff hms hns] at h
          rw [equiv_object_iff hns hms]
          intro k
          have hk : Option.Rel (fun w v => Equiv v w) (lookup k ns) (lookup k ms) := by
            have hk := h k
            generalize lookup k ms = o at hk ⊢
            generalize lookup k ns = u at hk ⊢
            cases hk with
            | none => exact .none
            | some hvw => exact .some hvw
          have hmap : Option.Rel Equiv ((lookup k ns).map id) ((lookup k ms).map id) := by
            apply rel_map hk
            intro w hw v hv hvw
            have hv := mem_of_lookup hv
            exact ih _ hv (hwm _ hv) (hwn _ (mem_of_lookup hw)) hvw
          simpa using hmap
      | null | bool | number | string | array => simp [Equiv] at h

theorem Equiv.trans {a b c : Json} (hab : Equiv a b) (hbc : Equiv b c) : Equiv a c := by
  induction a using Json.inductOn generalizing b c with
  | null | bool | number | string => cases b <;> cases c <;> simp_all [Equiv]
  | array xs ih =>
      cases b with
      | array ys =>
          cases c with
          | array zs =>
              rw [Equiv, equivElems_iff] at hab hbc ⊢
              induction hab generalizing zs with
              | nil => exact hbc
              | cons hxy hrest ihr =>
                  cases hbc with
                  | cons hyz hbc =>
                      exact .cons (ih _ (by simp) hxy hyz)
                        (ihr (fun j hj => ih j (by simp [hj])) _ hbc)
          | null | bool | number | string | object => simp [Equiv] at hbc
      | null | bool | number | string | object => simp [Equiv] at hab
  | object ms ih =>
      cases b with
      | object ns =>
          cases c with
          | object os =>
              rw [Equiv, equivMembers_iff] at hab hbc ⊢
              constructor
              · exact hab.1.trans hbc.1
              · intro p hp
                obtain ⟨w, hw, hpw⟩ := hab.2 p hp
                obtain ⟨u, hu, hwu⟩ := hbc.2 _ (mem_of_lookup hw)
                exact ⟨u, hu, ih p hp hpw hwu⟩
          | null | bool | number | string | array => simp [Equiv] at hbc
      | null | bool | number | string | array => simp [Equiv] at hab

instance : Trans Equiv Equiv Equiv := ⟨Equiv.trans⟩

/-! ### One sorted value in each class -/

/-- Members in strict name order at every depth. -/
inductive Sorted : Json → Prop where
  | null : Sorted .null
  | bool (b : Bool) : Sorted (.bool b)
  | number (n : JsonNumber) : Sorted (.number n)
  | string (s : Text) : Sorted (.string s)
  | array {elems : List Json} (h : ∀ j ∈ elems, Sorted j) : Sorted (.array elems)
  | object {members : List (Text × Json)} (names : (members.map Prod.fst).Pairwise (· < ·))
      (h : ∀ p ∈ members, Sorted p.2) : Sorted (.object members)

theorem Sorted.of_array {elems : List Json} (h : Sorted (.array elems)) :
    ∀ j ∈ elems, Sorted j := by
  cases h with
  | array h => exact h

theorem Sorted.of_object {members : List (Text × Json)} (h : Sorted (.object members)) :
    (members.map Prod.fst).Pairwise (· < ·) ∧ ∀ p ∈ members, Sorted p.2 := by
  cases h with
  | object names h => exact ⟨names, h⟩

theorem nodup_of_increasing {names : List Text} (h : names.Pairwise (· < ·)) : names.Nodup :=
  h.imp fun hab => ne_of_lt hab

private theorem insertMember_last {k : Text} {v : Json} {members : List (Text × Json)}
    (h : ∀ p ∈ members, p.1 < k) : insertMember k v members = members ++ [(k, v)] := by
  induction members with
  | nil => rfl
  | cons p rest ih =>
      have hp : p.1 < k := h p (by simp)
      rw [insertMember, if_neg (not_lt_of_gt hp), if_neg (ne_of_gt hp),
        ih fun q hq => h q (by simp [hq])]
      rfl

theorem mem_insertMember {k : Text} {v : Json} {members : List (Text × Json)} {p : Text × Json}
    (h : p ∈ insertMember k v members) : p = (k, v) ∨ p ∈ members := by
  induction members with
  | nil => exact Or.inl (List.mem_singleton.mp h)
  | cons q rest ih =>
      rw [insertMember] at h
      split at h
      · exact List.mem_cons.mp h
      split at h
      · exact (List.mem_cons.mp h).imp_right (List.mem_cons_of_mem q)
      · rcases List.mem_cons.mp h with rfl | h
        · exact Or.inr (List.mem_cons_self ..)
        · exact (ih h).imp_right (List.mem_cons_of_mem q)

theorem increasing_insertMember {members : List (Text × Json)}
    (h : (members.map Prod.fst).Pairwise (· < ·)) (k : Text) (v : Json) :
    ((insertMember k v members).map Prod.fst).Pairwise (· < ·) := by
  induction members with
  | nil => exact List.pairwise_singleton _ _
  | cons p rest ih =>
      obtain ⟨hp, hrest⟩ := List.pairwise_cons.mp h
      rw [insertMember]
      split
      · rename_i hlt
        refine List.pairwise_cons.mpr ⟨fun name hname => ?_, h⟩
        rcases List.mem_cons.mp hname with rfl | hname
        · exact hlt
        · exact hlt.trans (hp name hname)
      split
      · rename_i heq
        subst heq
        exact List.pairwise_cons.mpr ⟨hp, hrest⟩
      · rename_i hlt hne
        refine List.pairwise_cons.mpr ⟨fun name hname => ?_, ih hrest⟩
        obtain ⟨q, hq, rfl⟩ := List.mem_map.mp hname
        rcases mem_insertMember hq with rfl | hq
        · exact lt_of_le_of_ne (not_lt.mp hlt) (Ne.symm hne)
        · exact hp q.1 (List.mem_map.mpr ⟨q, hq, rfl⟩)

/-- An object literal has its members in name order, and no others. -/
theorem ofMembers_object (members : List (Text × Json)) :
    ∃ ms, ofMembers members = .object ms ∧ (ms.map Prod.fst).Pairwise (· < ·) ∧
      ∀ p ∈ ms, p ∈ members := by
  refine ⟨_, rfl, ?_⟩
  induction members using List.reverseRecOn with
  | nil => simp
  | append_singleton members p ih =>
      rw [List.foldl_concat]
      refine ⟨increasing_insertMember ih.1 p.1 p.2, fun q hq => ?_⟩
      rcases mem_insertMember hq with rfl | hq
      · simp
      · exact List.mem_append_left _ (ih.2 q hq)

/-- Members that stand in name order already are collected as they are. -/
theorem ofMembers_of_increasing {members : List (Text × Json)}
    (h : (members.map Prod.fst).Pairwise (· < ·)) : ofMembers members = .object members := by
  have hfold (ms : List (Text × Json)) (hms : (ms.map Prod.fst).Pairwise (· < ·)) :
      ms.foldl (fun acc p => insertMember p.1 p.2 acc) [] = ms := by
    induction ms using List.reverseRecOn with
    | nil => rfl
    | append_singleton ms p ih =>
        rw [List.map_append, List.pairwise_append] at hms
        rw [List.foldl_append, ih hms.1]
        apply insertMember_last
        intro q hq
        exact hms.2.2 q.1 (List.mem_map.mpr ⟨q, hq, rfl⟩) p.1 (by simp)
  rw [ofMembers, hfold members h]

theorem Sorted.wellFormed {a : Json} (h : Sorted a) : WellFormed a := by
  induction h with
  | null => exact .null
  | bool b => exact .bool b
  | number n => exact .number n
  | string s => exact .string s
  | array _ ih => exact .array ih
  | object names _ ih => exact .object (nodup_of_increasing names) ih

theorem Sorted.eq_of_equiv {a b : Json} (ha : Sorted a) (hb : Sorted b) (h : Equiv a b) :
    a = b := by
  induction a using Json.inductOn generalizing b with
  | null | bool | number | string => cases b <;> simp_all [Equiv]
  | array xs ih =>
      cases b with
      | array ys =>
          rw [Equiv, equivElems_iff] at h
          have hx := ha.of_array
          have hy := hb.of_array
          clear ha hb
          congr 1
          induction h with
          | nil => rfl
          | cons hxy hrest ihr =>
              congr 1
              · exact ih _ (by simp) (hx _ (by simp)) (hy _ (by simp)) hxy
              · exact ihr (fun j hj => ih j (by simp [hj])) (fun j hj => hx j (by simp [hj]))
                  (fun j hj => hy j (by simp [hj]))
      | null | bool | number | string | object => simp [Equiv] at h
  | object ms ih =>
      cases b with
      | object ns =>
          obtain ⟨hms, hsm⟩ := ha.of_object
          obtain ⟨hns, hsn⟩ := hb.of_object
          rw [Equiv, equivMembers_iff] at h
          -- equal values under each name make `ms` a sublist of `ns` as a set
          have hsub : ms ⊆ ns := by
            intro p hp
            obtain ⟨w, hw, hpw⟩ := h.2 p hp
            have hw := mem_of_lookup hw
            have : p.2 = w := ih p hp (hsm p hp) (hsn _ hw) hpw
            rwa [← this] at hw
          have hperm : ms.Perm ns :=
            (List.subperm_of_subset (nodup_of_increasing hms).of_map hsub).perm_of_length_le
              (by omega)
          congr 1
          apply hperm.eq_of_pairwise _ (List.pairwise_map.mp hms) (List.pairwise_map.mp hns)
          intro p q _ _ hpq hqp
          exact absurd (hpq.trans hqp) (lt_irrefl _)
      | null | bool | number | string | array => simp [Equiv] at h

end Json
