import LlmCacheProxy.Hash

/-!
# What the hashed bytes determine

Method, path and normalized body are joined by bars. No method of the routes
contains one, but a decoded path and a normalized body may, so a bar can move
from the body into the path. Two endpoints share no hashed bytes exactly when
neither path extends the other behind a bar.
-/

namespace LlmCacheProxy

/-- The methods of the proxy routes. A route for GET answers HEAD as well. -/
inductive RouterMethod where
  | post
  | get
  | head
  deriving DecidableEq

def RouterMethod.name : RouterMethod → Text
  | .post => "POST"
  | .get => "GET"
  | .head => "HEAD"

theorem RouterMethod.name_injective : Function.Injective RouterMethod.name := by
  intro m n h
  cases m <;> cases n <;> first | rfl | exact absurd h (by decide)

theorem RouterMethod.not_mem_name (m : RouterMethod) : 0x7C ∉ m.name.bytes := by
  cases m <;> decide

/-! ### Separators -/

/-- Two texts with a separator in them are equal only if one front part reaches
up to a separator of the other text. -/
theorem split_at_separator {b : UInt8} {x y s t : Bytes} (h : x ++ b :: s = y ++ b :: t) :
    (x = y ∧ s = t) ∨ (∃ q, y = x ++ b :: q ∧ s = q ++ b :: t) ∨
      ∃ q, x = y ++ b :: q ∧ t = q ++ b :: s := by
  induction x generalizing y with
  | nil =>
      cases y with
      | nil => exact Or.inl ⟨rfl, (List.cons.inj h).2⟩
      | cons c y =>
          obtain ⟨rfl, hs⟩ := List.cons.inj h
          exact Or.inr (Or.inl ⟨y, rfl, hs⟩)
  | cons a x ih =>
      cases y with
      | nil =>
          obtain ⟨rfl, ht⟩ := List.cons.inj h
          exact Or.inr (Or.inr ⟨x, rfl, ht.symm⟩)
      | cons c y =>
          obtain ⟨rfl, hrest⟩ := List.cons.inj h
          rcases ih (y := y) hrest with ⟨rfl, rfl⟩ | ⟨q, rfl, rfl⟩ | ⟨q, rfl, rfl⟩
          · exact Or.inl ⟨rfl, rfl⟩
          · exact Or.inr (Or.inl ⟨q, rfl, rfl⟩)
          · exact Or.inr (Or.inr ⟨q, rfl, rfl⟩)

/-- Without separators in them the front parts are equal. -/
theorem split_at_first {b : UInt8} {x y s t : Bytes} (hx : b ∉ x) (hy : b ∉ y)
    (h : x ++ b :: s = y ++ b :: t) : x = y ∧ s = t := by
  rcases split_at_separator h with heq | ⟨q, rfl, -⟩ | ⟨q, rfl, -⟩
  · exact heq
  · exact absurd (by simp) hy
  · exact absurd (by simp) hx

/-- `s`, a bar and `t`. -/
def barred (s t : Text) : Text := s ++ (("|" : Text) ++ t)

@[simp] theorem bytes_barred (s t : Text) : (barred s t).bytes = s.bytes ++ 0x7C :: t.bytes := rfl

theorem ne_barred (s t : Text) : s ≠ barred s t := by
  intro h
  have hlen := congrArg (fun u : Text => u.bytes.length) h
  simp only [bytes_barred, List.length_append, List.length_cons] at hlen
  omega

/-- What stands behind a bar in a text is a text. -/
theorem exists_barred {path : Text} {t : Bytes} {path' : Text}
    (h : path'.bytes = path.bytes ++ 0x7C :: t) :
    ∃ q : Text, q.bytes = t ∧ path' = barred path q := by
  have hbar : Utf8.Valid (path.bytes ++ [0x7C]) := path.valid.append (by decide)
  have hv : Utf8.Valid (path.bytes ++ [0x7C] ++ t) := by
    rw [List.append_assoc]
    exact h ▸ path'.valid
  exact ⟨⟨t, hbar.append_iff.mp hv⟩, rfl, Text.ext h⟩

/-! ### Collisions -/

variable (c : Serde) (p : Provider)

/-- The hashed bytes of two requests are equal exactly when the requests agree,
or a bar has moved between the path and the body. -/
theorem hashInput_eq_cases (p₁ p₂ : Provider) (m₁ m₂ : RouterMethod) (path₁ path₂ : Text)
    (x y : Bytes) :
    hashInput c p₁ m₁.name path₁ x = hashInput c p₂ m₂.name path₂ y ↔
      m₁ = m₂ ∧
        ((path₁ = path₂ ∧ normalizeBody c p₁ x = normalizeBody c p₂ y) ∨
          (∃ q, path₂ = barred path₁ q ∧ normalizeBody c p₁ x = barred q (normalizeBody c p₂ y)) ∨
          ∃ q, path₁ = barred path₂ q ∧
            normalizeBody c p₂ y = barred q (normalizeBody c p₁ x)) := by
  constructor
  · intro h
    obtain ⟨hmethod, hrest⟩ := split_at_first m₁.not_mem_name m₂.not_mem_name h
    refine ⟨RouterMethod.name_injective (Text.ext hmethod), ?_⟩
    rcases split_at_separator hrest with ⟨hpath, hbody⟩ | ⟨t, hpath, hbody⟩ | ⟨t, hpath, hbody⟩
    · exact Or.inl ⟨Text.ext hpath, Text.ext hbody⟩
    · obtain ⟨q, rfl, hq⟩ := exists_barred hpath
      exact Or.inr (Or.inl ⟨q, hq, Text.ext hbody⟩)
    · obtain ⟨q, rfl, hq⟩ := exists_barred hpath
      exact Or.inr (Or.inr ⟨q, hq, Text.ext hbody⟩)
  · rintro ⟨rfl, ⟨rfl, hbody⟩ | ⟨q, rfl, hbody⟩ | ⟨q, rfl, hbody⟩⟩
    · rw [hashInput, hashInput, hbody]
    · simp [hashInput, hbody]
    · simp [hashInput, hbody]

variable {c}

/-- A JSON text never ends with a NUL byte. -/
def RejectsNul (c : Serde) : Prop := ∀ t : Bytes, c.parse (t ++ [0x00]) = none

theorem normalizeBody_nul (h : RejectsNul c) {t : Bytes} (ht : Utf8.Valid (t ++ [0x00])) :
    normalizeBody c p (t ++ [0x00]) = ⟨t ++ [0x00], ht⟩ := by
  apply Text.ext
  simp only [normalizeBody, h t, Text.lossy]
  exact Utf8.lossy_of_valid ht

/-- Behind a longer path a shorter body gives the same hashed bytes. -/
theorem exists_collision (h : RejectsNul c) (m : RouterMethod) (path q : Text) :
    ∃ x y, hashInput c p m.name path x = hashInput c p m.name (barred path q) y := by
  have hnul : Utf8.Valid ([] ++ [0x00]) := by decide
  have hq : Utf8.Valid (q.bytes ++ [0x7C] ++ [0x00]) :=
    (q.valid.append (by decide)).append hnul
  refine ⟨q.bytes ++ [0x7C] ++ [0x00], [] ++ [0x00], ?_⟩
  rw [hashInput_eq_cases]
  refine ⟨rfl, Or.inr (Or.inl ⟨q, rfl, ?_⟩)⟩
  rw [normalizeBody_nul p h hq, normalizeBody_nul p h hnul]
  apply Text.ext
  simp

/-- The hashed bytes determine the request, whatever the bodies, exactly when
the methods differ or neither path extends the other behind a bar. In general
they determine it up to bars between the path and the body. -/
theorem hashInput_determines_iff (h : RejectsNul c) (m₁ m₂ : RouterMethod)
    (path₁ path₂ : Text) :
    ((∀ x y, hashInput c p m₁.name path₁ x = hashInput c p m₂.name path₂ y →
        m₁ = m₂ ∧ path₁ = path₂ ∧ normalizeBody c p x = normalizeBody c p y) ↔
      (m₁ = m₂ → ∀ q, path₂ ≠ barred path₁ q ∧ path₁ ≠ barred path₂ q)) ∧
    ∀ x y, hashInput c p m₁.name path₁ x = hashInput c p m₂.name path₂ y ↔
      m₁ = m₂ ∧
        ((path₁ = path₂ ∧ normalizeBody c p x = normalizeBody c p y) ∨
          (∃ q, path₂ = barred path₁ q ∧ normalizeBody c p x = barred q (normalizeBody c p y)) ∨
          ∃ q, path₁ = barred path₂ q ∧ normalizeBody c p y = barred q (normalizeBody c p x)) := by
  refine ⟨⟨?_, ?_⟩, hashInput_eq_cases c p p m₁ m₂ path₁ path₂⟩
  · rintro hdet rfl q
    constructor
    · rintro rfl
      obtain ⟨x, y, hxy⟩ := exists_collision p h m₁ path₁ q
      exact ne_barred _ _ (hdet x y hxy).2.1
    · rintro rfl
      obtain ⟨x, y, hxy⟩ := exists_collision p h m₁ path₂ q
      exact ne_barred _ _ (hdet y x hxy.symm).2.1.symm
  · intro hne x y hxy
    obtain ⟨hm, hsame | ⟨q, hq, -⟩ | ⟨q, hq, -⟩⟩ := (hashInput_eq_cases c p p _ _ _ _ x y).mp hxy
    · exact ⟨hm, hsame⟩
    · exact absurd hq (hne hm q).1
    · exact absurd hq (hne hm q).2

/-! ### Samples -/

theorem sampleSerde_rejectsNul : RejectsNul sampleSerde := by
  have hlast {t s : Bytes} (hs : s.getLast? ≠ some 0x00) : t ++ [0x00] ≠ s := by
    rintro rfl
    exact hs List.getLast?_concat
  intro t
  simp only [sampleSerde]
  rw [if_neg (hlast (by decide)), if_neg (hlast (by decide))]

/-- Two endpoints of one provider never share hashed bytes. -/
theorem hashInput_determines_responses :
    ¬ ∃ x y, hashInput sampleSerde .openAi (RouterMethod.name .post) "/openai/v1/responses" x =
      hashInput sampleSerde .openAi (RouterMethod.name .post) "/openai/v1/models" y := by
  have hnot {s t : Text} (hst : ¬ s.bytes <+: t.bytes) (q : Text) : t ≠ barred s q := by
    rintro rfl
    exact hst ⟨_, rfl⟩
  rintro ⟨x, y, h⟩
  have hdet := (hashInput_determines_iff .openAi sampleSerde_rejectsNul .post .post
    "/openai/v1/responses" "/openai/v1/models").1.mpr
  have hsame := hdet (fun _ q => ⟨hnot (by decide) q, hnot (by decide) q⟩) x y h
  exact absurd hsame.2.1 (by decide)

/-- An encoded bar in a path shares the hashed bytes of a shorter path. -/
theorem hashInput_collides :
    hashInput sampleSerde .openAi (RouterMethod.name .post) "/openai/x"
        (Text.ofString "y|z").bytes =
      hashInput sampleSerde .openAi (RouterMethod.name .post) "/openai/x|y"
        (Text.ofString "z").bytes ∧
    (Text.ofString "/openai/x") ≠ "/openai/x|y" := by
  decide

end LlmCacheProxy
