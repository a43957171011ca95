import LlmCacheProxy.Foundation.LossyUtf8
import LlmCacheProxy.Runs

/-!
# Bodies that are not JSON

A body that is not JSON is meant to be keyed by its raw bytes. It is keyed by
its lossy decoding, which two bodies share when they differ only in invalid
sequences and U+FFFD. Such a body is never stored, but it is looked up.
-/

namespace LlmCacheProxy

open Json hiding Equiv

/-- What a body is to be keyed by: the bytes of a body that is not JSON, and the
normalized text of one that is. -/
def verbatim (c : Serde) (p : Provider) (body : Bytes) : Bytes :=
  match c.parse body with
  | none => body
  | some value => (c.serialize (sortKeys (stripped p value))).bytes

theorem verbatim_of_not_json {c : Serde} {body : Bytes} (h : c.parse body = none) (p : Provider) :
    verbatim c p body = body := by
  simp only [verbatim, h]

/-- The normal form is the lossy decoding of what it should be. -/
theorem bytes_normalizeBody (c : Serde) (p : Provider) (body : Bytes) :
    (normalizeBody c p body).bytes = Utf8.lossy (verbatim c p body) := by
  simp only [normalizeBody, verbatim]
  cases c.parse body with
  | none => rfl
  | some value => exact (Utf8.lossy_of_valid (Text.valid _)).symm

theorem normalizeBody_eq_iff_alike (c : Serde) (p : Provider) (x y : Bytes) :
    normalizeBody c p x = normalizeBody c p y ↔
      Utf8.Alike (verbatim c p x) (verbatim c p y) := by
  rw [← Utf8.lossy_eq_iff, ← bytes_normalizeBody, ← bytes_normalizeBody]
  exact ⟨congrArg Text.bytes, Text.ext⟩

namespace ServerConfig

/-! ### Requests to one endpoint -/

/-- The requests differ in query, headers and body at most. -/
structure OneEndpoint (r₁ r₂ : Request) : Prop where
  method : r₁.method = r₂.method
  provider : r₁.providerStr = r₂.providerStr
  path : r₁.path = r₂.path

/-- Some upstream and some client make the proxy store a response. -/
def Storable (cfg : ServerConfig) (req : Request) (a : Admitted) : Prop :=
  ∃ send u items client, cfg.Relays req send a u items ∧ Cacheable a u items client

section Endpoint

variable {cfg : ServerConfig} {c : Cache} {r₁ r₂ : Request} {a₁ a₂ : Admitted}

/-- To one endpoint, what is hashed is the same exactly when the bodies are alike. -/
theorem keyInput_eq_iff_alike (h₁ : cfg.admitted r₁ = .ok a₁) (h₂ : cfg.admitted r₂ = .ok a₂)
    (h : OneEndpoint r₁ r₂) :
    cfg.keyInput r₁ a₁ = cfg.keyInput r₂ a₂ ↔
      Utf8.Alike (verbatim cfg.crates.toSerde a₁.provider a₁.body)
        (verbatim cfg.crates.toSerde a₁.provider a₂.body) := by
  have hprovider := provider_eq h₁ h₂ h.provider
  have hpath : fullPath r₁ = fullPath r₂ := by rw [fullPath, fullPath, h.provider, h.path]
  rw [keyInput, keyInput, ← hprovider, ← h.method, ← hpath, hashInput_eq_iff,
    normalizeBody_eq_iff_alike]

theorem key_eq_of_keyInput (h₁ : cfg.admitted r₁ = .ok a₁) (h₂ : cfg.admitted r₂ = .ok a₂)
    (h : cfg.keyInput r₁ a₁ = cfg.keyInput r₂ a₂) : a₁.key = a₂.key :=
  calc
    a₁.key = (cfg.crates.blake3 (cfg.keyInput r₁ a₁)).toHex := (admitted_spec h₁).2.2.2
    _ = (cfg.crates.blake3 (cfg.keyInput r₂ a₂)).toHex := by rw [h]
    _ = a₂.key := (admitted_spec h₂).2.2.2.symm

theorem keyInput_of_key_eq (hfree : cfg.NoCollision r₁ r₂) (h₁ : cfg.admitted r₁ = .ok a₁)
    (h₂ : cfg.admitted r₂ = .ok a₂) (h : a₁.key = a₂.key) :
    cfg.keyInput r₁ a₁ = cfg.keyInput r₂ a₂ := by
  apply hfree a₁ a₂ h₁ h₂
  apply Digest.toHex_injective
  calc
    (cfg.crates.blake3 (cfg.keyInput r₁ a₁)).toHex = a₁.key := (admitted_spec h₁).2.2.2.symm
    _ = a₂.key := h
    _ = (cfg.crates.blake3 (cfg.keyInput r₂ a₂)).toHex := (admitted_spec h₂).2.2.2

/-- A stored response answers the requests to its endpoint with an alike body. -/
theorem answersFor_iff_alike (hc : RoundTrips c.crates) (h₁ : cfg.admitted r₁ = .ok a₁)
    (h₂ : cfg.admitted r₂ = .ok a₂) (h : OneEndpoint r₁ r₂) (hfree : cfg.NoCollision r₁ r₂)
    (hstore : cfg.Storable r₁ a₁) (hb : a₂.bypass = false) :
    AnswersFor cfg c r₁ r₂ ↔
      Utf8.Alike (verbatim cfg.crates.toSerde a₁.provider a₁.body)
        (verbatim cfg.crates.toSerde a₁.provider a₂.body) := by
  rw [← keyInput_eq_iff_alike h₁ h₂ h]
  constructor
  · rintro ⟨s, a, e, hs, hstored, hhit⟩
    obtain rfl : a₂ = a := Except.ok.inj (h₂.symm.trans hhit.admitted)
    obtain ⟨-, a, ha, -, hkey, -⟩ := hstored.issued hs.provenance
    obtain rfl : a₁ = a := Except.ok.inj (h₁.symm.trans ha)
    exact keyInput_of_key_eq hfree h₁ h₂ hkey.symm
  · intro hinput
    obtain ⟨send, u, items, client, hrelays, hcacheable⟩ := hstore
    exact answersFor_of_key hc hrelays hcacheable h₂ hb (key_eq_of_keyInput h₁ h₂ hinput)

end Endpoint

/-! ### Keyed verbatim -/

/-- The hashed bytes of two bodies that are not JSON tell them apart exactly
when the bodies are not alike, and a stored response answers a request whose
body is not text exactly when that body is alike to what the stored one is keyed
by. -/
theorem verbatim_iff {c : Serde} {y : Bytes} (hy : c.parse y = none) :
    (∀ {x : Bytes}, c.parse x = none → ∀ (p : Provider) (method path : Text),
      (hashInput c p method path x = hashInput c p method path y ↔ x = y) ↔
        (x = y ∨ ¬ Utf8.Alike x y)) ∧
    ∀ {cfg : ServerConfig} {cache : Cache} {r₁ r₂ : Request} {a₁ a₂ : Admitted},
      cfg.crates.toSerde = c → RoundTrips cache.crates → cfg.admitted r₁ = .ok a₁ →
      cfg.admitted r₂ = .ok a₂ → OneEndpoint r₁ r₂ → cfg.NoCollision r₁ r₂ →
      cfg.Storable r₁ a₁ → a₂.bypass = false → a₂.body = y → ¬ Utf8.Valid y →
      a₁.body ≠ y ∧ (¬ AnswersFor cfg cache r₁ r₂ ↔
        ¬ Utf8.Alike (verbatim c a₁.provider a₁.body) y) := by
  constructor
  · intro x hx p method path
    rw [hashInput_eq_iff, normalizeBody_eq_iff_alike, verbatim_of_not_json hx,
      verbatim_of_not_json hy]
    constructor
    · intro h
      by_cases hxy : x = y
      · exact Or.inl hxy
      · exact Or.inr fun halike => hxy (h.mp halike)
    · rintro (rfl | hnot)
      · exact ⟨fun _ => rfl, fun _ => Utf8.lossy_eq_iff.mp rfl⟩
      · constructor
        · exact fun halike => absurd halike hnot
        · rintro rfl
          exact Utf8.lossy_eq_iff.mp rfl
  · rintro cfg cache r₁ r₂ a₁ a₂ rfl hc h₁ h₂ h hfree hstore hb rfl hinvalid
    constructor
    · obtain ⟨_, _, _, _, -, hcacheable⟩ := hstore
      intro heq
      exact hinvalid (heq ▸ hcacheable.request)
    · rw [answersFor_iff_alike hc h₁ h₂ h hfree hstore hb, verbatim_of_not_json hy]

/-! ### Samples -/

/-- An upload. -/
def uploadRequest (body : Bytes) : Request :=
  ⟨"POST", "openai", "v1/audio/transcriptions", none, [], body⟩

def uploadAdmitted (body : Bytes) : Admitted :=
  let keyed := cacheKeyAndModel sampleConfig.crates .openAi "POST"
    "/openai/v1/audio/transcriptions" body
  ⟨.openAi, false, none, "/openai/v1/audio/transcriptions", body, keyed.1, keyed.2⟩

private theorem admitted_uploadRequest (body : Bytes) :
    sampleConfig.admitted (uploadRequest body) = .ok (uploadAdmitted body) := rfl

private theorem uploadRequest_relays (body : Bytes) :
    sampleConfig.Relays (uploadRequest body) (fun _ => .ok cutResponse) (uploadAdmitted body)
      cutResponse cutResponse.stream :=
  ⟨_, [], admitted_uploadRequest body, rfl, rfl, rfl⟩

private theorem alike_mark : Utf8.Alike Utf8.replacement [0xFF] :=
  Utf8.lossy_eq_iff.mp (by decide)

/-- U+FFFD, sent as such, is answered for a byte that is no text. -/
theorem verbatim_iff_upload :
    AnswersFor sampleConfig ⟨Cache.sampleCrates, 0⟩ (uploadRequest Utf8.replacement)
      (uploadRequest [0xFF]) := by
  have hfree : sampleConfig.NoCollision (uploadRequest Utf8.replacement)
      (uploadRequest [0xFF]) := by
    apply noCollision_of_admitted (admitted_uploadRequest _) (admitted_uploadRequest _)
    exact fun _ => by decide
  have hstore : sampleConfig.Storable (uploadRequest Utf8.replacement)
      (uploadAdmitted Utf8.replacement) :=
    ⟨_, _, _, _, uploadRequest_relays _, cutResponse_cacheable rfl (by decide)⟩
  have hnot : ¬ AnswersFor sampleConfig ⟨Cache.sampleCrates, 0⟩
      (uploadRequest Utf8.replacement) (uploadRequest [0xFF]) ↔ _ :=
    ((verbatim_iff (c := sampleSerde) (y := [0xFF]) (by decide)).2 rfl
      Cache.sampleCrates_roundTrips (admitted_uploadRequest Utf8.replacement)
      (admitted_uploadRequest [0xFF]) ⟨rfl, rfl, rfl⟩ hfree hstore rfl rfl (by decide)).2
  exact (not_iff_not.mp hnot).mpr alike_mark

private theorem hashInput_upload (x : Bytes) (h : Utf8.lossy x = Utf8.replacement)
    (hx : sampleSerde.parse x = none) :
    hashInput sampleSerde .openAi "POST" "/openai/v1/audio/transcriptions" x =
      hashInput sampleSerde .openAi "POST" "/openai/v1/audio/transcriptions" [0xFF] := by
  rw [hashInput_eq_iff]
  apply Text.ext
  rw [bytes_normalizeBody, verbatim_of_not_json hx, h]
  decide

/-- Two bodies with the same hashed bytes, and a body that is no text answered
with the response to another one. -/
theorem lossy_collides :
    (sampleSerde.parse [0xFE] = none ∧ sampleSerde.parse [0xFF] = none ∧
      hashInput sampleSerde .openAi "POST" "/openai/v1/audio/transcriptions" [0xFE] =
        hashInput sampleSerde .openAi "POST" "/openai/v1/audio/transcriptions" [0xFF]) ∧
    (¬ Utf8.Valid [0xFF] ∧ AnswersFor sampleConfig ⟨Cache.sampleCrates, 0⟩
      (uploadRequest Utf8.replacement) (uploadRequest [0xFF])) := by
  refine ⟨⟨by decide, by decide, hashInput_upload _ (by decide) (by decide)⟩, by decide, ?_⟩
  apply answersFor_of_key Cache.sampleCrates_roundTrips (uploadRequest_relays _)
    (cutResponse_cacheable rfl (by decide)) (admitted_uploadRequest _) rfl
  exact congrArg (fun x => (sampleBlake3 x).toHex)
    (hashInput_upload Utf8.replacement (by decide) (by decide))

end ServerConfig

end LlmCacheProxy
