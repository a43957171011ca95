import LlmCacheProxy.Foundation.Url
import LlmCacheProxy.Verbatim

/-!
# The URL of the upstream

The router decodes both parts of a request path. The handler writes the decoded
path into a URL as it is, behind the upstream and in front of the query of the
request, and the client reads the URL again. The cache key is made of the
decoded path.
-/

namespace LlmCacheProxy

open Uri

/-! ### Request URIs -/

/-- The path and the query of a request, as they are received. These are more than
arrive: the HTTP layer refuses some bytes that are visible, such as `<`. -/
structure RequestUri where
  path : Text
  query : Option Text
  path_visible : ∀ b ∈ path.bytes, 0x20 < b.toNat ∧ Url.inPath b = true
  query_visible : ∀ q ∈ query, ∀ b ∈ q.bytes, 0x20 < b.toNat ∧ b ≠ 0x23

namespace RequestUri

/-- What the route `/{provider}/{*path}` captures. The router takes an empty provider
too, which the handler rejects as it does every unknown one. -/
def captures (path : Bytes) : Option (Bytes × Bytes) :=
  match path with
  | 0x2F :: s =>
      match s.dropWhile fun b => b ≠ 0x2F with
      | _ :: rest =>
          if s.takeWhile (fun b => b ≠ 0x2F) ≠ [] ∧ rest ≠ [] then
            some (s.takeWhile fun b => b ≠ 0x2F, rest)
          else none
      | [] => none
  | _ => none

/-- The segments of the path as components, without dot segments. -/
def normalized (uri : RequestUri) : List (List Symbol) :=
  (Url.resolve [] ((uri.path.bytes.drop 1).splitOn 0x2F)).map symbols

end RequestUri

/-- A request before its path is decoded. -/
structure RawRequest where
  method : RouterMethod
  uri : RequestUri
  /-- With names in lower case. -/
  headers : List (Text × Bytes)
  body : Bytes

/-- What the handler receives. A part of the path that is no text is rejected. -/
def RawRequest.received (raw : RawRequest) : Option Request := do
  let (provider, rest) ← RequestUri.captures raw.uri.path.bytes
  let providerStr ← Text.ofUtf8? (percentDecode provider)
  let path ← Text.ofUtf8? (percentDecode rest)
  some ⟨raw.method.name, providerStr, path, raw.uri.query, raw.headers, raw.body⟩

theorem RequestUri.captures_eq_some {path provider rest : Bytes}
    (h : captures path = some (provider, rest)) :
    path = 0x2F :: (provider ++ 0x2F :: rest) ∧ rest ≠ [] := by
  unfold captures at h
  split at h
  · rename_i s
    split at h
    · rename_i b rest' hdrop
      split_ifs at h with hne
      obtain ⟨rfl, rfl⟩ := Prod.mk.inj (Option.some.inj h)
      have hstop := List.head?_dropWhile_not (fun b : UInt8 => b ≠ 0x2F) s
      rw [hdrop] at hstop
      obtain rfl : b = 0x2F := by simpa using hstop
      refine ⟨?_, hne.2⟩
      rw [← hdrop, List.takeWhile_append_dropWhile]
    · cases h
  · cases h

/-- A received request, with what it was decoded from. -/
theorem RawRequest.received_eq_some {raw : RawRequest} {req : Request}
    (h : raw.received = some req) :
    ∃ provider rest, RequestUri.captures raw.uri.path.bytes = some (provider, rest) ∧
      req.providerStr.bytes = percentDecode provider ∧ req.path.bytes = percentDecode rest ∧
      req.method = raw.method.name ∧ req.query = raw.uri.query ∧ req.body = raw.body := by
  obtain ⟨⟨provider, rest⟩, hcaptures, h⟩ := Option.bind_eq_some_iff.mp h
  obtain ⟨providerStr, hprovider, h⟩ := Option.bind_eq_some_iff.mp h
  obtain ⟨path, hpath, h⟩ := Option.bind_eq_some_iff.mp h
  obtain rfl := Option.some.inj h
  exact ⟨provider, rest, hcaptures, Text.ofUtf8?_eq_some.mp hprovider,
    Text.ofUtf8?_eq_some.mp hpath, rfl, rfl, rfl⟩

/-! ### The URL that is sent -/

/-- A path without an empty segment at its end. -/
def stem (path : List Bytes) : List Bytes :=
  if path.getLast? = some [] then path.dropLast else path

namespace ServerConfig

theorem slash_ascii : (0x2F : UInt8).toNat < 0x80 := by decide

/-- The front of every URL sent to a provider. -/
def urlFront (cfg : ServerConfig) (p : Provider) : Bytes :=
  ((cfg.upstreamFor p).trimEndMatches 0x2F slash_ascii).bytes

/-- Behind the path of the upstream, path and query of a URL are, as components,
`rest` and the query of the request. -/
def Preserves (cfg : ServerConfig) (host : Bytes → Option Bytes) (p : Provider) (rest : Bytes)
    (query : Option Text) (url : Text) : Prop :=
  ∃ base sent, Url.parse host (cfg.urlFront p ++ [0x2F]) = some base ∧
    Url.parse host url.bytes = some sent ∧
    sent.path.map symbols =
      (stem base.path).map symbols ++ (symbols rest).splitOn (.delim 0x2F) ∧
    sent.query.map symbols = query.map fun q => symbols q.bytes

/-- The upstream is a URL with neither query nor fragment, the decoded `rest` can
be read as a path, the client removes no tab, newline or blank from it, and no
apostrophe is in the query. -/
structure Sendable (cfg : ServerConfig) (host : Bytes → Option Bytes) (p : Provider) (rest : Bytes)
    (query : Option Text) : Prop where
  upstream : ∃ base, Url.parse host (cfg.urlFront p ++ [0x2F]) = some base ∧
    base.query = none ∧ base.fragment = none
  decoded : Url.ReadsDecoded rest
  newline : ∀ b ∈ percentDecode rest, Url.isTabOrNewline b = false
  blank : query = none →
    ∀ h : percentDecode rest ≠ [], Url.isBlank ((percentDecode rest).getLast h) = false
  apostrophe : ∀ q ∈ query, 0x27 ∉ q.bytes

def queryBytes (query : Option Text) : Bytes :=
  match query with
  | some q => 0x3F :: q.bytes
  | none => []

/-- What is left of a decoded path when the URL is read. -/
def kept (path : Bytes) (query : Option Text) : Bytes :=
  (Url.cleanEnd (path ++ queryBytes query)).takeWhile Url.inPath

theorem bytes_url (cfg : ServerConfig) (req : Request) (a : Admitted) :
    (cfg.baseUrl req a ++ queryPart req).bytes =
      cfg.urlFront a.provider ++ 0x2F :: (req.path.bytes ++ queryBytes req.query) := by
  have hslash : (Text.ofString "/").bytes = [0x2F] := by decide
  have hmark : (Text.ofString "?").bytes = [0x3F] := by decide
  have hquery : (queryPart req).bytes = queryBytes req.query := by
    unfold queryPart
    cases req.query with
    | none => rfl
    | some q => simp [queryBytes, hmark]
  rw [Text.bytes_append, hquery, baseUrl]
  simp [urlFront, hslash]

section Kept
variable {path : Bytes}

theorem kept_some (path : Bytes) (q : Text) :
    kept path (some q) =
      (path.filter fun b => !Url.isTabOrNewline b).takeWhile Url.inPath := by
  rw [kept, queryBytes, Url.cleanEnd_append_cons (by decide) (by decide),
    Url.takeWhile_append_cons (by decide)]

theorem kept_none (path : Bytes) : kept path none = (Url.cleanEnd path).takeWhile Url.inPath := by
  rw [kept, queryBytes, List.append_nil]

theorem kept_sublist (path : Bytes) (query : Option Text) :
    (kept path query).Sublist path := by
  cases query with
  | none =>
      rw [kept_none]
      exact (List.takeWhile_sublist _).trans (Url.cleanEnd_sublist path)
  | some q =>
      rw [kept_some]
      exact (List.takeWhile_sublist _).trans List.filter_sublist

/-- All of a path is kept. -/
theorem kept_eq_iff (hin : ∀ b ∈ path, Url.inPath b = true) (query : Option Text) :
    kept path query = path ↔
      (∀ b ∈ path, Url.isTabOrNewline b = false) ∧
        (query = none → ∀ h : path ≠ [], Url.isBlank (path.getLast h) = false) := by
  cases query with
  | none =>
      have htake : (Url.cleanEnd path).takeWhile Url.inPath = Url.cleanEnd path :=
        List.takeWhile_eq_self_iff.mpr fun b hb => hin b ((Url.cleanEnd_sublist path).mem hb)
      rw [kept_none, htake, Url.cleanEnd_eq_self_iff]
      simp
  | some q =>
      have htake : (path.filter fun b => !Url.isTabOrNewline b).takeWhile Url.inPath =
          path.filter fun b => !Url.isTabOrNewline b :=
        List.takeWhile_eq_self_iff.mpr fun b hb => hin b (List.mem_of_mem_filter hb)
      rw [kept_some, htake, List.filter_eq_self]
      simp

/-- Of a kept path nothing is in the query. -/
theorem queryOf_kept (hin : ∀ b ∈ path, Url.inPath b = true) {query : Option Text}
    (hvisible : ∀ q ∈ query, ∀ b ∈ q.bytes, 0x20 < b.toNat ∧ b ≠ 0x23) :
    Url.queryOf (Url.cleanEnd (path ++ queryBytes query)) =
      query.map fun q => Url.encode Url.specialQuerySet q.bytes := by
  cases query with
  | none =>
      have hclean : ∀ b ∈ Url.cleanEnd (path ++ queryBytes none), Url.inPath b = true := by
        rw [queryBytes, List.append_nil]
        exact fun b hb => hin b ((Url.cleanEnd_sublist path).mem hb)
      exact (Url.plain_iff.mpr hclean).1
  | some q =>
      have hq : Url.cleanEnd q.bytes = q.bytes := by
        rw [Url.cleanEnd_eq_self_iff]
        constructor
        · intro b hb
          have hb := (hvisible q rfl b hb).1
          simp only [Url.isTabOrNewline, List.mem_cons, List.not_mem_nil, or_false,
            decide_eq_false_iff_not]
          rintro (rfl | rfl | rfl) <;> exact absurd hb (by decide)
        · intro h
          have hb := (hvisible q rfl _ (List.getLast_mem h)).1
          simpa [Url.isBlank] using hb
      have hhash : q.bytes.takeWhile (fun b => b ≠ 0x23) = q.bytes := by
        rw [List.takeWhile_eq_self_iff]
        intro b hb
        simpa using (hvisible q rfl b hb).2
      rw [queryBytes, Url.cleanEnd_append_cons (by decide) (by decide), hq,
        Url.queryOf_append fun b hb => hin b (List.mem_of_mem_filter hb)]
      change some (Url.encode Url.specialQuerySet (q.bytes.takeWhile fun b => b ≠ 0x23)) = _
      rw [hhash]
      rfl

end Kept

theorem stem_append_nil (path : List Bytes) : stem (path ++ [[]]) = path := by
  rw [stem, List.getLast?_concat, if_pos rfl, List.dropLast_concat]

/-- A path has at most one segment more than its stem, and that one is empty. -/
theorem stem_cases (path : List Bytes) : path = stem path ∨ path = stem path ++ [[]] := by
  unfold stem
  split
  · rename_i h
    exact Or.inr (List.dropLast_append_getLast? [] h).symm
  · exact Or.inl rfl

section Preserved
variable {cfg : ServerConfig} {host : Bytes → Option Bytes} {p : Provider} {rest : Bytes}
  {query : Option Text} {url : Text}

/-- Nothing of a path that is not empty stands behind a base with a query. -/
theorem not_under_stem (hrest : rest ≠ []) (path : List Bytes) :
    path.map symbols ≠ (stem path).map symbols ++ (symbols rest).splitOn (.delim 0x2F) := by
  intro h
  rcases stem_cases path with hstem | hstem
  · rw [← hstem] at h
    exact List.splitOn_ne_nil _ _ (List.self_eq_append_right.mp h)
  · conv_lhs at h => rw [hstem]
    rw [List.map_append] at h
    have hempty : ([] : List Symbol).splitOn (.delim 0x2F) = (symbols rest).splitOn (.delim 0x2F) :=
      List.append_cancel_left h
    exact symbols_ne_nil hrest (splitOn_injective _ hempty).symm

/-- An encoded query is the query unless there is an apostrophe in it. -/
theorem symbols_query_iff (hvisible : ∀ q ∈ query, ∀ b ∈ q.bytes, 0x20 < b.toNat ∧ b ≠ 0x23) :
    (query.map fun q => Url.encode Url.specialQuerySet q.bytes).map symbols =
      query.map (fun q => symbols q.bytes) ↔ ∀ q ∈ query, 0x27 ∉ q.bytes := by
  cases query with
  | none => simp
  | some q =>
      have hhash : ∀ b ∈ q.bytes, b ≠ 0x23 := fun b hb => (hvisible q rfl b hb).2
      simpa using Url.symbols_encode_specialQuerySet hhash

theorem preserves_iff (hrest : rest ≠ []) (hin : ∀ b ∈ rest, Url.inPath b = true)
    (hvisible : ∀ q ∈ query, ∀ b ∈ q.bytes, 0x20 < b.toNat ∧ b ≠ 0x23)
    (hurl : url.bytes = cfg.urlFront p ++ 0x2F :: (percentDecode rest ++ queryBytes query)) :
    cfg.Preserves host p rest query url ↔ cfg.Sendable host p rest query := by
  have hkept : ∀ b ∈ kept (percentDecode rest) query, Url.inPath b = true :=
    fun b hb => List.mem_takeWhile_imp hb
  constructor
  · rintro ⟨base, sent, hbase, hsent, hpath, hquerysent⟩
    rw [hurl] at hsent
    by_cases hplain : base.query = none ∧ base.fragment = none
    · obtain ⟨own, hown, hunder⟩ := Url.parse_under hbase hplain.1 hplain.2
      obtain ⟨sent', hsent', hpath', hquery'⟩ :=
        hunder (percentDecode rest ++ queryBytes query)
      obtain rfl : sent = sent' := Option.some.inj (hsent.symm.trans hsent')
      rw [hpath', hown, stem_append_nil] at hpath
      obtain ⟨hall, hreads⟩ :=
        (Url.resolve_segments_eq_iff (kept_sublist _ query) hkept).mp hpath
      obtain ⟨hnewline, hblank⟩ := (kept_eq_iff (hreads.all_inPath hin) query).mp hall
      rw [hquery', queryOf_kept (hreads.all_inPath hin) hvisible] at hquerysent
      exact ⟨⟨base, hbase, hplain⟩, hreads, hnewline, hblank,
        (symbols_query_iff hvisible).mp hquerysent⟩
    · -- The query or the fragment of the base takes in everything behind it.
      obtain ⟨sent', hsent', hpath'⟩ :=
        Url.parse_under_query hbase hplain (percentDecode rest ++ queryBytes query)
      obtain rfl : sent = sent' := Option.some.inj (hsent.symm.trans hsent')
      exact absurd (hpath' ▸ hpath) (not_under_stem hrest base.path)
  · rintro ⟨⟨base, hbase, hplain⟩, hreads, hnewline, hblank, hapostrophe⟩
    obtain ⟨own, hown, hunder⟩ := Url.parse_under hbase hplain.1 hplain.2
    obtain ⟨sent, hsent, hpath, hquery'⟩ := hunder (percentDecode rest ++ queryBytes query)
    have hall := (kept_eq_iff (hreads.all_inPath hin) query).mpr ⟨hnewline, hblank⟩
    refine ⟨base, sent, hbase, hurl ▸ hsent, ?_, ?_⟩
    · rw [hpath, hown, stem_append_nil]
      exact (Url.resolve_segments_eq_iff (kept_sublist _ query) hkept).mpr ⟨hall, hreads⟩
    · rw [hquery', queryOf_kept (hreads.all_inPath hin) hvisible]
      exact (symbols_query_iff hvisible).mpr hapostrophe

end Preserved

theorem url_of_upstreamOf {cfg : ServerConfig} {req : Request} {a : Admitted}
    {wire : UpstreamRequest} (ha : cfg.admitted req = .ok a) (h : cfg.upstreamOf req = some wire) :
    wire.url = cfg.baseUrl req a ++ queryPart req := by
  simp only [upstreamOf, ha] at h
  split at h
  · rename_i wire' states hforward
    obtain rfl := Option.some.inj h
    unfold forward at hforward
    dsimp only at hforward
    split at hforward
    · cases hforward
    · obtain ⟨rfl, -⟩ := Prod.mk.inj (Except.ok.inj hforward)
      rfl
  · cases h

theorem preserves_sent_iff {cfg : ServerConfig} {host : Bytes → Option Bytes} {raw : RawRequest}
    {provider rest : Bytes} {req : Request} {a : Admitted} {wire : UpstreamRequest}
    (hcaptures : RequestUri.captures raw.uri.path.bytes = some (provider, rest))
    (hraw : raw.received = some req) (ha : cfg.admitted req = .ok a)
    (hwire : cfg.upstreamOf req = some wire) :
    cfg.Preserves host a.provider rest raw.uri.query wire.url ↔
      cfg.Sendable host a.provider rest raw.uri.query := by
  obtain ⟨provider', rest', hcaptures', -, hpath, -, hquery, -⟩ :=
    RawRequest.received_eq_some hraw
  obtain ⟨rfl, rfl⟩ := Prod.mk.inj (Option.some.inj (hcaptures'.symm.trans hcaptures))
  obtain ⟨hsplit, hne⟩ := RequestUri.captures_eq_some hcaptures
  apply preserves_iff hne
  · intro b hb
    exact (raw.uri.path_visible b (by simp [hsplit, hb])).2
  · exact raw.uri.query_visible
  · rw [url_of_upstreamOf ha hwire, bytes_url, hpath, hquery]

/-! ### Keys of decoded paths -/

/-- The second path goes on behind a bar with what the first body has in front
of the second one. -/
def BarMoved (cfg : ServerConfig) (r₁ r₂ : Request) (a₁ a₂ : Admitted) : Prop :=
  ∃ q, fullPath r₂ = barred (fullPath r₁) q ∧
    normalizeBody cfg.crates.toSerde a₁.provider a₁.body =
      barred q (normalizeBody cfg.crates.toSerde a₂.provider a₂.body)

section Keys
variable {cfg : ServerConfig} {raw₁ raw₂ : RawRequest} {r₁ r₂ : Request} {a₁ a₂ : Admitted}

theorem bytes_fullPath_received (h : raw₁.received = some r₁) :
    (fullPath r₁).bytes = percentDecode raw₁.uri.path.bytes := by
  obtain ⟨provider, rest, hcaptures, hprovider, hpath, -⟩ := RawRequest.received_eq_some h
  have hslash : (0x2F : UInt8) ∈ reserved := by decide
  rw [(RequestUri.captures_eq_some hcaptures).1, bytes_fullPath, hprovider, hpath,
    ← percentDecode_append_delim hslash]
  exact (percentDecode_append_delim hslash [] _).symm

/-- One decoded path and one body are one endpoint with one body to hash. -/
theorem body_eq_of_fullPath (h₁ : raw₁.received = some r₁) (h₂ : raw₂.received = some r₂)
    (ha₁ : cfg.admitted r₁ = .ok a₁) (ha₂ : cfg.admitted r₂ = .ok a₂)
    (hmethod : raw₁.method = raw₂.method) (hbody : raw₁.body = raw₂.body)
    (hfull : fullPath r₁ = fullPath r₂) : a₁.provider = a₂.provider ∧ a₁.body = a₂.body := by
  obtain ⟨-, -, -, -, -, hmethod₁, -, hbody₁⟩ := RawRequest.received_eq_some h₁
  obtain ⟨-, -, -, -, -, hmethod₂, -, hbody₂⟩ := RawRequest.received_eq_some h₂
  obtain ⟨hstr, hpath⟩ := fullPath_inj ha₁ ha₂ hfull
  obtain ⟨-, hphase₁, -⟩ := admitted_spec ha₁
  obtain ⟨-, hphase₂, -⟩ := admitted_spec ha₂
  have hprovider := provider_eq ha₁ ha₂ hstr
  refine ⟨hprovider, ?_⟩
  rw [hprovider, hmethod₁, hmethod, ← hmethod₂, hpath, hbody₁, hbody, ← hbody₂] at hphase₁
  exact Except.ok.inj (hphase₁.symm.trans hphase₂)

/-- Two requests with one body share a key exactly when their methods and their
decoded paths agree, or the hashed bodies make up for a bar. -/
theorem key_eq_iff (h₁ : raw₁.received = some r₁) (h₂ : raw₂.received = some r₂)
    (ha₁ : cfg.admitted r₁ = .ok a₁) (ha₂ : cfg.admitted r₂ = .ok a₂)
    (hbody : raw₁.body = raw₂.body) (hfree : cfg.NoCollision r₁ r₂) :
    a₁.key = a₂.key ↔
      raw₁.method = raw₂.method ∧
        (percentDecode raw₁.uri.path.bytes = percentDecode raw₂.uri.path.bytes ∨
          BarMoved cfg r₁ r₂ a₁ a₂ ∨ BarMoved cfg r₂ r₁ a₂ a₁) := by
  have hkey : a₁.key = a₂.key ↔ cfg.keyInput r₁ a₁ = cfg.keyInput r₂ a₂ :=
    ⟨keyInput_of_key_eq hfree ha₁ ha₂, key_eq_of_keyInput ha₁ ha₂⟩
  obtain ⟨-, -, -, -, -, hmethod₁, -⟩ := RawRequest.received_eq_some h₁
  obtain ⟨-, -, -, -, -, hmethod₂, -⟩ := RawRequest.received_eq_some h₂
  rw [hkey, keyInput, keyInput, hmethod₁, hmethod₂, hashInput_eq_cases,
    ← bytes_fullPath_received h₁, ← bytes_fullPath_received h₂]
  constructor
  · rintro ⟨hmethod, ⟨hfull, -⟩ | hmoved⟩
    · exact ⟨hmethod, Or.inl (congrArg Text.bytes hfull)⟩
    · exact ⟨hmethod, Or.inr hmoved⟩
  · rintro ⟨hmethod, hfull | hmoved⟩
    · have hfull := Text.ext hfull
      obtain ⟨hprovider, hsame⟩ := body_eq_of_fullPath h₁ h₂ ha₁ ha₂ hmethod hbody hfull
      exact ⟨hmethod, Or.inl ⟨hfull, by rw [hprovider, hsame]⟩⟩
    · exact ⟨hmethod, Or.inr hmoved⟩

/-- Without a first phase no bar moves. -/
theorem not_barMoved (ha₁ : cfg.admitted r₁ = .ok a₁) (ha₂ : cfg.admitted r₂ = .ok a₂)
    (hsame : a₁.body = a₂.body) : ¬ BarMoved cfg r₁ r₂ a₁ a₂ := by
  rintro ⟨q, hfull, hbody⟩
  have hp₁ := Provider.fromPrefix_eq_some (admitted_spec ha₁).1
  have hp₂ := Provider.fromPrefix_eq_some (admitted_spec ha₂).1
  have hbytes := congrArg Text.bytes hfull
  rw [bytes_barred, bytes_fullPath, bytes_fullPath, hp₁, hp₂, List.cons_append,
    List.append_assoc] at hbytes
  have hstr := (split_at_first (not_mem_pathPrefix _).1 (not_mem_pathPrefix _).1
    (List.cons.inj hbytes).2).1
  have hprovider : a₁.provider = a₂.provider :=
    provider_eq ha₁ ha₂ (by rw [hp₁, hp₂, Text.ext hstr])
  rw [hprovider, hsame] at hbody
  have hlength := congrArg (fun t : Text => t.bytes.length) hbody
  simp only [bytes_barred, List.length_append, List.length_cons] at hlength
  omega

end Keys

/-- The path and the query of a request reach the upstream exactly when the
request is sendable, and requests whose paths differ have different keys exactly
when decoding keeps them apart. -/
theorem path_preserved_iff (cfg : ServerConfig) (host : Bytes → Option Bytes) :
    (∀ {raw : RawRequest} {provider rest : Bytes} {req : Request} {a : Admitted}
        {wire : UpstreamRequest},
      RequestUri.captures raw.uri.path.bytes = some (provider, rest) →
      raw.received = some req → cfg.admitted req = .ok a → cfg.upstreamOf req = some wire →
        (cfg.Preserves host a.provider rest raw.uri.query wire.url ↔
          cfg.Sendable host a.provider rest raw.uri.query)) ∧
    ∀ {raw₁ raw₂ : RawRequest} {r₁ r₂ : Request} {a₁ a₂ : Admitted},
      raw₁.received = some r₁ → raw₂.received = some r₂ → cfg.admitted r₁ = .ok a₁ →
      cfg.admitted r₂ = .ok a₂ → raw₁.body = raw₂.body → cfg.NoCollision r₁ r₂ →
        ((raw₁.uri.normalized ≠ raw₂.uri.normalized → a₁.key ≠ a₂.key) ↔
          raw₁.uri.normalized = raw₂.uri.normalized ∨ raw₁.method ≠ raw₂.method ∨
            percentDecode raw₁.uri.path.bytes ≠ percentDecode raw₂.uri.path.bytes ∧
              ¬ BarMoved cfg r₁ r₂ a₁ a₂ ∧ ¬ BarMoved cfg r₂ r₁ a₂ a₁) := by
  constructor
  · intro raw provider rest req a wire hcaptures hraw ha hwire
    exact preserves_sent_iff hcaptures hraw ha hwire
  · intro raw₁ raw₂ r₁ r₂ a₁ a₂ h₁ h₂ ha₁ ha₂ hbody hfree
    rw [Ne, Ne, key_eq_iff h₁ h₂ ha₁ ha₂ hbody hfree]
    tauto

/-! ### Samples -/

/-- A file of a provider, by its raw path. -/
def fileRequest (uri : RequestUri) : RawRequest := ⟨.get, uri, [], []⟩

/-- A file in a directory, and one with a slash in its name. -/
def nestedUri : RequestUri where
  path := "/openai/v1/files/a/b"
  query := some "limit=1"
  path_visible := List.all_iff_forall_prop.mp (by decide)
  query_visible := by
    intro q hq
    obtain rfl := Option.some.inj hq
    exact List.all_iff_forall_prop.mp (by decide)

def escapedUri : RequestUri where
  path := "/openai/v1/files/a%2Fb"
  query := none
  path_visible := List.all_iff_forall_prop.mp (by decide)
  query_visible := by simp

def nestedRequest (query : Option Text) : Request :=
  ⟨"GET", "openai", "v1/files/a/b", query, [], []⟩

def fileAdmitted (path : Text) : Admitted :=
  ⟨.openAi, false, none, path, [], cacheKey sampleConfig.crates .openAi "GET" path [], none⟩

def listUri : RequestUri where
  path := "/openai/v1/files"
  query := none
  path_visible := List.all_iff_forall_prop.mp (by decide)
  query_visible := by simp

def listRequest : Request := ⟨"GET", "openai", "v1/files", none, [], []⟩

private theorem body_fileRequest (uri₁ uri₂ : RequestUri) :
    (fileRequest uri₁).body = (fileRequest uri₂).body :=
  (rfl : (fileRequest uri₁).body = []).trans rfl

private theorem body_fileAdmitted (path₁ path₂ : Text) :
    (fileAdmitted path₁).body = (fileAdmitted path₂).body :=
  (rfl : (fileAdmitted path₁).body = []).trans rfl

private theorem admitted_nested (query : Option Text) :
    sampleConfig.admitted (nestedRequest query) = .ok (fileAdmitted "/openai/v1/files/a/b") := rfl

private theorem admitted_list :
    sampleConfig.admitted listRequest = .ok (fileAdmitted "/openai/v1/files") := rfl

/-- The default upstreams have neither query nor fragment. -/
private theorem upstream_sampleConfig (p : Provider) :
    ∃ base, Url.parse some (sampleConfig.urlFront p ++ [0x2F]) = some base ∧
      base.query = none ∧ base.fragment = none := by
  cases p <;> exact ⟨_, rfl, by decide, by decide⟩

private theorem sendable_nested :
    sampleConfig.Sendable some .openAi (Text.ofString "v1/files/a/b").bytes (some "limit=1") where
  upstream := upstream_sampleConfig .openAi
  decoded := ⟨by decide, by decide, unescaped_of_length (by decide), by decide⟩
  newline := List.all_iff_forall_prop.mp (by decide)
  blank := by simp
  apostrophe := by decide

private theorem captures_nested : RequestUri.captures nestedUri.path.bytes =
    some ((Text.ofString "openai").bytes, (Text.ofString "v1/files/a/b").bytes) := by decide

private theorem captures_escaped : RequestUri.captures escapedUri.path.bytes =
    some ((Text.ofString "openai").bytes, (Text.ofString "v1/files/a%2Fb").bytes) := by decide

private theorem received_nested :
    (fileRequest nestedUri).received = some (nestedRequest (some "limit=1")) := rfl

private theorem received_escaped :
    (fileRequest escapedUri).received = some (nestedRequest none) := rfl

theorem path_preserved_nested : ∃ wire,
    sampleConfig.upstreamOf (nestedRequest (some "limit=1")) = some wire ∧
    sampleConfig.Preserves some .openAi (Text.ofString "v1/files/a/b").bytes (some "limit=1")
      wire.url ∧
    (fileAdmitted "/openai/v1/files/a/b").key ≠ (fileAdmitted "/openai/v1/files").key := by
  obtain ⟨hsent, hkeys⟩ := path_preserved_iff sampleConfig some
  have hwire := upstreamOf_eq rfl (admitted_nested (some "limit=1"))
  have hlist : (fileRequest listUri).received = some listRequest := rfl
  have hfree : sampleConfig.NoCollision (nestedRequest (some "limit=1")) listRequest := by
    apply noCollision_of_admitted (admitted_nested _) admitted_list
    exact fun hdigest => absurd hdigest (by decide)
  refine ⟨_, hwire, ?_, ?_⟩
  · exact (hsent captures_nested received_nested (admitted_nested _) hwire).mpr sendable_nested
  · apply (hkeys received_nested hlist (admitted_nested _) admitted_list (body_fileRequest _ _)
      hfree).mpr
    · refine Or.inr (Or.inr ⟨by decide, ?_, ?_⟩)
      · exact not_barMoved (admitted_nested _) admitted_list (body_fileAdmitted _ _)
      · exact not_barMoved admitted_list (admitted_nested _) (body_fileAdmitted _ _)
    · decide

/-- An escaped slash is sent as one, and the file shares its key with another. -/
theorem escaped_slash_sent :
    (∃ wire, (fileRequest escapedUri).received = some (nestedRequest none) ∧
      sampleConfig.upstreamOf (nestedRequest none) = some wire ∧
      ¬ sampleConfig.Preserves some .openAi (Text.ofString "v1/files/a%2Fb").bytes none wire.url) ∧
    ∃ a₁ a₂, (fileRequest nestedUri).received = some (nestedRequest (some "limit=1")) ∧
      sampleConfig.admitted (nestedRequest (some "limit=1")) = .ok a₁ ∧
      sampleConfig.admitted (nestedRequest none) = .ok a₂ ∧
      (fileRequest nestedUri).body = (fileRequest escapedUri).body ∧
      sampleConfig.NoCollision (nestedRequest (some "limit=1")) (nestedRequest none) ∧
      nestedUri.normalized ≠ escapedUri.normalized ∧ a₁.key = a₂.key := by
  constructor
  · have hwire := upstreamOf_eq rfl (admitted_nested none)
    refine ⟨_, received_escaped, hwire, fun h => ?_⟩
    have hsendable :=
      (preserves_sent_iff captures_escaped received_escaped (admitted_nested none) hwire).mp h
    exact absurd (hsendable.decoded.escapes (.octet 0x2F) (by decide)) (by decide)
  · refine ⟨_, _, received_nested, admitted_nested _, admitted_nested _,
      body_fileRequest _ _, ?_, ?_, rfl⟩
    · apply noCollision_of_admitted (admitted_nested _) (admitted_nested _)
      exact fun _ => rfl
    · decide

end ServerConfig

end LlmCacheProxy
