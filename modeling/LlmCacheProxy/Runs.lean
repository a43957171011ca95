import LlmCacheProxy.HashInput
import LlmCacheProxy.Replay

/-!
# Runs of the proxy

Requests arrive one after another, and the calls of their background tasks are
made in any order in between. An entry of the cache was stored for a request
that was seen before, so what a hit and the request behind it have in common is
what the cache key fixes.
-/

namespace LlmCacheProxy

open ExpiringStore

/-- A call of the cache and the request it was made for. -/
structure Call where
  req : Request
  time : Int
  op : Cache.Op

/-- A run so far. -/
structure System where
  seen : List Request
  /-- Latest first. -/
  calls : List Call
  /-- The calls that each request has yet to make. -/
  pending : List (Request × List Cache.Op)

namespace System

def init : System := ⟨[], [], []⟩

def history (s : System) : List (Int × Cache.Op) := s.calls.map fun x => (x.time, x.op)

end System

namespace ServerConfig

variable (cfg : ServerConfig) (c : Cache)

/-- The call that looks a request up. -/
def lookupCalls (req : Request) (now : Int) : List Call :=
  match cfg.admitted req with
  | .ok a => if a.bypass then [] else [⟨req, now, .get a.key⟩]
  | .error _ => []

inductive Step : System → System → Prop where
  /-- A request is looked up; the rest of its calls follow later. -/
  | arrive (s : System) (req : Request) (now : Int)
      (send : UpstreamRequest → Except Text UpstreamResponse) (client : Client) :
      Step s ⟨req :: s.seen, cfg.lookupCalls req now ++ s.calls,
        (req, (cfg.handle req (fun k => (c.get now k (c.after s.history)).1) send client).calls) ::
          s.pending⟩
  /-- Some request makes its next call. -/
  | call (s : System) (req : Request) (now : Int) (op : Cache.Op) (rest : List Cache.Op)
      (before after : List (Request × List Cache.Op))
      (next : s.pending = before ++ (req, op :: rest) :: after) :
      Step s ⟨s.seen, ⟨req, now, op⟩ :: s.calls, before ++ (req, rest) :: after⟩

inductive Reachable : System → Prop where
  | init : Reachable .init
  | step {s t : System} : Reachable s → cfg.Step c s t → Reachable t

/-- The entry of `k` that holds `e` was stored for `req`. -/
def StoredBy (s : System) (k : Text) (req : Request) (e : Exchange) : Prop :=
  ∃ later earlier time provider model,
    s.calls = later ++ ⟨req, time, .put k provider model e⟩ :: earlier ∧
      ∀ call ∈ later, Keeps k call.op.event

/-- `req` is answered from the cache with `e`. -/
structure Hit (s : System) (req : Request) (a : Admitted) (e : Exchange) : Prop where
  admitted : cfg.admitted req = .ok a
  noBypass : a.bypass = false
  found : ∃ now, (c.get now a.key (c.after s.history)).1 = .ok (some e)

/-! ### Where entries come from -/

/-- What a call that stores an exchange says about its request. -/
def Issued (req : Request) : Cache.Op → Prop
  | .put k _ _ e => ∃ a, cfg.admitted req = .ok a ∧ a.bypass = false ∧ k = a.key ∧
      e.request = ⟨req.method, a.fullPath, .lossy a.body⟩
  | _ => True

/-- Every call, made or pending, is one that its request issues. -/
structure Provenance (s : System) : Prop where
  made : ∀ call ∈ s.calls, call.req ∈ s.seen ∧ cfg.Issued call.req call.op
  pending : ∀ p ∈ s.pending, p.1 ∈ s.seen ∧ ∀ op ∈ p.2, cfg.Issued p.1 op

variable {cfg c} {req : Request}

private theorem issued_traceCalls (a : Admitted) {op : Cache.Op} (h : op ∈ traceCalls a) :
    cfg.Issued req op := by
  obtain ⟨tid, -, rfl⟩ := Option.map_eq_some_iff.mp (Option.mem_toList.mp h)
  trivial

private theorem issued_writeCalls {a : Admitted} (ha : cfg.admitted req = .ok a)
    {u : UpstreamResponse} {r : Relayed} {op : Cache.Op} (h : op ∈ writeCalls req a u r) :
    cfg.Issued req op := by
  rw [writeCalls] at h
  split at h
  · rename_i hw
    rcases List.mem_cons.mp h with rfl | h
    · have hb : a.bypass = false := by
        have := hw.2.1
        simp only [doCache, Bool.and_eq_true, Bool.not_eq_true'] at this
        exact this.1
      exact ⟨a, ha, hb, rfl, rfl⟩
    · exact issued_traceCalls a h
  · cases h

theorem issued_handle {found : Text → Except CacheError (Option Exchange)}
    {send : UpstreamRequest → Except Text UpstreamResponse} {client : Client} {op : Cache.Op}
    (h : op ∈ (cfg.handle req found send client).calls) : cfg.Issued req op := by
  have hmiss {a : Admitted} (ha : cfg.admitted req = .ok a)
      (h : op ∈ (cfg.handleMiss req a send client).calls) : cfg.Issued req op := by
    rw [handleMiss] at h
    split at h
    · cases h
    · split at h
      · cases h
      · exact issued_writeCalls ha h
  rw [handle] at h
  split at h
  · cases h
  · rename_i a ha
    split at h
    · exact hmiss ha h
    · split at h
      · exact issued_traceCalls a h
      · exact hmiss ha h

theorem Provenance.step {s t : System} (hs : cfg.Provenance s) (h : cfg.Step c s t) :
    cfg.Provenance t := by
  cases h with
  | arrive req now send client =>
      constructor
      · intro call hcall
        rcases List.mem_append.mp hcall with hcall | hcall
        · rw [lookupCalls] at hcall
          split at hcall
          · split at hcall
            · cases hcall
            · rw [List.mem_singleton.mp hcall]
              exact ⟨List.mem_cons_self, trivial⟩
          · cases hcall
        · obtain ⟨hseen, hissued⟩ := hs.made call hcall
          exact ⟨List.mem_cons_of_mem _ hseen, hissued⟩
      · intro p hp
        rcases List.mem_cons.mp hp with rfl | hp
        · exact ⟨List.mem_cons_self, fun op hop => issued_handle hop⟩
        · obtain ⟨hseen, hissued⟩ := hs.pending p hp
          exact ⟨List.mem_cons_of_mem _ hseen, hissued⟩
  | call req now op rest before after next =>
      have hreq := hs.pending (req, op :: rest) (by simp [next])
      constructor
      · intro call hcall
        rcases List.mem_cons.mp hcall with rfl | hcall
        · exact ⟨hreq.1, hreq.2 op (by simp)⟩
        · exact hs.made call hcall
      · intro p hp
        rcases List.mem_append.mp hp with hp | hp
        · exact hs.pending p (by simp [next, hp])
        rcases List.mem_cons.mp hp with rfl | hp
        · exact ⟨hreq.1, fun op' hop => hreq.2 op' (by simp [hop])⟩
        · exact hs.pending p (by simp [next, hp])

theorem Reachable.provenance {s : System} (h : cfg.Reachable c s) : cfg.Provenance s := by
  induction h with
  | init => exact ⟨by simp [System.init], by simp [System.init]⟩
  | step _ hstep ih => exact ih.step hstep

/-- A hit is answered from an entry that was stored for some request. -/
theorem Hit.storedBy (hc : RoundTrips c.crates) {s : System} {a : Admitted} {e : Exchange}
    (h : cfg.Hit c s req a e) : ∃ origin, StoredBy s a.key origin e := by
  obtain ⟨now, hfound⟩ := h.found
  rw [(Cache.get_spec hc (Cache.after_refines hc _) a.key).1] at hfound
  obtain ⟨v, hlive, rfl⟩ := Option.map_eq_some_iff.mp (Except.ok.inj hfound)
  obtain ⟨⟨t, v'⟩, hlatest, hfresh⟩ := Option.bind_eq_some_iff.mp hlive
  obtain rfl : v' = v := by
    simp only [Option.ite_none_right_eq_some, Option.some.injEq] at hfresh
    exact hfresh.2
  obtain ⟨later, earlier, hsplit, hkeeps⟩ := exists_of_latest hlatest
  rw [Cache.history, System.history, List.map_map] at hsplit
  obtain ⟨newer, rest, hcalls, rfl, hrest⟩ := List.map_eq_append_iff.mp hsplit
  obtain ⟨call, older, rfl, hcall, -⟩ := List.map_eq_cons_iff.mp hrest
  obtain ⟨origin, time, op⟩ := call
  cases op with
  | put k provider model e =>
      simp only [Function.comp, Cache.Op.event, Prod.mk.injEq, Event.put.injEq] at hcall
      obtain ⟨-, rfl, rfl⟩ := hcall
      refine ⟨origin, newer, older, time, provider, model, hcalls, ?_⟩
      intro call hcall
      exact hkeeps _ (List.mem_map.mpr ⟨call, hcall, rfl⟩)
  | get | recordTrace | getTrace | stats | clearEntries | clearStats | listEntries | inspect
  | inspectTrace => simp [Cache.Op.event] at hcall

theorem StoredBy.issued {s : System} (hs : cfg.Provenance s) {k : Text} {origin : Request}
    {e : Exchange} (h : StoredBy s k origin e) :
    origin ∈ s.seen ∧ ∃ a, cfg.admitted origin = .ok a ∧ a.bypass = false ∧ k = a.key ∧
      e.request = ⟨origin.method, a.fullPath, .lossy a.body⟩ := by
  obtain ⟨later, earlier, time, provider, model, hcalls, -⟩ := h
  exact hs.made ⟨origin, time, .put k provider model e⟩ (by simp [hcalls])

/-! ### Every stored response is hit -/

section Serve
variable {r₁ r₂ : Request} {a₁ a₂ : Admitted}

/-- Some run answers `r₂` with what was stored for `r₁`. -/
def AnswersFor (cfg : ServerConfig) (c : Cache) (r₁ r₂ : Request) : Prop :=
  ∃ s a e, cfg.Reachable c s ∧ StoredBy s a.key r₁ e ∧ cfg.Hit c s r₂ a e

/-- Once a response has been stored, the next request with its key is a hit. -/
theorem answersFor_of_key (hc : RoundTrips c.crates)
    {send : UpstreamRequest → Except Text UpstreamResponse} {u : UpstreamResponse}
    {items : List Item} {client : Client} (hu : cfg.Relays r₁ send a₁ u items)
    (h : Cacheable a₁ u items client) (h₂ : cfg.admitted r₂ = .ok a₂) (hb : a₂.bypass = false)
    (hkey : a₁.key = a₂.key) :
    AnswersFor cfg c r₁ r₂ := by
  have hmiss : cfg.Missed r₁ fun k => (c.get 0 k (c.after System.init.history)).1 :=
    missed_of_empty cfg r₁
  obtain ⟨first, provider, model, e, hhandle, -⟩ := replays_of_cacheable hc hmiss hu h
  have hpending := congrArg (fun x : Handled => [(r₁, x.calls)]) hhandle
  have harrive : cfg.Reachable c _ := Reachable.init.step (Step.arrive .init r₁ 0 send client)
  have hput := harrive.step (Step.call _ r₁ 0 (.put a₁.key provider model e) (traceCalls a₁) [] []
    hpending)
  have hnone : ∀ call ∈ ([] : List (Int × Cache.Op)), Keeps a₁.key call.2.event := by simp
  refine ⟨_, a₂, e, hput, ?_, h₂, hb, 0, ?_⟩
  · exact ⟨[], cfg.lookupCalls r₁ 0 ++ [], 0, provider, model, hkey ▸ rfl, by simp⟩
  · rw [← hkey]
    exact Cache.get_after_put hc hnone (by simp [Cache.fresh])

end Serve

/-! ### What the key fixes -/

/-- The bytes that the key of an admitted request is the digest of. -/
def keyInput (cfg : ServerConfig) (req : Request) (a : Admitted) : Bytes :=
  hashInput cfg.crates.toSerde a.provider req.method (fullPath req) a.body

/-- The digest tells the two requests apart if anything that is hashed does. -/
def NoCollision (cfg : ServerConfig) (r₁ r₂ : Request) : Prop :=
  ∀ a₁ a₂, cfg.admitted r₁ = .ok a₁ → cfg.admitted r₂ = .ok a₂ →
    cfg.crates.blake3 (cfg.keyInput r₁ a₁) = cfg.crates.blake3 (cfg.keyInput r₂ a₂) →
    cfg.keyInput r₁ a₁ = cfg.keyInput r₂ a₂

/-- The request that goes upstream. -/
def upstreamOf (cfg : ServerConfig) (req : Request) : Option UpstreamRequest :=
  match cfg.admitted req with
  | .ok a =>
      match cfg.forward req a with
      | .ok (wire, _) => some wire
      | .error _ => none
  | .error _ => none

/-- The delimiter of the hashed parts does not occur in them. The body comes
last and may contain it. -/
def Undelimited (req : Request) : Prop := 0x7C ∉ req.method.bytes ∧ 0x7C ∉ req.path.bytes

/-- What the key makes two requests have in common: everything but the query
and the headers, and the body up to what normalization takes away. -/
structure SameButQuery (cfg : ServerConfig) (r₁ r₂ : Request) (w₁ w₂ : UpstreamRequest) : Prop where
  provider : r₁.providerStr = r₂.providerStr
  method : w₁.method = w₂.method
  path : r₁.path = r₂.path
  url : ∃ base, w₁.url = base ++ queryPart r₁ ∧ w₂.url = base ++ queryPart r₂
  body : ∀ p, Provider.fromPrefix r₁.providerStr = some p →
    normalizeBody cfg.crates.toSerde p w₁.body = normalizeBody cfg.crates.toSerde p w₂.body ∧
    ∀ v w, cfg.crates.parse w₁.body = some v → cfg.crates.parse w₂.body = some w →
      Json.Equiv (stripped p v) (stripped p w)

section Agreement
variable {r₁ r₂ : Request} {a₁ a₂ : Admitted}

theorem noCollision_of_admitted (h₁ : cfg.admitted r₁ = .ok a₁) (h₂ : cfg.admitted r₂ = .ok a₂)
    (h : cfg.crates.blake3 (cfg.keyInput r₁ a₁) = cfg.crates.blake3 (cfg.keyInput r₂ a₂) →
      cfg.keyInput r₁ a₁ = cfg.keyInput r₂ a₂) :
    cfg.NoCollision r₁ r₂ := by
  intro a₁' a₂' h₁' h₂'
  obtain rfl : a₁ = a₁' := Except.ok.inj (h₁.symm.trans h₁')
  obtain rfl : a₂ = a₂' := Except.ok.inj (h₂.symm.trans h₂')
  exact h

theorem bytes_fullPath (r : Request) :
    (fullPath r).bytes = 0x2F :: (r.providerStr.bytes ++ 0x2F :: r.path.bytes) := by
  have hslash : (Text.ofString "/").bytes = [0x2F] := by decide
  simp [fullPath, hslash]

/-- No provider has a delimiter in its name. -/
theorem not_mem_pathPrefix (p : Provider) :
    0x2F ∉ p.pathPrefix.bytes ∧ 0x7C ∉ p.pathPrefix.bytes := by
  cases p <;> decide

theorem provider_eq (h₁ : cfg.admitted r₁ = .ok a₁) (h₂ : cfg.admitted r₂ = .ok a₂)
    (h : r₁.providerStr = r₂.providerStr) : a₁.provider = a₂.provider := by
  apply Option.some.inj
  rw [← (admitted_spec h₁).1, ← (admitted_spec h₂).1, h]

theorem fullPath_inj (h₁ : cfg.admitted r₁ = .ok a₁) (h₂ : cfg.admitted r₂ = .ok a₂)
    (h : fullPath r₁ = fullPath r₂) : r₁.providerStr = r₂.providerStr ∧ r₁.path = r₂.path := by
  have hp₁ := Provider.fromPrefix_eq_some (admitted_spec h₁).1
  have hp₂ := Provider.fromPrefix_eq_some (admitted_spec h₂).1
  have hbytes := congrArg Text.bytes h
  rw [bytes_fullPath, bytes_fullPath, hp₁, hp₂] at hbytes
  obtain ⟨hprovider, hpath⟩ := split_at_first (not_mem_pathPrefix _).1 (not_mem_pathPrefix _).1
    (List.cons.inj hbytes).2
  rw [hp₁, hp₂]
  exact ⟨Text.ext hprovider, Text.ext hpath⟩

private theorem not_mem_fullPath (h : cfg.admitted r₁ = .ok a₁) (hr : Undelimited r₁) :
    0x7C ∉ (fullPath r₁).bytes := by
  have hp := Provider.fromPrefix_eq_some (admitted_spec h).1
  rw [bytes_fullPath, hp]
  intro hmem
  rcases List.mem_cons.mp hmem with hb | hmem
  · exact absurd hb (by decide)
  rcases List.mem_append.mp hmem with hb | hmem
  · exact (not_mem_pathPrefix _).2 hb
  rcases List.mem_cons.mp hmem with hb | hb
  · exact absurd hb (by decide)
  · exact hr.2 hb

/-- Without a delimiter in method and path, the hashed bytes determine all
three parts. -/
theorem keyInput_inj (h₁ : cfg.admitted r₁ = .ok a₁) (h₂ : cfg.admitted r₂ = .ok a₂)
    (hr₁ : Undelimited r₁) (hr₂ : Undelimited r₂) (h : cfg.keyInput r₁ a₁ = cfg.keyInput r₂ a₂) :
    r₁.method = r₂.method ∧ fullPath r₁ = fullPath r₂ ∧
      normalizeBody cfg.crates.toSerde a₁.provider a₁.body =
        normalizeBody cfg.crates.toSerde a₂.provider a₂.body := by
  rw [keyInput, keyInput, hashInput, hashInput] at h
  obtain ⟨hmethod, hrest⟩ := split_at_first hr₁.1 hr₂.1 h
  obtain ⟨hpath, hbody⟩ :=
    split_at_first (not_mem_fullPath h₁ hr₁) (not_mem_fullPath h₂ hr₂) hrest
  exact ⟨Text.ext hmethod, Text.ext hpath, Text.ext hbody⟩

theorem upstreamOf_eq (hext : cfg.extensions = []) (h : cfg.admitted r₁ = .ok a₁) :
    cfg.upstreamOf r₁ = some ⟨r₁.method, cfg.baseUrl r₁ a₁ ++ queryPart r₁,
      forwardedHeaders r₁.headers, a₁.body⟩ := by
  simp only [upstreamOf, h, forward, hext, runPhase2_nil, ite_self]

theorem sameButQuery_of_keyInput (hser : Canonical cfg.crates.toSerde)
    (h₁ : cfg.admitted r₁ = .ok a₁) (h₂ : cfg.admitted r₂ = .ok a₂) (hr₁ : Undelimited r₁)
    (hr₂ : Undelimited r₂) (h : cfg.keyInput r₁ a₁ = cfg.keyInput r₂ a₂)
    {t₁ t₂ : List (Text × Text)} :
    SameButQuery cfg r₁ r₂ ⟨r₁.method, cfg.baseUrl r₁ a₁ ++ queryPart r₁, t₁, a₁.body⟩
      ⟨r₂.method, cfg.baseUrl r₂ a₂ ++ queryPart r₂, t₂, a₂.body⟩ := by
  obtain ⟨hmethod, hfull, hbody⟩ := keyInput_inj h₁ h₂ hr₁ hr₂ h
  obtain ⟨hstr, hpath⟩ := fullPath_inj h₁ h₂ hfull
  have hprovider := provider_eq h₁ h₂ hstr
  constructor
  · exact hstr
  · exact hmethod
  · exact hpath
  · exact ⟨cfg.baseUrl r₁ a₁, rfl, by rw [baseUrl, baseUrl, hprovider, hpath]⟩
  · intro p hp
    obtain rfl : a₁.provider = p := Option.some.inj ((admitted_spec h₁).1.symm.trans hp)
    rw [← hprovider] at hbody
    exact ⟨hbody, fun v w hv hw => (normalizeBody_eq_iff_equiv hser _ hv hw).mp hbody⟩

end Agreement

/-- A hit is answered from an entry that a request stored. The two requests
have the same hashed bytes, so they go upstream with the same method, path and
normalized body; the query is no part of it. -/
theorem hit_agrees (hc : RoundTrips c.crates) (hser : Canonical cfg.crates.toSerde)
    (hext : cfg.extensions = []) {s : System} (hs : cfg.Reachable c s) {r₂ : Request}
    {a₂ : Admitted} {e : Exchange} (h : cfg.Hit c s r₂ a₂ e) :
    (∃ r₁ ∈ s.seen, StoredBy s a₂.key r₁ e) ∧
      ∀ r₁, StoredBy s a₂.key r₁ e → cfg.NoCollision r₁ r₂ →
        ∃ a₁ w₁ w₂, cfg.admitted r₁ = .ok a₁ ∧ cfg.upstreamOf r₁ = some w₁ ∧
          cfg.upstreamOf r₂ = some w₂ ∧ cfg.keyInput r₁ a₁ = cfg.keyInput r₂ a₂ ∧
          (Undelimited r₁ → Undelimited r₂ → SameButQuery cfg r₁ r₂ w₁ w₂) := by
  constructor
  · obtain ⟨r₁, hstored⟩ := h.storedBy hc
    exact ⟨r₁, (hstored.issued hs.provenance).1, hstored⟩
  · intro r₁ hstored hfree
    obtain ⟨-, a₁, ha₁, -, hkey, -⟩ := hstored.issued hs.provenance
    have hinput : cfg.keyInput r₁ a₁ = cfg.keyInput r₂ a₂ := by
      apply hfree a₁ a₂ ha₁ h.admitted
      apply Digest.toHex_injective
      calc
        (cfg.crates.blake3 (cfg.keyInput r₁ a₁)).toHex = a₁.key := (admitted_spec ha₁).2.2.2.symm
        _ = a₂.key := hkey.symm
        _ = (cfg.crates.blake3 (cfg.keyInput r₂ a₂)).toHex := (admitted_spec h.admitted).2.2.2
    exact ⟨a₁, _, _, ha₁, upstreamOf_eq hext ha₁, upstreamOf_eq hext h.admitted, hinput,
      fun hr₁ hr₂ => sameButQuery_of_keyInput hser ha₁ h.admitted hr₁ hr₂ hinput⟩

/-! ### Samples -/

private theorem files_noCollision (p q : Text) :
    sampleConfig.NoCollision (filesRequest p) (filesRequest q) := by
  apply noCollision_of_admitted (admitted_filesRequest p) (admitted_filesRequest q)
  exact fun _ => rfl

theorem files_answersFor (p q : Text) :
    AnswersFor sampleConfig ⟨Cache.sampleCrates, 0⟩ (filesRequest p) (filesRequest q) :=
  answersFor_of_key Cache.sampleCrates_roundTrips (files_relays p)
    (cutResponse_cacheable rfl (by decide)) (admitted_filesRequest q) rfl rfl

theorem hit_agrees_files : ∃ w₁ w₂,
    sampleConfig.upstreamOf (filesRequest "pageToken=a") = some w₁ ∧
    sampleConfig.upstreamOf (filesRequest "pageToken=b") = some w₂ ∧
    SameButQuery sampleConfig (filesRequest "pageToken=a") (filesRequest "pageToken=b") w₁ w₂ := by
  obtain ⟨s, a, e, hs, hstored, hhit⟩ := files_answersFor "pageToken=a" "pageToken=b"
  obtain ⟨a₁, w₁, w₂, -, hw₁, hw₂, -, hsame⟩ :=
    (hit_agrees Cache.sampleCrates_roundTrips sampleSerde_canonical rfl hs hhit).2 _ hstored
      (files_noCollision _ _)
  have hundelimited (q : Text) : Undelimited (filesRequest q) :=
    ⟨by change 0x7C ∉ (Text.ofString "GET").bytes; decide,
      by change 0x7C ∉ (Text.ofString "v1beta/files").bytes; decide⟩
  exact ⟨w₁, w₂, hw₁, hw₂, hsame (hundelimited _) (hundelimited _)⟩

def completionRequest (path body : Text) : Request :=
  ⟨"POST", "openai", path, none, [], body.bytes⟩

def completionAdmitted (path body : Text) : Admitted :=
  let keyed := cacheKeyAndModel sampleConfig.crates .openAi "POST" ("/openai/" ++ path) body.bytes
  ⟨.openAi, false, none, "/openai/" ++ path, body.bytes, keyed.1, keyed.2⟩

private theorem admitted_completionRequest (path body : Text) :
    sampleConfig.admitted (completionRequest path body) = .ok (completionAdmitted path body) := rfl

private theorem completionRequest_relays (path body : Text) :
    sampleConfig.Relays (completionRequest path body) (fun _ => .ok cutResponse)
      (completionAdmitted path body) cutResponse cutResponse.stream :=
  ⟨_, [], admitted_completionRequest path body, rfl, rfl, rfl⟩

private theorem keyInput_completionRequest :
    sampleConfig.keyInput (completionRequest "x" "y|z") (completionAdmitted "x" "y|z") =
      sampleConfig.keyInput (completionRequest "x|y" "z") (completionAdmitted "x|y" "z") := by
  decide

/-- A page of a list is answered with another page, and with a delimiter in the
path a request is answered with the response to another path and body. -/
theorem hit_differs :
    (AnswersFor sampleConfig ⟨Cache.sampleCrates, 0⟩ (filesRequest "pageToken=a")
        (filesRequest "pageToken=b") ∧
      sampleConfig.NoCollision (filesRequest "pageToken=a") (filesRequest "pageToken=b") ∧
      (sampleConfig.upstreamOf (filesRequest "pageToken=a")).map UpstreamRequest.url ≠
        (sampleConfig.upstreamOf (filesRequest "pageToken=b")).map UpstreamRequest.url) ∧
    AnswersFor sampleConfig ⟨Cache.sampleCrates, 0⟩ (completionRequest "x" "y|z")
        (completionRequest "x|y" "z") ∧
      sampleConfig.NoCollision (completionRequest "x" "y|z") (completionRequest "x|y" "z") ∧
      (sampleConfig.upstreamOf (completionRequest "x" "y|z")).map UpstreamRequest.url ≠
        (sampleConfig.upstreamOf (completionRequest "x|y" "z")).map UpstreamRequest.url := by
  refine ⟨⟨files_answersFor _ _, files_noCollision _ _, ?_⟩, ?_, ?_, ?_⟩
  · decide +kernel
  · apply answersFor_of_key Cache.sampleCrates_roundTrips (completionRequest_relays _ _)
    · exact cutResponse_cacheable rfl (Text.valid _)
    · exact admitted_completionRequest _ _
    · rfl
    · exact congrArg (fun x => (sampleBlake3 x).toHex) keyInput_completionRequest
  · apply noCollision_of_admitted (admitted_completionRequest _ _)
      (admitted_completionRequest _ _)
    exact fun _ => keyInput_completionRequest
  · decide +kernel

end ServerConfig

end LlmCacheProxy
