import LlmCacheProxy.Accounting
import LlmCacheProxy.Router

/-!
# What is reported to whom

Requests to the proxy and requests about the server arrive in any order, and the
writes of the proxied ones follow when they are done. What `GET /stats` reports
agrees with what the clients of the proxy have seen, and they see nothing of the
requests about the server but the purges.
-/

namespace LlmCacheProxy

open ServerConfig (Client Handled)

namespace Site

variable {site : Site}

/-- A handler leaves behind what its call leaves behind. -/
theorem answer_after (handler : Handler) (now : Int) (hist : List (Int × Cache.Op)) :
    (site.answer handler (site.cache.after hist)).2 =
      site.cache.after (handler.calls now ++ hist) := by
  cases handler with
  | health | getStats | clearStats | clearCache => rfl
  | getCacheEntry key =>
      simp only [answer, getCacheEntry]
      split <;> rfl
  | getTrace traceId full =>
      cases full with
      | false => rfl
      | true =>
          simp only [answer, getTrace, if_true]
          split <;> rfl

/-- A request that was answered. -/
inductive Logged where
  | rejected (status : UInt16)
  | own (handler : Handler) (response : Response)
  | proxied (req : Request) (response : Option Response)

/-- A run of the server so far. -/
structure Session where
  /-- Latest first. -/
  history : List (Int × Cache.Op)
  /-- The calls that each proxied request has yet to make. -/
  pending : List (List Cache.Op)
  /-- Latest first. -/
  log : List Logged

namespace Session

def init : Session := ⟨[], [], []⟩

end Session

variable (site)

def lookups (req : Request) (now : Int) : List (Int × Cache.Op) :=
  match site.cfg.admitted req with
  | .ok a => if a.bypass then [] else [(now, .get a.key)]
  | .error _ => []

/-- One step of the server, which answers the requests about itself that are
`allowed`. -/
inductive Step (allowed : Handler → Prop) : Session → Session → Prop where
  | rejected (s : Session) (x : HttpRequest) (status : UInt16) (h : site.routed x = .error status) :
      Step allowed s ⟨s.history, s.pending, .rejected status :: s.log⟩
  | own (s : Session) (x : HttpRequest) (now : Int) (handler : Handler)
      (h : site.routed x = .ok (.own handler)) (hallowed : allowed handler) :
      Step allowed s ⟨handler.calls now ++ s.history, s.pending,
        .own handler (site.answer handler (site.cache.after s.history)).1 :: s.log⟩
  /-- A proxied request is looked up; the rest of its calls follow later. Its
  response is logged together with the lookup, also that of a miss, which is sent
  after the request has gone upstream. -/
  | proxied (s : Session) (x : HttpRequest) (now : Int) (req : Request)
      (send : UpstreamRequest → Except Text UpstreamResponse) (client : Client)
      (h : site.routed x = .ok (.proxy req)) {handled : Handled}
      (hhandled : handled = site.cfg.handle req
        (fun k => (site.cache.get now k (site.cache.after s.history)).1) send client) :
      Step allowed s ⟨site.lookups req now ++ s.history, handled.calls :: s.pending,
        .proxied req handled.response :: s.log⟩
  /-- Some proxied request makes its next call. -/
  | call (s : Session) (now : Int) (op : Cache.Op) (rest : List Cache.Op)
      (before after : List (List Cache.Op)) (next : s.pending = before ++ (op :: rest) :: after) :
      Step allowed s ⟨(now, op) :: s.history, before ++ rest :: after, s.log⟩

inductive Reachable (allowed : Handler → Prop) : Session → Prop where
  | init : Reachable allowed .init
  | step {s t : Session} : Reachable allowed s → site.Step allowed s t → Reachable allowed t

end Site

/-! ### Responses that come from the cache -/

/-- The response says that it was a hit. -/
def Response.isHit (r : Response) : Bool := r.header "x-lcp-cache" = some ("HIT" : Text)

/-- The exchange can be sent as it is stored. -/
structure Exchange.Servable (e : Exchange) : Prop where
  status : 100 ≤ e.status.toNat ∧ e.status.toNat < 1000
  contentType : e.contentType.bytes.all isHeaderByte = true

private theorem cacheHeader_ne : Text.ofString "content-type" ≠ Text.ofString "x-lcp-cache" := by
  decide

private theorem hit_ne (b : Bool) :
    (if b then Text.ofString "BYPASS" else Text.ofString "MISS") ≠ Text.ofString "HIT" := by
  cases b <;> decide

theorem isHit_textResponse (status : UInt16) (message : Text) :
    (textResponse status message).isHit = false := by
  simp [textResponse, Response.isHit, Response.header, cacheHeader_ne]

namespace ServerConfig

variable {cfg : ServerConfig} {req : Request} {a : Admitted}

/-- A response that was not found in the cache does not say so. -/
theorem isHit_missResponse {u : UpstreamResponse} {received : List Item} {response : Response}
    (h : missResponse a u received = some response) : response.isHit = false := by
  obtain ⟨key, -, rfl⟩ := Option.map_eq_some_iff.mp h
  have hne := hit_ne a.bypass
  unfold buildResponse
  split
  · simp only [Response.isHit, Response.header, missHeaders, List.find?_cons, cacheHeader_ne,
      decide_false, decide_true, Option.map_some, Option.some.injEq, decide_eq_false_iff_not]
    exact hne
  · simp [Response.isHit, Response.header]

theorem isHit_of_admitted_error {response : Response} (h : cfg.admitted req = .error response) :
    response.isHit = false := by
  rw [admitted] at h
  split at h
  · obtain rfl := Except.error.inj h
    exact isHit_textResponse _ _
  · split at h
    · obtain rfl := Except.error.inj h
      exact isHit_textResponse _ _
    · cases h

theorem isHit_handleMiss {send : UpstreamRequest → Except Text UpstreamResponse} {client : Client}
    {response : Response} (h : (cfg.handleMiss req a send client).response = some response) :
    response.isHit = false := by
  rw [handleMiss] at h
  split at h
  · rename_i r hforward
    obtain rfl := Option.some.inj h
    rw [forward] at hforward
    split at hforward
    · obtain rfl := Except.error.inj hforward
      exact isHit_textResponse _ _
    · cases hforward
  · split at h
    · obtain rfl := Option.some.inj h
      exact isHit_textResponse _ _
    · exact isHit_missResponse h

/-- A stored exchange is sent with the header of a hit, and with all its bytes. -/
theorem serveCached_hit {e : Exchange} (he : e.Servable) (d : Digest) :
    ∃ hit, serveCached e d.toHex = some hit ∧ hit.isHit = true ∧
      hit.bytes.length = e.respBytes := by
  obtain ⟨short, hshort, hvalid⟩ := shortKey_toHex d
  have hheaders : ∀ h ∈ ([("content-type", e.contentType), ("x-lcp-cache", "HIT"),
      ("x-lcp-key", short)] : List (Text × Text)), h.2.bytes.all isHeaderByte = true := by
    intro h hh
    rcases List.mem_cons.mp hh with rfl | hh
    · exact he.contentType
    · rcases List.mem_pair.mp hh with rfl | rfl
      · decide
      · exact hvalid
  refine ⟨_,
    by rw [serveCached, hshort, Option.map_some, buildResponse_of_valid he.status hheaders], ?_, ?_⟩
  · simp [Response.isHit, Response.header, cacheHeader_ne]
  · simp only [Response.bytes, List.flatMap_map, List.length_flatMap, Exchange.respBytes]
    rfl

/-- What a proxied request does to the cache after its lookup. -/
def Writes : Cache.Op → Prop
  | .put key _ _ e => (∃ d : Digest, key = d.toHex) ∧ e.Servable
  | .recordTrace _ _ => True
  | _ => False

theorem writes_handle {found : Text → Except CacheError (Option Exchange)}
    {send : UpstreamRequest → Except Text UpstreamResponse} {client : Client} {op : Cache.Op}
    (h : op ∈ (cfg.handle req found send client).calls) : Writes op := by
  have htrace {a : Admitted} (h : op ∈ traceCalls a) : Writes op := by
    obtain ⟨tid, -, rfl⟩ := Option.map_eq_some_iff.mp (Option.mem_toList.mp h)
    trivial
  have hmiss {a : Admitted} (ha : cfg.admitted req = .ok a)
      (h : op ∈ (cfg.handleMiss req a send client).calls) : Writes op := by
    rw [handleMiss] at h
    split at h
    · cases h
    · split at h
      · cases h
      · rename_i u hu
        simp only [writeCalls] at h
        split at h
        · rcases List.mem_cons.mp h with rfl | h
          · exact ⟨admitted_key ha, u.range, contentTypeOf_valid u⟩
          · exact htrace h
        · cases h
  rw [handle] at h
  split at h
  · cases h
  · rename_i a ha
    split at h
    · exact hmiss ha h
    · split at h
      · exact htrace h
      · exact hmiss ha h

end ServerConfig

/-! ### What the counters tell -/

namespace Site

/-- The response of a proxied request that was a hit. -/
def Logged.hit : Logged → Option Response
  | .proxied _ (some response) => if response.isHit then some response else none
  | _ => none

/-- A proxied request that was looked up and was no hit. -/
def Logged.missed (cfg : ServerConfig) (l : Logged) : Bool :=
  match l with
  | .proxied req _ =>
      match cfg.admitted req with
      | .ok a => !a.bypass && l.hit.isNone
      | .error _ => false
  | _ => false

def Logged.resets : Logged → Bool
  | .own .clearStats _ => true
  | _ => false

/-- What was answered since the counters were reset. -/
def sinceReset (log : List Logged) : List Logged := log.takeWhile fun l => !l.resets

/-- The calls since the counters were reset, with their replies. -/
def callsSinceReset (site : Site) (hist : List (Int × Cache.Op)) : List Cache.Answered :=
  Cache.since Cache.Op.isClearStats (site.cache.answered hist)

/-- The calls of the cache tell what the log tells. -/
structure Tells (site : Site) (hist : List (Int × Cache.Op)) (log : List Logged) : Prop where
  bytes : ((site.callsSinceReset hist).filterMap Cache.served).map (fun p => p.2.respBytes) =
    ((sinceReset log).filterMap Logged.hit).map fun r => r.bytes.length
  misses : (site.callsSinceReset hist).countP Cache.missed =
    (sinceReset log).countP (Logged.missed site.cfg)

variable {site : Site} {hist : List (Int × Cache.Op)} {log : List Logged} {l : Logged} {now : Int}

theorem callsSinceReset_cons {op : Cache.Op} (h : op.isClearStats = false) :
    site.callsSinceReset ((now, op) :: hist) =
      (op, (site.cache.exec now op (site.cache.after hist)).1) :: site.callsSinceReset hist :=
  Cache.since_cons h _

theorem sinceReset_cons (h : l.resets = false) : sinceReset (l :: log) = l :: sinceReset log := by
  simp [sinceReset, h]

/-- A call that neither looks up nor resets tells nothing. -/
theorem Tells.call (h : site.Tells hist log) {op : Cache.Op} (hget : ∀ k, op ≠ .get k)
    (hclear : op.isClearStats = false) : site.Tells ((now, op) :: hist) log := by
  have hquiet (reply : Cache.Reply) :
      Cache.served (op, reply) = none ∧ Cache.missed (op, reply) = false := by
    cases op with
    | get k => exact absurd rfl (hget k)
    | put | recordTrace | clearEntries | clearStats | getTrace | stats | listEntries | inspect
    | inspectTrace => exact ⟨rfl, rfl⟩
  obtain ⟨hserved, hmissed⟩ := hquiet (site.cache.exec now op (site.cache.after hist)).1
  constructor
  · rw [callsSinceReset_cons hclear, List.filterMap_cons, hserved]
    exact h.bytes
  · rw [callsSinceReset_cons hclear, List.countP_cons_of_neg (by simp [hmissed])]
    exact h.misses

/-- Nor does an answer without a lookup. -/
theorem Tells.answer (h : site.Tells hist log) (hresets : l.resets = false) (hhit : l.hit = none)
    (hmissed : l.missed site.cfg = false) : site.Tells hist (l :: log) := by
  constructor
  · rw [sinceReset_cons hresets, List.filterMap_cons, hhit]
    exact h.bytes
  · rw [sinceReset_cons hresets, List.countP_cons_of_neg (by simp [hmissed])]
    exact h.misses

/-- A reset forgets both sides. -/
theorem Tells.reset (hresets : l.resets = true) :
    site.Tells ((now, .clearStats) :: hist) (l :: log) := by
  have hcalls : site.callsSinceReset ((now, .clearStats) :: hist) = [] :=
    Cache.since_cons_stop rfl _
  have hlog : sinceReset (l :: log) = [] := by simp [sinceReset, hresets]
  constructor <;> rw [hcalls, hlog] <;> rfl

/-- A lookup that finds nothing, and its answer. -/
theorem Tells.lookup_none (h : site.Tells hist log) {k : Text}
    (hreply : (site.cache.get now k (site.cache.after hist)).1 = .ok none)
    (hresets : l.resets = false) (hhit : l.hit = none) (hmissed : l.missed site.cfg = true) :
    site.Tells ((now, .get k) :: hist) (l :: log) := by
  have hcalls : site.callsSinceReset ((now, .get k) :: hist) =
      (.get k, .exchange (.ok none)) :: site.callsSinceReset hist := by
    rw [callsSinceReset_cons rfl, Cache.exec, hreply]
  constructor
  · rw [hcalls, sinceReset_cons hresets, List.filterMap_cons, List.filterMap_cons, hhit]
    exact h.bytes
  · rw [hcalls, sinceReset_cons hresets, List.countP_cons_of_pos rfl,
      List.countP_cons_of_pos hmissed, h.misses]

/-- A lookup that finds an exchange, and the hit that is made of it. -/
theorem Tells.lookup_some (h : site.Tells hist log) {k : Text} {e : Exchange} {r : Response}
    (hreply : (site.cache.get now k (site.cache.after hist)).1 = .ok (some e))
    (hresets : l.resets = false) (hhit : l.hit = some r) (hmissed : l.missed site.cfg = false)
    (hbytes : r.bytes.length = e.respBytes) : site.Tells ((now, .get k) :: hist) (l :: log) := by
  have hcalls : site.callsSinceReset ((now, .get k) :: hist) =
      (.get k, .exchange (.ok (some e))) :: site.callsSinceReset hist := by
    rw [callsSinceReset_cons rfl, Cache.exec, hreply]
  have hserved : Cache.served (.get k, .exchange (.ok (some e))) = some (k, e) := rfl
  constructor
  · rw [hcalls, sinceReset_cons hresets, List.filterMap_cons, List.filterMap_cons, hhit, hserved,
      List.map_cons, List.map_cons, h.bytes, hbytes]
  · rw [hcalls, sinceReset_cons hresets,
      List.countP_cons_of_neg (by exact Bool.false_ne_true),
      List.countP_cons_of_neg (by simp [hmissed])]
    exact h.misses

/-! ### Requests -/

/-- What has been and will be written is what proxied requests write. -/
structure Written (s : Session) : Prop where
  made : ∀ now k provider model e, (now, Cache.Op.put k provider model e) ∈ s.history →
    ServerConfig.Writes (.put k provider model e)
  pending : ∀ ops ∈ s.pending, ∀ op ∈ ops, ServerConfig.Writes op

variable {s t : Session} {allowed : Handler → Prop}

theorem hit_eq_none {req : Request} {response : Option Response}
    (h : ∀ r, response = some r → r.isHit = false) : (Logged.proxied req response).hit = none := by
  cases response with
  | none => rfl
  | some r => simp [Logged.hit, h r rfl]

private theorem writes_op {op : Cache.Op} (h : ServerConfig.Writes op) :
    (∀ k, op ≠ .get k) ∧ op.isClearStats = false := by
  cases op with
  | put | recordTrace => exact ⟨by simp, rfl⟩
  | get | clearEntries | clearStats | getTrace | stats | listEntries | inspect
  | inspectTrace => exact h.elim

theorem Written.step (hs : Written s) (h : site.Step allowed s t) : Written t := by
  cases h with
  | rejected x status => exact ⟨hs.made, hs.pending⟩
  | own x now handler =>
      refine ⟨fun now' k provider model e hmem => ?_, hs.pending⟩
      rcases List.mem_append.mp hmem with hmem | hmem
      · obtain ⟨op, hop, heq⟩ := List.mem_map.mp hmem
        obtain ⟨-, rfl⟩ := Prod.mk.inj heq
        cases handler with
        | health | getStats | clearStats | clearCache | getCacheEntry => simp [Handler.op] at hop
        | getTrace traceId full => cases full <;> simp [Handler.op] at hop
      · exact hs.made now' k provider model e hmem
  | proxied x now req send client hrouted hhandled =>
      refine ⟨fun now' k provider model e hmem => ?_, fun ops hops op hop => ?_⟩
      · rcases List.mem_append.mp hmem with hmem | hmem
        · rw [lookups] at hmem
          split at hmem
          · split at hmem
            · cases hmem
            · simp at hmem
          · cases hmem
        · exact hs.made now' k provider model e hmem
      · rcases List.mem_cons.mp hops with rfl | hops
        · rw [hhandled] at hop
          exact ServerConfig.writes_handle hop
        · exact hs.pending ops hops op hop
  | call now op rest before after next =>
      have hops := hs.pending (op :: rest) (by simp [next])
      refine ⟨fun now' k provider model e hmem => ?_, fun ops hmem op' hop => ?_⟩
      · rcases List.mem_cons.mp hmem with heq | hmem
        · obtain ⟨-, rfl⟩ := Prod.mk.inj heq
          exact hops _ (List.mem_cons_self ..)
        · exact hs.made now' k provider model e hmem
      · rcases List.mem_append.mp hmem with hmem | hmem
        · exact hs.pending ops (by simp [next, hmem]) op' hop
        rcases List.mem_cons.mp hmem with rfl | hmem
        · exact hops op' (List.mem_cons_of_mem _ hop)
        · exact hs.pending ops (by simp [next, hmem]) op' hop

/-- A proxied request is told by its lookup, if it has one. -/
theorem Tells.proxied (hc : RoundTrips site.cache.crates) (hw : Written s)
    (hs : site.Tells s.history s.log) {req : Request}
    {send : UpstreamRequest → Except Text UpstreamResponse} {client : Client} {handled : Handled}
    (hhandled : handled = site.cfg.handle req
      (fun k => (site.cache.get now k (site.cache.after s.history)).1) send client) :
    site.Tells (site.lookups req now ++ s.history) (.proxied req handled.response :: s.log) := by
  cases ha : site.cfg.admitted req with
  | error response =>
      have hlookups : site.lookups req now = [] := by simp only [lookups, ha]
      have hresponse : handled.response = some response := by
        rw [hhandled, ServerConfig.handle, ha]
        rfl
      have hnone : (Logged.proxied req handled.response).hit = none := by
        rw [hresponse]
        exact hit_eq_none fun r hr => Option.some.inj hr ▸ ServerConfig.isHit_of_admitted_error ha
      rw [hlookups]
      exact hs.answer rfl hnone (by simp only [Logged.missed, ha])
  | ok a =>
      cases hb : a.bypass with
      | true =>
          have hlookups : site.lookups req now = [] := by simp [lookups, ha, hb]
          have hmiss : handled = site.cfg.handleMiss req a send client := by
            simp [hhandled, ServerConfig.handle, ha, hb]
          have hnone : (Logged.proxied req handled.response).hit = none := by
            rw [hmiss]
            exact hit_eq_none fun r => ServerConfig.isHit_handleMiss
          rw [hlookups]
          exact hs.answer rfl hnone (by simp [Logged.missed, ha, hb])
      | false =>
          have hlookups : site.lookups req now = [(now, .get a.key)] := by simp [lookups, ha, hb]
          rw [hlookups]
          have hcounts :
              (site.cache.get now a.key (site.cache.after s.history)).1 = .ok none ∧ _ ∨ _ :=
            Cache.get_counts hc (Cache.after_refines hc s.history) a.key
          rcases hcounts with ⟨hreply, -⟩ | ⟨e, hreply, -⟩
          · have hmiss : handled = site.cfg.handleMiss req a send client := by
              simp [hhandled, ServerConfig.handle, ha, hb, hreply]
            have hnone : (Logged.proxied req handled.response).hit = none := by
              rw [hmiss]
              exact hit_eq_none fun r => ServerConfig.isHit_handleMiss
            exact hs.lookup_none hreply rfl hnone (by simp [Logged.missed, ha, hb, hnone])
          · obtain ⟨later, earlier, t, provider, model, hhist, -⟩ :=
              Cache.exists_put_of_get hc hreply
            obtain ⟨⟨d, hd⟩, he⟩ := hw.made t a.key provider model e (by simp [hhist])
            obtain ⟨hit, hserved, hisHit, hbytes⟩ := ServerConfig.serveCached_hit he d
            rw [← hd] at hserved
            have hresponse : handled.response = some hit := by
              simp [hhandled, ServerConfig.handle, ha, hb, hreply, hserved]
            have hsome : (Logged.proxied req handled.response).hit = some hit := by
              rw [hresponse]
              exact if_pos hisHit
            exact hs.lookup_some hreply rfl hsome (by simp [Logged.missed, ha, hsome]) hbytes

theorem Tells.step (hc : RoundTrips site.cache.crates) (hw : Written s)
    (hs : site.Tells s.history s.log) (h : site.Step allowed s t) : site.Tells t.history t.log := by
  cases h with
  | rejected x status => exact hs.answer rfl rfl rfl
  | own x now handler =>
      cases handler with
      | health => exact hs.answer rfl rfl rfl
      | clearStats => exact .reset rfl
      | getStats | clearCache | getCacheEntry =>
          exact (hs.call (by simp) rfl).answer rfl rfl rfl
      | getTrace traceId full =>
          cases full <;> exact (hs.call (by simp) rfl).answer rfl rfl rfl
  | proxied x now req send client hrouted hhandled => exact hs.proxied hc hw hhandled
  | call now op rest before after next =>
      obtain ⟨hget, hclear⟩ := writes_op (hw.pending (op :: rest) (by simp [next]) op
        (List.mem_cons_self ..))
      exact hs.call hget hclear

theorem Reachable.tells (hc : RoundTrips site.cache.crates) (h : site.Reachable allowed s) :
    Written s ∧ site.Tells s.history s.log := by
  induction h with
  | init => exact ⟨⟨by simp [Session.init], by simp [Session.init]⟩, rfl, rfl⟩
  | step _ hstep ih => exact ⟨ih.1.step hstep, ih.2.step hc ih.1 hstep⟩

/-- What `GET /stats` reports agrees with the responses that were sent, whatever
came in between: since the last reset there were as many responses marked as
hits as it says, with as many bytes in their bodies, and as many requests that
were looked up and went on as it says there were misses. -/
theorem stats_reported (hc : RoundTrips site.cache.crates) (h : site.Reachable allowed s) :
    ∃ stats, (site.getStats (site.cache.after s.history)).1 = site.jsonResponse (statsJson stats) ∧
      stats.hits = ((sinceReset s.log).filterMap Logged.hit).length ∧
      stats.misses = (sinceReset s.log).countP (Logged.missed site.cfg) ∧
      stats.bytesServedFromCache =
        (((sinceReset s.log).filterMap Logged.hit).map fun r => r.bytes.length).sum := by
  obtain ⟨-, htells⟩ := h.tells hc
  have hcounts := Cache.after_counts hc s.history
  have hlength := congrArg List.length htells.bytes
  rw [List.length_map, List.length_map] at hlength
  exact ⟨_, rfl, hcounts.hits.trans hlength, hcounts.misses.trans htells.misses,
    hcounts.bytesServed.trans (congrArg List.sum htells.bytes)⟩

end Site

/-! ### What nobody notices -/

namespace Cache

variable {c : Cache} {now : Int} {db db' : Db}

/-- Entries and traces are the same; the counters may differ. -/
structure SameStore (db db' : Db) : Prop where
  entries : db.entries = db'.entries
  traceEntries : db.traceEntries = db'.traceEntries

/-- What a lookup returns does not depend on the counters. -/
theorem SameStore.get (h : SameStore db db') (key : Text) :
    (c.get now key db).1 = (c.get now key db').1 ∧
      SameStore (c.get now key db).2 (c.get now key db').2 := by
  simp only [Cache.get, h.entries]
  cases db'.entries.find? key with
  | none => exact ⟨rfl, h.entries, h.traceEntries⟩
  | some row =>
      by_cases hold : 0 < c.ttlSeconds ∧ c.ttlSeconds < c.ageSeconds now row.createdAt
      · simp only [if_pos hold]
        exact ⟨trivial, h.entries, h.traceEntries⟩
      · simp only [if_neg hold]
        exact ⟨trivial, by simp only [Db.count, Db.hit, h.entries], h.traceEntries⟩

theorem SameStore.exec (h : SameStore db db') (op : Op) :
    SameStore (c.exec now op db).2 (c.exec now op db').2 := by
  cases op with
  | get key => exact (h.get key).2
  | put key provider model exchange =>
      exact ⟨by simp only [Cache.exec, put, h.entries], h.traceEntries⟩
  | recordTrace traceId cacheKey =>
      exact ⟨h.entries, by simp only [Cache.exec, recordTrace, h.traceEntries]⟩
  | clearEntries => exact ⟨rfl, rfl⟩
  | clearStats => exact ⟨h.entries, h.traceEntries⟩
  | getTrace | stats | listEntries | inspect | inspectTrace => exact h

end Cache

namespace Site

variable {site : Site} {s s' t : Session} {now : Int}

/-- A proxied request with its response. -/
def Logged.toClient : Logged → Option (Request × Option Response)
  | .proxied req response => some (req, response)
  | _ => none

/-- The clients of the proxy have got the same responses, and their requests
have the same calls to make. -/
structure Unnoticed (site : Site) (s t : Session) : Prop where
  pending : t.pending = s.pending
  clients : t.log.filterMap Logged.toClient = s.log.filterMap Logged.toClient
  store : Cache.SameStore (site.cache.after t.history) (site.cache.after s.history)

/-- A request about the server that purges nothing leaves entries and traces. -/
theorem store_answer {handler : Handler} (h : handler ≠ .clearCache) (db : Db) :
    Cache.SameStore db (site.answer handler db).2 := by
  cases handler with
  | clearCache => exact absurd rfl h
  | health | getStats | clearStats => exact ⟨rfl, rfl⟩
  | getCacheEntry key =>
      simp only [answer, getCacheEntry]
      split <;> exact ⟨rfl, rfl⟩
  | getTrace traceId full =>
      cases full with
      | false => exact ⟨rfl, rfl⟩
      | true =>
          simp only [answer, getTrace, if_true]
          split <;> exact ⟨rfl, rfl⟩

theorem store_lookups {hist hist' : List (Int × Cache.Op)}
    (h : Cache.SameStore (site.cache.after hist') (site.cache.after hist)) (req : Request) :
    Cache.SameStore (site.cache.after (site.lookups req now ++ hist'))
      (site.cache.after (site.lookups req now ++ hist)) := by
  unfold lookups
  split
  · split
    · exact h
    · exact h.exec _
  · exact h

/-- Each step is one of the other run, or none. -/
theorem Unnoticed.step {allowed : Handler → Prop} (hst : Unnoticed site s t)
    (h : site.Step allowed s s') :
    Unnoticed site s' t ∨ ∃ t', site.Step (fun handler => handler = .clearCache) t t' ∧
      Unnoticed site s' t' := by
  cases h with
  | rejected x status => exact .inl ⟨hst.pending, hst.clients, hst.store⟩
  | own x now handler hrouted =>
      by_cases hpurge : handler = .clearCache
      · subst hpurge
        refine .inr ⟨_, .own t x now .clearCache hrouted rfl, hst.pending, hst.clients, ?_⟩
        exact ⟨rfl, rfl⟩
      · have hkept : Cache.SameStore (site.cache.after s.history)
            (site.cache.after (handler.calls now ++ s.history)) := by
          rw [← answer_after]
          exact store_answer hpurge (site.cache.after s.history)
        refine .inl ⟨hst.pending, hst.clients, ?_⟩
        exact ⟨hst.store.entries.trans hkept.entries,
          hst.store.traceEntries.trans hkept.traceEntries⟩
  | proxied x now req send client hrouted hhandled =>
      have hfound : (fun k => (site.cache.get now k (site.cache.after s.history)).1) =
          fun k => (site.cache.get now k (site.cache.after t.history)).1 :=
        funext fun k => (hst.store.get k).1.symm
      rw [hfound] at hhandled
      refine .inr ⟨_, .proxied t x now req send client hrouted hhandled, ?_, ?_, ?_⟩
      · exact congrArg (List.cons _) hst.pending
      · exact congrArg (List.cons _) hst.clients
      · exact store_lookups hst.store req
  | call now op rest before after next =>
      exact .inr ⟨_, .call t now op rest before after (hst.pending.trans next), rfl, hst.clients,
        hst.store.exec op⟩

/-- For every run there is one without requests about the server, purges apart,
in which the clients of the proxy get the same responses and the cache ends up
with the same entries and traces. -/
theorem inspection_unnoticed {allowed : Handler → Prop} (h : site.Reachable allowed s) :
    ∃ t, site.Reachable (fun handler => handler = .clearCache) t ∧ Unnoticed site s t := by
  induction h with
  | init => exact ⟨.init, .init, rfl, rfl, rfl, rfl⟩
  | step _ hstep ih =>
      obtain ⟨t, ht, hst⟩ := ih
      rcases hst.step hstep with hst' | ⟨t', hstep', hst'⟩
      · exact ⟨t, ht, hst'⟩
      · exact ⟨t', ht.step hstep', hst'⟩

end Site

/-! ### A list of files -/

namespace Site

open ServerConfig (fileAdmitted listRequest cutResponse eagerClient)

/-- The answer to a first request for the list. -/
noncomputable def listHandled : Handled :=
  sampleSite.cfg.handle listRequest
    (fun k => (sampleSite.cache.get 0 k (sampleSite.cache.after [])).1)
    (fun _ => .ok cutResponse) eagerClient

/-- The list has been looked up, and sent by the provider. -/
noncomputable def listed : Session :=
  ⟨sampleSite.lookups listRequest 0, [listHandled.calls],
    [.proxied listRequest listHandled.response]⟩

private theorem reachable_listed (allowed : Handler → Prop) :
    sampleSite.Reachable allowed listed :=
  Reachable.init.step (.proxied .init listFiles 0 listRequest _ _ routed_listFiles rfl)

def statsRequest (method : HttpMethod) : HttpRequest where
  method := method
  uri := { ServerConfig.listUri with
    path := "/stats"
    path_visible := List.all_iff_forall_prop.mp (by decide) }
  headers := []
  body := []

private theorem routed_readStats :
    sampleSite.routed (statsRequest .get) = .ok (.own .getStats) := by
  have hendpoint : endpoint (statsRequest .get).uri.path.bytes = some .stats := by decide
  simp only [routed, hendpoint]
  rfl

private theorem routed_clearStats :
    sampleSite.routed (statsRequest .delete) = .ok (.own .clearStats) := by
  have hendpoint : endpoint (statsRequest .delete).uri.path.bytes = some .stats := by decide
  simp only [routed, hendpoint]
  rfl

private theorem admitted_listFiles : sampleSite.cfg.admitted listRequest =
    .ok (fileAdmitted "/openai/v1/files") := rfl

private theorem missed_listFiles : sampleSite.cfg.Missed listRequest
    fun k => (sampleSite.cache.get 0 k (sampleSite.cache.after [])).1 :=
  ServerConfig.missed_of_empty _ _

private theorem missed_listed :
    (Logged.proxied listRequest listHandled.response).missed sampleSite.cfg = true := by
  have hmiss : listHandled = sampleSite.cfg.handleMiss listRequest
      (fileAdmitted "/openai/v1/files") (fun _ => .ok cutResponse)
      eagerClient := ServerConfig.handle_of_missed missed_listFiles admitted_listFiles
  have hhit : (Logged.proxied listRequest listHandled.response).hit = none := by
    rw [hmiss]
    exact hit_eq_none fun r => ServerConfig.isHit_handleMiss
  simp only [Logged.missed, admitted_listFiles, hhit]
  rfl

/-- The list is going to be stored. -/
private theorem calls_listed : ∃ provider model e, e.Servable ∧ e.respBytes = 6 ∧
    listHandled.calls = [.put (fileAdmitted "/openai/v1/files").key provider model e] := by
  have hrelays : sampleSite.cfg.Relays listRequest (fun _ => .ok cutResponse)
      (fileAdmitted "/openai/v1/files") cutResponse cutResponse.stream :=
    ⟨_, [], admitted_listFiles, rfl, rfl, rfl⟩
  have hhandled : listHandled = ⟨_, _⟩ := ServerConfig.handle_relays missed_listFiles hrelays
  rw [ServerConfig.writeCalls_of_cacheable (ServerConfig.cutResponse_cacheable rfl (by decide))]
    at hhandled
  obtain ⟨provider, model, e, hbytes, hcalls⟩ : ∃ provider model e, e.respBytes = 6 ∧
      listHandled.calls = [.put (fileAdmitted "/openai/v1/files").key provider model e] :=
    ⟨_, _, _, rfl, congrArg Handled.calls hhandled⟩
  have hput : .put (fileAdmitted "/openai/v1/files").key provider model e ∈ listHandled.calls := by
    simp [hcalls]
  exact ⟨provider, model, e, (ServerConfig.writes_handle hput).2, hbytes, hcalls⟩

/-- The list is stored, the counters are reset, and the list is asked for again. -/
private theorem reachable_relisted : ∃ s hit reset, sampleSite.Reachable (fun _ => True) s ∧
    s.log = .proxied listRequest (some hit) :: .own .clearStats reset :: listed.log ∧
    hit.isHit = true ∧ hit.bytes.length = 6 := by
  obtain ⟨provider, model, e, he, hbytes, hcalls⟩ := calls_listed
  obtain ⟨d, hd⟩ := ServerConfig.admitted_key admitted_listFiles
  obtain ⟨hit, hserved, hisHit, hlength⟩ := ServerConfig.serveCached_hit he d
  have hpending : listed.pending =
      [] ++ [.put (fileAdmitted "/openai/v1/files").key provider model e] :: [] :=
    congrArg (fun calls => [calls]) hcalls
  have hstored := (reachable_listed fun _ => True).step (.call listed 1 _ [] [] [] hpending)
  have hreset := hstored.step (.own _ _ 2 .clearStats routed_clearStats trivial)
  let hist : List (Int × Cache.Op) := [(2, .clearStats)] ++
    (1, .put (fileAdmitted "/openai/v1/files").key provider model e) :: listed.history
  have hfound : (sampleSite.cache.get 3 (fileAdmitted "/openai/v1/files").key
      (sampleSite.cache.after hist)).1 = .ok (some e) :=
    Cache.get_after_put Cache.sampleCrates_roundTrips
      (by simp [ExpiringStore.Keeps, Cache.Op.event]) rfl
  have hhandled : sampleSite.cfg.handle listRequest
      (fun k => (sampleSite.cache.get 3 k (sampleSite.cache.after hist)).1)
      (fun _ => .ok cutResponse) eagerClient =
        ⟨ServerConfig.serveCached e (fileAdmitted "/openai/v1/files").key, []⟩ :=
    ServerConfig.handle_of_found admitted_listFiles rfl hfound
  rw [hd, hserved] at hhandled
  have hrelisted := hreset.step (.proxied _ listFiles 3 _ _ _ routed_listFiles hhandled.symm)
  exact ⟨_, hit, _, hrelisted, rfl, hisHit, hlength.trans hbytes⟩

theorem stats_reported_listFiles : ∃ s hit reset stats stats',
    sampleSite.Reachable (fun _ => True) s ∧
    s.log = .proxied listRequest (some hit) :: .own .clearStats reset :: listed.log ∧
    (sampleSite.getStats (sampleSite.cache.after listed.history)).1 =
      sampleSite.jsonResponse (statsJson stats) ∧ stats.misses = 1 ∧
    (sampleSite.getStats (sampleSite.cache.after s.history)).1 =
      sampleSite.jsonResponse (statsJson stats') ∧
      stats'.hits = 1 ∧ stats'.misses = 0 ∧ stats'.bytesServedFromCache = 6 := by
  have hc : RoundTrips sampleSite.cache.crates := Cache.sampleCrates_roundTrips
  obtain ⟨s, hit, reset, hreach, hlog, hisHit, hlength⟩ := reachable_relisted
  obtain ⟨stats, hreported, -, hmisses, -⟩ := stats_reported hc (reachable_listed fun _ => True)
  obtain ⟨stats', hreported', hhits', hmisses', hbytes'⟩ := stats_reported hc hreach
  have hone : (sinceReset listed.log).countP (Logged.missed sampleSite.cfg) = 1 := by
    simp [listed, sinceReset, Logged.resets, missed_listed]
  have hsince : sinceReset s.log = [.proxied listRequest (some hit)] := by
    rw [hlog]
    rfl
  have hhit : (Logged.proxied listRequest (some hit)).hit = some hit := if_pos hisHit
  rw [hsince] at hhits' hmisses' hbytes'
  refine ⟨s, hit, reset, stats, stats', hreach, hlog, hreported, hmisses.trans hone, hreported',
    ?_, ?_, ?_⟩
  · simpa [hhit] using hhits'
  · simpa [Logged.missed, admitted_listFiles, hhit] using hmisses'
  · simpa [hhit, hlength] using hbytes'

theorem inspection_unnoticed_listFiles : ∃ t,
    sampleSite.Reachable (fun handler => handler = .clearCache) t ∧
      t.log.filterMap Logged.toClient = [(listRequest, listHandled.response)] := by
  have hinspected := (reachable_listed fun _ => True).step
    (.own listed (statsRequest .get) 1 .getStats routed_readStats trivial)
  obtain ⟨t, ht, hunnoticed⟩ := inspection_unnoticed hinspected
  exact ⟨t, ht, hunnoticed.clients⟩

end Site

end LlmCacheProxy
