import LlmCacheProxy.UpstreamUrl

/-!
# The routes of the server

Besides the requests that it proxies, the server answers requests about itself:
it reports its counters, its entries and its traces, and purges them. A request
is routed by its path and its method.
-/

namespace LlmCacheProxy

/-! ### Routing -/

/-- The methods that routes tell apart. -/
inductive HttpMethod where
  | get
  | head
  | post
  | delete
  | other
  deriving DecidableEq

/-- The method of a proxied request. -/
def HttpMethod.router : HttpMethod → Option RouterMethod
  | .get => some .get
  | .head => some .head
  | .post => some .post
  | .delete | .other => none

/-- A route for GET answers HEAD as well. -/
def HttpMethod.reads (m : HttpMethod) : Bool := m = .get || m = .head

/-- A request whose body has been decompressed. -/
structure HttpRequest where
  method : HttpMethod
  uri : RequestUri
  /-- With names in lower case. -/
  headers : List (Text × Bytes)
  body : Bytes

/-- The routes, with what they capture. -/
inductive Endpoint where
  | health
  | stats
  | cache
  | cacheEntry (key : Bytes)
  | trace (traceId : Bytes)
  | proxy (provider path : Bytes)
  deriving DecidableEq

/-- The segment behind a fixed front, if it is the last one. -/
def captureBehind (front : Text) (path : Bytes) : Option Bytes :=
  let segment := path.drop front.length
  if front.bytes <+: path ∧ segment ≠ [] ∧ 0x2F ∉ segment then some segment else none

/-- A fixed segment goes before a captured one, which goes before the rest of a
path. -/
def endpoint (path : Bytes) : Option Endpoint :=
  if path = (Text.ofString "/").bytes then some .health
  else if path = (Text.ofString "/stats").bytes then some .stats
  else if path = (Text.ofString "/cache").bytes then some .cache
  else
    match captureBehind "/cache/" path with
    | some key => some (.cacheEntry key)
    | none =>
        match captureBehind "/trace/" path with
        | some traceId => some (.trace traceId)
        | none => (RequestUri.captures path).map fun p => .proxy p.1 p.2

/-- The handlers of requests about the server, with what they extract. -/
inductive Handler where
  | health
  | getStats
  | clearStats
  | clearCache
  | getCacheEntry (key : Text)
  | getTrace (traceId : Text) (full : Bool)

inductive Routed where
  | own (handler : Handler)
  | proxy (req : Request)

/-- The server with all that its routes need. -/
structure Site where
  cfg : ServerConfig
  cache : Cache
  /-- Zero means that there is no limit. -/
  bodyLimitBytes : UInt64
  version : Text
  /-- The flag `full` of a query, or `none` for one that is not accepted. -/
  traceQuery : Option Text → Option Bool

namespace Site

variable (site : Site)

/-- Where a request goes, or the status with which it is rejected. -/
def routed (x : HttpRequest) : Except UInt16 Routed :=
  match endpoint x.uri.path.bytes with
  | none => .error 404
  | some .health => if x.method.reads then .ok (.own .health) else .error 405
  | some .stats =>
      if x.method.reads then .ok (.own .getStats)
      else if x.method = .delete then .ok (.own .clearStats)
      else .error 405
  | some .cache => if x.method = .delete then .ok (.own .clearCache) else .error 405
  | some (.cacheEntry key) =>
      if x.method.reads then
        match Text.ofUtf8? (Uri.percentDecode key) with
        | some key => .ok (.own (.getCacheEntry key))
        | none => .error 400
      else .error 405
  | some (.trace traceId) =>
      if x.method.reads then
        match Text.ofUtf8? (Uri.percentDecode traceId), site.traceQuery x.uri.query with
        | some traceId, some full => .ok (.own (.getTrace traceId full))
        | _, _ => .error 400
      else .error 405
  | some (.proxy _ _) =>
      match x.method.router with
      | none => .error 405
      | some method =>
          match (RawRequest.mk method x.uri x.headers x.body).received with
          | none => .error 400
          | some req =>
              if 0 < site.bodyLimitBytes.toNat ∧ site.bodyLimitBytes.toNat < req.body.length then
                .error 413
              else .ok (.proxy req)

end Site

/-! ### Which requests are proxied -/

theorem captureBehind_eq_some {front : Text} {path segment : Bytes}
    (h : captureBehind front path = some segment) :
    path = front.bytes ++ segment ∧ segment ≠ [] ∧ 0x2F ∉ segment := by
  simp only [captureBehind, Option.ite_none_right_eq_some, Option.some.injEq] at h
  obtain ⟨⟨⟨rest, rfl⟩, hne, hslash⟩, rfl⟩ := h
  have hrest : (front.bytes ++ rest).drop front.length = rest := List.drop_left
  rw [hrest] at hne hslash ⊢
  exact ⟨rfl, hne, hslash⟩

theorem captures_join {name rest : Bytes} (hname : name ≠ []) (hslash : 0x2F ∉ name)
    (hrest : rest ≠ []) :
    RequestUri.captures (0x2F :: (name ++ 0x2F :: rest)) = some (name, rest) := by
  have hall : ∀ b ∈ name, decide (b ≠ 0x2F) = true := by
    intro b hb
    rw [decide_eq_true_eq]
    rintro rfl
    exact hslash hb
  have htake : (name ++ 0x2F :: rest).takeWhile (fun b => decide (b ≠ 0x2F)) = name := by
    rw [List.takeWhile_append_of_pos hall]
    simp
  have hdrop : (name ++ 0x2F :: rest).dropWhile (fun b => decide (b ≠ 0x2F)) = 0x2F :: rest := by
    rw [List.dropWhile_append_of_pos hall]
    simp
  simp only [RequestUri.captures, htake, hdrop]
  exact if_pos ⟨hname, hrest⟩

/-- A segment that is captured behind a name is behind that name for the proxy
as well. -/
theorem captures_of_captureBehind {front : Text} {path segment : Bytes} (name : Text)
    (hfront : front.bytes = 0x2F :: (name.bytes ++ [0x2F])) (hname : name.bytes ≠ [])
    (hslash : 0x2F ∉ name.bytes) (h : captureBehind front path = some segment) :
    RequestUri.captures path = some (name.bytes, segment) := by
  obtain ⟨rfl, hne, -⟩ := captureBehind_eq_some h
  have hpath : front.bytes ++ segment = 0x2F :: (name.bytes ++ 0x2F :: segment) := by simp [hfront]
  rw [hpath, captures_join hname hslash hne]

/-- What the server captures for itself has no provider in front. -/
theorem endpoint_of_captures {path provider rest : Bytes}
    (h : RequestUri.captures path = some (provider, rest))
    (hcache : provider ≠ (Text.ofString "cache").bytes)
    (htrace : provider ≠ (Text.ofString "trace").bytes) :
    endpoint path = some (.proxy provider rest) := by
  have hfixed {front : Text} (hnone : RequestUri.captures front.bytes = none) :
      path ≠ front.bytes := by
    rintro rfl
    rw [hnone] at h
    cases h
  have hkey : captureBehind "/cache/" path = none := by
    by_contra hsome
    obtain ⟨key, hkey⟩ := Option.ne_none_iff_exists'.mp hsome
    have hname := captures_of_captureBehind "cache" (by decide) (by decide) (by decide) hkey
    exact hcache (Prod.mk.inj (Option.some.inj (h.symm.trans hname))).1
  have hid : captureBehind "/trace/" path = none := by
    by_contra hsome
    obtain ⟨traceId, hid⟩ := Option.ne_none_iff_exists'.mp hsome
    have hname := captures_of_captureBehind "trace" (by decide) (by decide) (by decide) hid
    exact htrace (Prod.mk.inj (Option.some.inj (h.symm.trans hname))).1
  rw [endpoint, if_neg (hfixed (by decide)), if_neg (hfixed (by decide)),
    if_neg (hfixed (by decide)), hkey, hid, h]
  rfl

namespace Site

variable {site : Site}

theorem endpoint_of_routed_proxy {x : HttpRequest} {req : Request}
    (h : site.routed x = .ok (.proxy req)) :
    ∃ provider path, endpoint x.uri.path.bytes = some (.proxy provider path) := by
  unfold routed at h
  split at h
  case h_7 provider path hendpoint => exact ⟨provider, path, hendpoint⟩
  -- The other routes are the server's own.
  all_goals
    repeat' split at h
    all_goals cases h

/-- A request reaches a provider exactly when a proxied route takes its method,
its path decodes to text and the body is within the limit: the routes of the
server itself are never in the way of a provider. -/
theorem routed_proxy_iff {x : HttpRequest} {req : Request} {p : Provider}
    (hp : Provider.fromPrefix req.providerStr = some p) :
    site.routed x = .ok (.proxy req) ↔
      (∃ method, x.method.router = some method ∧
        (RawRequest.mk method x.uri x.headers x.body).received = some req) ∧
      (site.bodyLimitBytes.toNat = 0 ∨ req.body.length ≤ site.bodyLimitBytes.toNat) := by
  have hlimit : ¬ (0 < site.bodyLimitBytes.toNat ∧ site.bodyLimitBytes.toNat < req.body.length) ↔
      site.bodyLimitBytes.toNat = 0 ∨ req.body.length ≤ site.bodyLimitBytes.toNat := by omega
  rw [← hlimit]
  constructor
  · intro h
    obtain ⟨provider, path, hendpoint⟩ := endpoint_of_routed_proxy h
    simp only [routed, hendpoint] at h
    split at h
    · cases h
    · rename_i method hmethod
      split at h
      · cases h
      · rename_i req' hreceived
        split at h
        · cases h
        · rename_i hwithin
          obtain rfl := Routed.proxy.inj (Except.ok.inj h)
          exact ⟨⟨method, hmethod, hreceived⟩, hwithin⟩
  · rintro ⟨⟨method, hmethod, hreceived⟩, hwithin⟩
    obtain ⟨provider, rest, hcaptures, hprovider, -⟩ := RawRequest.received_eq_some hreceived
    have hname (name : Text) (hdecode : Uri.percentDecode name.bytes = name.bytes)
        (hnone : Provider.fromPrefix name = none) : provider ≠ name.bytes := by
      rintro rfl
      obtain rfl : req.providerStr = name := Text.ext (hprovider.trans hdecode)
      rw [hnone] at hp
      cases hp
    have hendpoint : endpoint x.uri.path.bytes = some (.proxy provider rest) :=
      endpoint_of_captures hcaptures (hname "cache" (by decide) (by decide))
        (hname "trace" (by decide) (by decide))
    simp only [routed, hendpoint, hmethod, hreceived, if_neg hwithin]

end Site

/-! ### Requests about the server -/

namespace Site

variable (site : Site)

def jsonNat (n : Nat) : Json := .number (.ofU64 (.ofNat n))

/-- `Json`, as a response. -/
def jsonResponse (v : Json) : Response :=
  ⟨200, [("content-type", "application/json")], [.ok (site.cfg.crates.serialize v).bytes]⟩

/-- `to_string` of an error. -/
def errorText : CacheError → Text
  | .deserializing what => what

def requestJson (r : RequestRecord) : Json :=
  .ofMembers [("method", .string r.method), ("path", .string r.path), ("body", .string r.body)]

def chunkJson (chunk : ResponseChunk) : Json :=
  .ofMembers [("offset_ms", .number (.ofU64 chunk.offsetMs)), ("data", .string chunk.data)]

def modelJson (model : Option Text) : Json :=
  match model with
  | some model => .string model
  | none => .null

def fullEntryJson (e : FullEntry) : Json :=
  .ofMembers [("key", .string e.key), ("created_at", .string e.createdAt),
    ("provider", .string e.provider), ("model", modelJson e.model),
    ("status", jsonNat e.status.toNat), ("content_type", .string e.contentType),
    ("hit_count", jsonNat e.hitCount), ("req_bytes", jsonNat e.reqBytes),
    ("resp_bytes", jsonNat e.respBytes), ("request", requestJson e.request),
    ("chunks", .array (e.chunks.map chunkJson))]

def cacheEntryJson (e : CacheEntry) : Json :=
  .ofMembers [("key", .string e.key), ("created_at", .string e.createdAt),
    ("status", jsonNat e.status.toNat), ("hit_count", jsonNat e.hitCount)]

def statsJson (s : CacheStats) : Json :=
  .ofMembers [("hits", jsonNat s.hits), ("misses", jsonNat s.misses),
    ("bytes_served_from_cache", jsonNat s.bytesServedFromCache), ("entries", jsonNat s.entries),
    ("by_model", .ofMembers (s.byModel.entries.map fun p => (p.1, jsonNat p.2)))]

def health : Response :=
  site.jsonResponse (.ofMembers [("status", .string "ok"), ("service", .string "lcp"),
    ("version", .string site.version)])

def getStats (db : Db) : Response × Db := (site.jsonResponse (statsJson (Cache.stats db)), db)

def clearStats (db : Db) : Response × Db :=
  (site.jsonResponse (.ofMembers [("cleared", .bool true)]), Cache.clearStats db)

def clearCache (db : Db) : Response × Db :=
  let (n, db) := Cache.clearEntries db
  (site.jsonResponse (.ofMembers [("cleared_entries", jsonNat n)]), db)

def getCacheEntry (key : Text) (db : Db) : Response × Db :=
  match site.cache.inspect key db with
  | .ok (some entry) => (site.jsonResponse (fullEntryJson entry), db)
  | .ok none => (textResponse 404 ("cache key not found: " ++ key), db)
  | .error e => (textResponse 500 (errorText e), db)

def getTrace (traceId : Text) (full : Bool) (db : Db) : Response × Db :=
  if full then
    match site.cache.inspectTrace traceId db with
    | .ok entries =>
        (site.jsonResponse (.ofMembers [("trace_id", .string traceId),
          ("entries", .array (entries.map fullEntryJson))]), db)
    | .error e => (textResponse 500 (errorText e), db)
  else
    (site.jsonResponse (.ofMembers [("trace_id", .string traceId),
      ("entries", .array ((Cache.getTrace traceId db).map cacheEntryJson))]), db)

def answer (handler : Handler) (db : Db) : Response × Db :=
  match handler with
  | .health => (site.health, db)
  | .getStats => site.getStats db
  | .clearStats => site.clearStats db
  | .clearCache => site.clearCache db
  | .getCacheEntry key => site.getCacheEntry key db
  | .getTrace traceId full => site.getTrace traceId full db

end Site

/-- The call of the cache that a handler makes. -/
def Handler.op : Handler → Option Cache.Op
  | .health => none
  | .getStats => some .stats
  | .clearStats => some .clearStats
  | .clearCache => some .clearEntries
  | .getCacheEntry key => some (.inspect key)
  | .getTrace traceId true => some (.inspectTrace traceId)
  | .getTrace traceId false => some (.getTrace traceId)

def Handler.calls (handler : Handler) (now : Int) : List (Int × Cache.Op) :=
  handler.op.toList.map fun op => (now, op)

/-! ### A list of files -/

namespace Site

/-- Proxies to the default upstreams, without a limit. -/
noncomputable def sampleSite : Site where
  cfg := ServerConfig.sampleConfig
  cache := ⟨Cache.sampleCrates, 0⟩
  bodyLimitBytes := 0
  version := "0.1.0"
  traceQuery query := some (query = some ("full=true" : Text))

def listFiles : HttpRequest := ⟨.get, ServerConfig.listUri, [], []⟩

private theorem received_listFiles :
    (RawRequest.mk .get listFiles.uri listFiles.headers listFiles.body).received =
      some ServerConfig.listRequest := rfl

private theorem endpoint_listFiles : endpoint listFiles.uri.path.bytes =
    some (.proxy (Text.ofString "openai").bytes (Text.ofString "v1/files").bytes) := by decide

theorem routed_listFiles :
    sampleSite.routed listFiles = .ok (.proxy ServerConfig.listRequest) := by
  simp only [routed, endpoint_listFiles]
  rfl

theorem routed_proxy_iff_listFiles :
    ({ sampleSite with bodyLimitBytes := 1 } : Site).routed listFiles =
      .ok (.proxy ServerConfig.listRequest) :=
  (routed_proxy_iff (p := .openAi) (by decide)).mpr
    ⟨⟨.get, rfl, received_listFiles⟩, .inr (Nat.zero_le _)⟩

end Site

end LlmCacheProxy
