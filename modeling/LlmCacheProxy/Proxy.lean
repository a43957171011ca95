import LlmCacheProxy.Cache
import LlmCacheProxy.Extensions
import LlmCacheProxy.Hash

/-!
# Proxied requests

A request is admitted with its cache key. A hit is answered from the cache. On
a miss the request goes upstream, and while the response is relayed to the
client a background task collects it; the task writes it to the cache after
the last chunk, or not at all. The handler is a function of what it meets
outside: the answer of the cache, the response of the upstream, and how long
the client is there to take chunks.
-/

namespace LlmCacheProxy

/-! ### Headers -/

/-- Bytes that `HeaderValue::to_str` accepts. -/
def isVisibleAscii (b : UInt8) : Bool := (0x20 ≤ b.toNat && b.toNat < 0x7F) || b = 0x09

/-- Bytes of a header value. -/
def isHeaderByte (b : UInt8) : Bool := (0x20 ≤ b.toNat && b ≠ 0x7F) || b = 0x09

private theorem ascii_of_visible {b : UInt8} (h : isVisibleAscii b = true) : b.toNat < 0x80 := by
  simp only [isVisibleAscii, Bool.or_eq_true, Bool.and_eq_true, decide_eq_true_eq] at h
  rcases h with h | rfl
  · omega
  · decide

/-- `HeaderValue::to_str`. -/
def toStr (value : Bytes) : Option Text :=
  if h : value.all isVisibleAscii = true then
    some ⟨value, Utf8.valid_of_ascii fun b hb => ascii_of_visible (List.all_eq_true.mp h b hb)⟩
  else none

/-- The first value of a header, if it is text. -/
def headerStr (headers : List (Text × Bytes)) (name : Text) : Option Text :=
  (headers.find? fun h => h.1 = name).bind fun h => toStr h.2

/-! ### Requests and responses -/

structure Request where
  method : Text
  /-- The two parts of the path, percent-decoded. -/
  providerStr : Text
  path : Text
  query : Option Text
  /-- With names in lower case. -/
  headers : List (Text × Bytes)
  body : Bytes
  deriving DecidableEq

structure Response where
  status : UInt16
  headers : List (Text × Text)
  body : List Item

/-- The value of a header. -/
def Response.header (r : Response) (name : Text) : Option Text :=
  (r.headers.find? fun h => h.1 = name).map Prod.snd

def itemBytes : Item → Bytes
  | .ok bytes => bytes
  | .error _ => []

/-- The bytes of the body. -/
def Response.bytes (r : Response) : Bytes := r.body.flatMap itemBytes

/-- A response with a text for its body. -/
def textResponse (status : UInt16) (message : Text) : Response :=
  ⟨status, [("content-type", "text/plain; charset=utf-8")], [.ok message.bytes]⟩

/-- `Response::builder`, with its fallback for parts that are not valid. -/
def buildResponse (status : UInt16) (headers : List (Text × Text)) (body : List Item) : Response :=
  if (100 ≤ status.toNat ∧ status.toNat < 1000) ∧
      headers.all (fun h => h.2.bytes.all isHeaderByte) = true then
    ⟨status, headers, body⟩
  else ⟨500, [], []⟩

structure UpstreamRequest where
  method : Text
  url : Text
  headers : List (Text × Text)
  body : Bytes
  deriving DecidableEq

/-- What the upstream answers. A status code has three digits. -/
structure UpstreamResponse where
  status : UInt16
  range : 100 ≤ status.toNat ∧ status.toNat < 1000
  /-- The value of the `content-type` header. -/
  contentType : Option Bytes
  stream : List Item

/-- `StatusCode::is_success`. -/
def isSuccess (status : UInt16) : Bool := 200 ≤ status.toNat && status.toNat < 300

/-! ### Configuration -/

structure ServerConfig where
  crates : KeyCrates
  anthropicUpstream : Option Text
  openaiUpstream : Option Text
  openrouterUpstream : Option Text
  geminiUpstream : Option Text
  extensions : List Extension

namespace ServerConfig

variable (cfg : ServerConfig)

def upstreamFor (p : Provider) : Text :=
  match p with
  | .anthropic => cfg.anthropicUpstream.getD p.defaultUpstream
  | .openAi => cfg.openaiUpstream.getD p.defaultUpstream
  | .openRouter => cfg.openrouterUpstream.getD p.defaultUpstream
  | .gemini => cfg.geminiUpstream.getD p.defaultUpstream

/-! ### Admission -/

/-- A request after the first phase, with its cache key. -/
structure Admitted where
  provider : Provider
  bypass : Bool
  traceId : Option Text
  fullPath : Text
  body : Bytes
  key : Text
  model : Option Text

def fullPath (req : Request) : Text := "/" ++ req.providerStr ++ "/" ++ req.path

def admitted (req : Request) : Except Response Admitted :=
  match Provider.fromPrefix req.providerStr with
  | none => .error (textResponse 404 ("unknown provider: " ++ req.providerStr))
  | some provider =>
      match runPhase1 cfg.extensions ⟨provider, req.method, req.path, none⟩ req.body with
      | .error _ => .error (textResponse 500 "extension error")
      | .ok body =>
          let keyed := cacheKeyAndModel cfg.crates provider req.method (fullPath req) body
          .ok {
            provider := provider
            bypass := headerStr req.headers "x-lcp-bypass" = some ("1" : Text)
            traceId := headerStr req.headers "x-lcp-trace"
            fullPath := fullPath req
            body := body
            key := keyed.1
            model := keyed.2 }

def ctx (req : Request) (a : Admitted) : ProxyCtx :=
  ⟨a.provider, req.method, req.path, some a.key⟩

/-! ### A hit -/

/-- `&key[..12]`, with `none` for the panic of a shorter key. -/
def shortKey (key : Text) : Option Text := (key.splitAt? 12).map Prod.fst

def serveCached (exchange : Exchange) (key : Text) : Option Response :=
  (shortKey key).map fun short =>
    buildResponse exchange.status
      [("content-type", exchange.contentType), ("x-lcp-cache", "HIT"), ("x-lcp-key", short)]
      (exchange.chunks.map fun c => .ok c.data.bytes)

/-- The call that records the trace of a request, if it names one. -/
def traceCalls (a : Admitted) : List Cache.Op :=
  (a.traceId.map fun tid => Cache.Op.recordTrace tid a.key).toList

/-! ### A miss -/

/-- Headers that are not forwarded. -/
def isDropped (name : Text) : Bool :=
  (Text.ofString "x-lcp-").bytes.isPrefixOf name.bytes ||
    (["host", "connection", "transfer-encoding", "accept-encoding", "content-encoding",
      "content-length"] : List Text).contains name

def forwardedHeaders (headers : List (Text × Bytes)) : List (Text × Text) :=
  (headers.filter fun h => !isDropped h.1).filterMap fun h => (toStr h.2).map fun v => (h.1, v)

/-- The upstream URL without the query. -/
def baseUrl (req : Request) (a : Admitted) : Text :=
  (cfg.upstreamFor a.provider).trimEndMatches 0x2F (by decide) ++ "/" ++ req.path

def queryPart (req : Request) : Text :=
  match req.query with
  | some query => "?" ++ query
  | none => .empty

/-- The second phase and the request for the upstream. -/
def forward (req : Request) (a : Admitted) :
    Except Response (UpstreamRequest × List SensitiveState) :=
  let wire :=
    if a.bypass then .ok (a.body, []) else runPhase2 cfg.extensions (ctx req a) a.body
  match wire with
  | .error _ => .error (textResponse 500 "extension error")
  | .ok (body, states) =>
      .ok (⟨req.method, cfg.baseUrl req a ++ queryPart req, forwardedHeaders req.headers, body⟩,
        states)

/-- The stream that is relayed: the third phase does not run on a bypass. -/
def responseStream (req : Request) (a : Admitted) (states : List SensitiveState)
    (u : UpstreamResponse) : List Item :=
  if a.bypass then u.stream else runPhase3 cfg.extensions (ctx req a) states u.stream

/-- What the client does, and the clock. -/
structure Client where
  /-- Whether it is still there when the `i`-th item is sent. -/
  accepts : Nat → Bool
  /-- The milliseconds at which the `i`-th item has arrived. -/
  elapsed : Nat → UInt64
  /-- How many items it leaves in the channel when it goes away. -/
  unread : Nat

/-- What the client receives of the items that were sent. -/
def Client.received (client : Client) (sent : List Item) : List Item :=
  sent.take (sent.length - client.unread)

/-- The outcome of relaying a stream. What was sent has entered the channel. -/
structure Relayed where
  chunksRaw : List (UInt64 × Bytes)
  responseBuf : Bytes
  sent : List Item
  complete : Bool

/-- The loop of the background task, from the `i`-th item on. Chunks are kept
only where the response may be cached. -/
def relay (doCache : Bool) (client : Client) : Nat → List Item → Relayed
  | _, [] => ⟨[], [], [], true⟩
  | i, .ok bytes :: rest =>
      let chunk := if doCache then [(client.elapsed i, bytes)] else []
      let kept := if doCache then bytes else []
      if client.accepts i then
        let r := relay doCache client (i + 1) rest
        ⟨chunk ++ r.chunksRaw, kept ++ r.responseBuf, .ok bytes :: r.sent, r.complete⟩
      else ⟨chunk, kept, [], false⟩
  | i, .error e :: _ => ⟨[], [], if client.accepts i then [.error e] else [], false⟩

/-- Chunks cut again at character boundaries: the bytes of an unfinished
character are carried over to the next chunk. -/
def recut : Bytes → List (UInt64 × Bytes) → List ResponseChunk
  | _, [] => []
  | carry, (offset, raw) :: rest =>
      let buf := carry ++ raw
      match Text.ofUtf8? buf with
      | some data => ⟨offset, data⟩ :: recut [] rest
      | none =>
          ⟨offset, ⟨buf.take (Utf8.validUpTo buf), Utf8.valid_take_validUpTo buf⟩⟩ ::
            recut (buf.drop (Utf8.validUpTo buf)) rest

/-- The value of the content type that is passed on. -/
def contentTypeOf (u : UpstreamResponse) : Text :=
  (u.contentType.bind toStr).getD "application/octet-stream"

def doCache (a : Admitted) (u : UpstreamResponse) : Bool := !a.bypass && isSuccess u.status

/-- The exchange that is stored. -/
def exchangeOf (req : Request) (a : Admitted) (u : UpstreamResponse) (r : Relayed) : Exchange where
  request := ⟨req.method, a.fullPath, .lossy a.body⟩
  status := u.status
  contentType := contentTypeOf u
  chunks := recut [] r.chunksRaw

/-- The calls of the background task after the stream has ended. -/
def writeCalls (req : Request) (a : Admitted) (u : UpstreamResponse) (r : Relayed) :
    List Cache.Op :=
  if r.complete = true ∧ doCache a u = true ∧ Utf8.Valid r.responseBuf ∧ Utf8.Valid a.body then
    .put a.key a.provider.pathPrefix ((a.provider.extractModelFromPath req.path).or a.model)
      (exchangeOf req a u r) :: traceCalls a
  else []

/-- The header that names the key, except on a bypass; `none` is a panic. -/
def keyHeader (a : Admitted) : Option (List (Text × Text)) :=
  if a.bypass then some [] else (shortKey a.key).map fun short => [("x-lcp-key", short)]

/-- The headers of an event stream. -/
def sseHeaders (contentType : Text) : List (Text × Text) :=
  if (Text.find? (Text.ofString "text/event-stream").bytes contentType.bytes).isSome then
    [("cache-control", "no-cache"), ("transfer-encoding", "chunked")]
  else []

def missHeaders (a : Admitted) (u : UpstreamResponse) (key : List (Text × Text)) :
    List (Text × Text) :=
  ("content-type", contentTypeOf u) :: ("x-lcp-cache", if a.bypass then "BYPASS" else "MISS") ::
    (key ++ sseHeaders (contentTypeOf u))

/-- The response to the client, with the items that it receives. -/
def missResponse (a : Admitted) (u : UpstreamResponse) (received : List Item) : Option Response :=
  (keyHeader a).map fun key => buildResponse u.status (missHeaders a u key) received

/-! ### The handler -/

/-- The response as the client receives it, with `none` for a panic, and the
calls to the cache that follow the lookup, in order. -/
structure Handled where
  response : Option Response
  calls : List Cache.Op

def Handled.failed (response : Response) : Handled := ⟨some response, []⟩

/-- A request that was not answered from the cache. -/
def handleMiss (req : Request) (a : Admitted)
    (send : UpstreamRequest → Except Text UpstreamResponse)
    (client : Client) : Handled :=
  match cfg.forward req a with
  | .error response => .failed response
  | .ok (wire, states) =>
      match send wire with
      | .error message => .failed (textResponse 502 message)
      | .ok u =>
          let r := relay (doCache a u) client 0 (cfg.responseStream req a states u)
          ⟨missResponse a u (client.received r.sent), writeCalls req a u r⟩

/-- `handle`, where `found` is what a lookup of the key returns. A lookup that
fails counts as a miss; on a bypass there is none. -/
def handle (req : Request) (found : Text → Except CacheError (Option Exchange))
    (send : UpstreamRequest → Except Text UpstreamResponse) (client : Client) : Handled :=
  match cfg.admitted req with
  | .error response => .failed response
  | .ok a =>
      if a.bypass then cfg.handleMiss req a send client
      else
        match found a.key with
        | .ok (some exchange) => ⟨serveCached exchange a.key, traceCalls a⟩
        | _ => cfg.handleMiss req a send client

end ServerConfig

end LlmCacheProxy
