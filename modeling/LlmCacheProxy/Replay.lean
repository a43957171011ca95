import LlmCacheProxy.CacheRefinement
import LlmCacheProxy.Proxy

/-!
# What a miss stores, a hit replays

A miss is written to the cache exactly when the whole response has been sent to
the client and both bodies are text. The chunks that are stored have other
boundaries than the ones that were sent, but the same bytes. A client that goes
away while the last of them are in the channel has received less.
-/

namespace LlmCacheProxy

open ExpiringStore

namespace ServerConfig

/-! ### Relaying -/

/-- The relay ends well when no item is an error and none is refused. -/
theorem relay_complete_iff (cache : Bool) (client : Client) (i : Nat) (items : List Item) :
    (relay cache client i items).complete = true ↔
      (∀ item ∈ items, ∃ bytes, item = .ok bytes) ∧
        ∀ j < items.length, client.accepts (i + j) = true := by
  induction items generalizing i with
  | nil => simp [relay]
  | cons item rest ih =>
      cases item with
      | error e => simp [relay]
      | ok bytes =>
          have hshift : (∀ j < (Except.ok bytes :: rest : List Item).length,
                client.accepts (i + j) = true) ↔
              client.accepts i = true ∧ ∀ j < rest.length, client.accepts (i + 1 + j) = true := by
            constructor
            · intro h
              refine ⟨h 0 (by simp), fun j hj => ?_⟩
              have := h (j + 1) (by simpa using hj)
              rwa [show i + 1 + j = i + (j + 1) by omega]
            · rintro ⟨h₀, h⟩ j hj
              cases j with
              | zero => exact h₀
              | succ j =>
                  rw [show i + (j + 1) = i + 1 + j by omega]
                  exact h j (by simpa using hj)
          rw [hshift, relay]
          by_cases ha : client.accepts i = true
          · simp [ha, ih]
          · simp [ha]

/-- A relay that ends well has sent everything. -/
theorem relay_sent {cache : Bool} {client : Client} {i : Nat} {items : List Item}
    (h : (relay cache client i items).complete = true) :
    (relay cache client i items).sent = items := by
  induction items generalizing i with
  | nil => rfl
  | cons item rest ih =>
      cases item with
      | error e => simp [relay] at h
      | ok bytes =>
          by_cases ha : client.accepts i = true
          · simp only [relay, ha, if_true] at h ⊢
            rw [ih h]
          · simp [relay, ha] at h

/-- Where chunks are kept, no byte of them is missing at the end. -/
theorem relay_kept {client : Client} {i : Nat} {items : List Item}
    (h : (relay true client i items).complete = true) :
    (relay true client i items).responseBuf = items.flatMap itemBytes ∧
      ((relay true client i items).chunksRaw.map Prod.snd).flatten = items.flatMap itemBytes := by
  induction items generalizing i with
  | nil => simp [relay]
  | cons item rest ih =>
      cases item with
      | error e => simp [relay] at h
      | ok bytes =>
          by_cases ha : client.accepts i = true
          · simp only [relay, ha, if_true] at h ⊢
            obtain ⟨hbuf, hchunks⟩ := ih h
            constructor
            · simp [hbuf, itemBytes]
            · simp [hchunks, itemBytes]
          · simp [relay, ha] at h

/-! ### What the client receives -/

/-- A client that leaves nothing behind receives all that was sent. -/
theorem Client.received_of_read {client : Client} (h : client.unread = 0) (sent : List Item) :
    client.received sent = sent := by
  rw [Client.received, h, Nat.sub_zero, List.take_length]

theorem Client.received_bytes_prefix (client : Client) (sent : List Item) :
    (client.received sent).flatMap itemBytes <+: sent.flatMap itemBytes := by
  refine ⟨(sent.drop (sent.length - client.unread)).flatMap itemBytes, ?_⟩
  rw [Client.received, ← List.flatMap_append, List.take_append_drop]

/-! ### Cutting again -/

/-- Cutting at character boundaries moves bytes between chunks and loses none:
what is carried over is never a whole character, so a valid text ends with
nothing carried. -/
theorem recut_bytes {carry : Bytes} {chunks : List (UInt64 × Bytes)}
    (hcarry : carry = [] ∨ ¬ Utf8.Valid carry)
    (hv : Utf8.Valid (carry ++ (chunks.map Prod.snd).flatten)) :
    (recut carry chunks).flatMap (fun c => c.data.bytes) =
      carry ++ (chunks.map Prod.snd).flatten := by
  induction chunks generalizing carry with
  | nil =>
      rcases hcarry with rfl | hcarry
      · rfl
      · exact absurd (by simpa using hv) hcarry
  | cons chunk rest ih =>
      obtain ⟨offset, raw⟩ := chunk
      rw [List.map_cons, List.flatten_cons, ← List.append_assoc] at hv ⊢
      simp only [recut]
      cases hbuf : Text.ofUtf8? (carry ++ raw) with
      | some data =>
          have hdata : data.bytes = carry ++ raw := Text.ofUtf8?_eq_some.mp hbuf
          have hbufv : Utf8.Valid (carry ++ raw) := hdata ▸ data.valid
          have hrest := ih (Or.inl rfl) (by simpa using hbufv.append_iff.mp hv)
          rw [List.flatMap_cons, hdata, hrest, List.nil_append]
      | none =>
          have hbufv : ¬ Utf8.Valid (carry ++ raw) := Text.ofUtf8?_eq_none.mp hbuf
          set n := Utf8.validUpTo (carry ++ raw)
          have hfront : Utf8.Valid ((carry ++ raw).take n) := Utf8.valid_take_validUpTo _
          have hsplit : (carry ++ raw).take n ++ (carry ++ raw).drop n = carry ++ raw :=
            List.take_append_drop _ _
          have hrest := ih (Or.inr (Utf8.not_valid_drop_validUpTo hbufv)) (by
            rw [← hfront.append_iff, ← List.append_assoc, hsplit]
            exact hv)
          calc
            _ = (carry ++ raw).take n ++
                (recut ((carry ++ raw).drop n) rest).flatMap fun c => c.data.bytes := rfl
            _ = (carry ++ raw).take n ++ ((carry ++ raw).drop n ++
                (rest.map Prod.snd).flatten) := by rw [hrest]
            _ = carry ++ raw ++ (rest.map Prod.snd).flatten := by rw [← List.append_assoc, hsplit]

/-! ### What is written -/

/-- The conditions under which a response is stored. -/
structure Cacheable (a : Admitted) (u : UpstreamResponse) (items : List Item) (client : Client) :
    Prop where
  noBypass : a.bypass = false
  success : isSuccess u.status = true
  ended : ∀ item ∈ items, ∃ bytes, item = .ok bytes
  accepted : ∀ i < items.length, client.accepts i = true
  response : Utf8.Valid (items.flatMap itemBytes)
  request : Utf8.Valid a.body

section Write
variable {req : Request} {a : Admitted} {u : UpstreamResponse} {items : List Item}
variable {client : Client}

theorem cacheable_iff :
    Cacheable a u items client ↔
      (relay (doCache a u) client 0 items).complete = true ∧ doCache a u = true ∧
        Utf8.Valid (relay (doCache a u) client 0 items).responseBuf ∧ Utf8.Valid a.body := by
  constructor
  · intro h
    have hcache : doCache a u = true := by simp [doCache, h.noBypass, h.success]
    have hcomplete : (relay (doCache a u) client 0 items).complete = true :=
      (relay_complete_iff _ _ _ _).mpr ⟨h.ended, fun j hj => by simpa using h.accepted j hj⟩
    refine ⟨hcomplete, hcache, ?_, h.request⟩
    rw [hcache] at hcomplete ⊢
    rw [(relay_kept hcomplete).1]
    exact h.response
  · rintro ⟨hcomplete, hcache, hbuf, hbody⟩
    obtain ⟨hended, haccepted⟩ := (relay_complete_iff _ _ _ _).mp hcomplete
    have hdo : a.bypass = false ∧ isSuccess u.status = true := by simpa [doCache] using hcache
    refine ⟨hdo.1, hdo.2, hended, fun i hi => by simpa using haccepted i hi, ?_, hbody⟩
    rw [hcache] at hcomplete hbuf
    rwa [(relay_kept hcomplete).1] at hbuf

/-- The exchange of a request and its response. -/
def exchangeFor (req : Request) (a : Admitted) (u : UpstreamResponse) (items : List Item)
    (client : Client) : Exchange :=
  exchangeOf req a u (relay (doCache a u) client 0 items)

theorem writeCalls_of_cacheable (h : Cacheable a u items client) :
    writeCalls req a u (relay (doCache a u) client 0 items) =
      .put a.key a.provider.pathPrefix ((a.provider.extractModelFromPath req.path).or a.model)
        (exchangeFor req a u items client) :: traceCalls a :=
  if_pos (cacheable_iff.mp h)

theorem writeCalls_of_not_cacheable (h : ¬ Cacheable a u items client) :
    writeCalls req a u (relay (doCache a u) client 0 items) = [] :=
  if_neg fun hw => h (cacheable_iff.mpr hw)

/-- The stored chunks hold the bytes of the response. -/
theorem exchangeFor_bytes (h : Cacheable a u items client) :
    (exchangeFor req a u items client).chunks.flatMap (fun c => c.data.bytes) =
      items.flatMap itemBytes := by
  obtain ⟨hcomplete, hcache, -, -⟩ := cacheable_iff.mp h
  rw [hcache] at hcomplete
  have hchunks := (relay_kept hcomplete).2
  have hv : Utf8.Valid ([] ++ ((relay true client 0 items).chunksRaw.map Prod.snd).flatten) := by
    rw [List.nil_append, hchunks]
    exact h.response
  calc
    (exchangeFor req a u items client).chunks.flatMap (fun c => c.data.bytes) =
        (recut [] (relay true client 0 items).chunksRaw).flatMap fun c => c.data.bytes := by
      rw [exchangeFor, exchangeOf, hcache]
    _ = ((relay true client 0 items).chunksRaw.map Prod.snd).flatten :=
      recut_bytes (Or.inl rfl) hv
    _ = items.flatMap itemBytes := hchunks

/-- The stored request has the body that was hashed. -/
theorem exchangeFor_request (h : Cacheable a u items client) :
    (exchangeFor req a u items client).request.body.bytes = a.body :=
  Utf8.lossy_of_valid h.request

end Write

/-! ### Responses -/

theorem buildResponse_of_valid {status : UInt16} {headers : List (Text × Text)} {body : List Item}
    (hs : 100 ≤ status.toNat ∧ status.toNat < 1000)
    (hh : ∀ h ∈ headers, h.2.bytes.all isHeaderByte = true) :
    buildResponse status headers body = ⟨status, headers, body⟩ :=
  if_pos ⟨hs, List.all_eq_true.mpr hh⟩

private theorem isHeaderByte_of_visible {b : UInt8} (h : isVisibleAscii b = true) :
    isHeaderByte b = true := by
  simp only [isVisibleAscii, isHeaderByte, Bool.or_eq_true, Bool.and_eq_true,
    decide_eq_true_eq] at h ⊢
  rcases h with ⟨hlow, hhigh⟩ | hb
  · have hne : b ≠ 0x7F := by
      rintro rfl
      exact absurd hhigh (by decide)
    exact Or.inl ⟨hlow, hne⟩
  · exact Or.inr hb

/-- The content type that is passed on can be a header again. -/
theorem contentTypeOf_valid (u : UpstreamResponse) :
    (contentTypeOf u).bytes.all isHeaderByte = true := by
  rw [contentTypeOf]
  cases h : u.contentType.bind toStr with
  | none => decide
  | some t =>
      obtain ⟨value, -, hvalue⟩ := Option.bind_eq_some_iff.mp h
      rw [toStr] at hvalue
      split at hvalue
      · rename_i hall
        obtain rfl := Option.some.inj hvalue
        apply List.all_eq_true.mpr
        intro b hb
        exact isHeaderByte_of_visible (List.all_eq_true.mp hall b hb)
      · cases hvalue

/-- The key of an admitted request is long enough to be cut, and what is cut
off can be a header. -/
theorem shortKey_toHex (d : Digest) :
    ∃ short, shortKey d.toHex = some short ∧ short.bytes.all isHeaderByte = true := by
  have hlen : 12 ≤ 2 * d.bytes.length := by
    rw [d.size]
    decide
  obtain ⟨l, r, hcut⟩ := Text.splitAt?_hex hlen
  refine ⟨l, by simp [shortKey, Digest.toHex, hcut], ?_⟩
  obtain ⟨-, hl, -⟩ := Text.splitAt?_eq_some hcut
  apply List.all_eq_true.mpr
  intro b hb
  rw [hl] at hb
  obtain ⟨hlow, hhigh⟩ := Text.mem_hex (List.mem_of_mem_take hb)
  have hne : b ≠ 0x7F := by
    rintro rfl
    exact absurd hhigh (by decide)
  simp only [isHeaderByte, Bool.or_eq_true, Bool.and_eq_true, decide_eq_true_eq]
  exact Or.inl ⟨by omega, hne⟩

section Responses
variable {req : Request} {a : Admitted} {u : UpstreamResponse} {items : List Item}
variable {client : Client}

/-- The response of a miss of which the client receives some items. -/
theorem missResponse_spec (hkey : ∃ d : Digest, a.key = d.toHex) (received : List Item) :
    ∃ first, missResponse a u received = some first ∧ first.status = u.status ∧
      first.header "content-type" = some (contentTypeOf u) ∧ first.body = received := by
  obtain ⟨d, hd⟩ := hkey
  obtain ⟨short, hshort, hvalid⟩ := shortKey_toHex d
  obtain ⟨key, hkey, hheader⟩ : ∃ key, keyHeader a = some key ∧
      ∀ h ∈ key, h.2.bytes.all isHeaderByte = true := by
    by_cases hb : a.bypass = true
    · exact ⟨[], by simp [keyHeader, hb], by simp⟩
    · refine ⟨[("x-lcp-key", short)], by simp [keyHeader, hb, hd, hshort], ?_⟩
      intro h hh
      rw [List.mem_singleton.mp hh]
      exact hvalid
  have hsse : ∀ h ∈ sseHeaders (contentTypeOf u), h.2.bytes.all isHeaderByte = true := by
    intro h hh
    rw [sseHeaders] at hh
    split at hh
    · rcases List.mem_pair.mp hh with rfl | rfl <;> decide
    · cases hh
  have hheaders : ∀ h ∈ missHeaders a u key, h.2.bytes.all isHeaderByte = true := by
    intro h hh
    rcases List.mem_cons.mp hh with rfl | hh
    · exact contentTypeOf_valid u
    rcases List.mem_cons.mp hh with rfl | hh
    · cases a.bypass <;> decide
    rcases List.mem_append.mp hh with hh | hh
    · exact hheader h hh
    · exact hsse h hh
  refine ⟨⟨u.status, missHeaders a u key, received⟩, ?_, rfl, ?_, rfl⟩
  · rw [missResponse, hkey, Option.map_some, buildResponse_of_valid u.range hheaders]
  · simp [Response.header, missHeaders]

/-- A hit on a stored response. -/
theorem serveCached_spec (hkey : ∃ d : Digest, a.key = d.toHex)
    (h : Cacheable a u items client) :
    ∃ hit, serveCached (exchangeFor req a u items client) a.key = some hit ∧
      hit.status = u.status ∧ hit.header "content-type" = some (contentTypeOf u) ∧
      hit.header "x-lcp-cache" = some ("HIT" : Text) ∧ hit.bytes = items.flatMap itemBytes := by
  obtain ⟨d, hd⟩ := hkey
  obtain ⟨short, hshort, hvalid⟩ := shortKey_toHex d
  have hheaders : ∀ h ∈ ([("content-type", contentTypeOf u), ("x-lcp-cache", "HIT"),
      ("x-lcp-key", short)] : List (Text × Text)), h.2.bytes.all isHeaderByte = true := by
    intro h hh
    rcases List.mem_cons.mp hh with rfl | hh
    · exact contentTypeOf_valid u
    · rcases List.mem_pair.mp hh with rfl | rfl
      · decide
      · exact hvalid
  have hname : Text.ofString "content-type" ≠ Text.ofString "x-lcp-cache" := by decide
  refine ⟨⟨u.status, [("content-type", contentTypeOf u), ("x-lcp-cache", "HIT"),
    ("x-lcp-key", short)], (exchangeFor req a u items client).chunks.map fun c => .ok c.data.bytes⟩,
    ?_, rfl, ?_, ?_, ?_⟩
  · rw [serveCached, hd, hshort, Option.map_some]
    exact congrArg some (buildResponse_of_valid u.range hheaders)
  · simp [Response.header]
  · simp [Response.header, hname]
  · have hbytes : (exchangeFor req a u items client).chunks.flatMap (fun c => c.data.bytes) = _ :=
      exchangeFor_bytes h
    rw [← hbytes, Response.bytes, List.flatMap_map]
    rfl

end Responses

/-! ### The handler -/

variable {cfg : ServerConfig} {req : Request} {a : Admitted}

theorem admitted_spec (h : cfg.admitted req = .ok a) :
    Provider.fromPrefix req.providerStr = some a.provider ∧
      runPhase1 cfg.extensions ⟨a.provider, req.method, req.path, none⟩ req.body = .ok a.body ∧
      a.fullPath = fullPath req ∧
      a.key = cacheKey cfg.crates a.provider req.method (fullPath req) a.body := by
  rw [admitted] at h
  split at h
  · cases h
  · rename_i provider hp
    split at h
    · cases h
    · rename_i body hbody
      obtain rfl := Except.ok.inj h
      exact ⟨hp, hbody, rfl, rfl⟩

/-- A key is a digest in hexadecimal. -/
theorem admitted_key (h : cfg.admitted req = .ok a) : ∃ d : Digest, a.key = d.toHex :=
  ⟨_, (admitted_spec h).2.2.2⟩

/-- The response `u` of the upstream is relayed as `items`. -/
def Relays (cfg : ServerConfig) (req : Request)
    (send : UpstreamRequest → Except Text UpstreamResponse) (a : Admitted) (u : UpstreamResponse)
    (items : List Item) : Prop :=
  ∃ wire states, cfg.admitted req = .ok a ∧ cfg.forward req a = .ok (wire, states) ∧
    send wire = .ok u ∧ items = cfg.responseStream req a states u

/-- The request is not answered from the cache. -/
def Missed (cfg : ServerConfig) (req : Request)
    (found : Text → Except CacheError (Option Exchange)) : Prop :=
  ∀ a, cfg.admitted req = .ok a → a.bypass = false → ∀ e, found a.key ≠ .ok (some e)

theorem missed_of_empty (cfg : ServerConfig) (req : Request) :
    cfg.Missed req fun _ => .ok none := by
  intro _ _ _ _ h
  cases h

theorem missed_of_admitted {cfg : ServerConfig} {req : Request} {a : Admitted}
    {found : Text → Except CacheError (Option Exchange)} (ha : cfg.admitted req = .ok a)
    (hfound : a.bypass = false → ∀ e, found a.key ≠ .ok (some e)) : cfg.Missed req found := by
  intro a' ha'
  obtain rfl := Except.ok.inj (ha.symm.trans ha')
  exact hfound

section Handle
variable {found : Text → Except CacheError (Option Exchange)}
variable {send : UpstreamRequest → Except Text UpstreamResponse} {client : Client}

theorem handle_of_missed (hmiss : cfg.Missed req found) (ha : cfg.admitted req = .ok a) :
    cfg.handle req found send client = cfg.handleMiss req a send client := by
  simp only [handle, ha]
  by_cases hb : a.bypass = true
  · rw [if_pos hb]
  · rw [if_neg hb]
    split
    · rename_i e he
      exact absurd he (hmiss a ha (by simpa using hb) e)
    · rfl

theorem handle_relays (hmiss : cfg.Missed req found) {u : UpstreamResponse} {items : List Item}
    (h : cfg.Relays req send a u items) :
    cfg.handle req found send client =
      ⟨missResponse a u (client.received (relay (doCache a u) client 0 items).sent),
        writeCalls req a u (relay (doCache a u) client 0 items)⟩ := by
  obtain ⟨wire, states, ha, hf, hu, rfl⟩ := h
  rw [handle_of_missed hmiss ha]
  simp only [handleMiss, hf, hu]

/-- Without a response of the upstream nothing is written. -/
theorem handle_unanswered (hmiss : cfg.Missed req found)
    (h : ∀ a u items, ¬ cfg.Relays req send a u items) :
    (cfg.handle req found send client).calls = [] := by
  cases ha : cfg.admitted req with
  | error response => simp [handle, ha, Handled.failed]
  | ok a =>
      rw [handle_of_missed hmiss ha]
      cases hf : cfg.forward req a with
      | error response => simp [handleMiss, hf, Handled.failed]
      | ok p =>
          obtain ⟨wire, states⟩ := p
          cases hu : send wire with
          | error message => simp [handleMiss, hf, hu, Handled.failed]
          | ok u => exact absurd ⟨wire, states, ha, hf, hu, rfl⟩ (h a u _)

/-- A lookup that is answered gives the stored exchange to the client. -/
theorem handle_of_found (ha : cfg.admitted req = .ok a) (hb : a.bypass = false) {e : Exchange}
    (hfound : found a.key = .ok (some e)) :
    cfg.handle req found send client = ⟨serveCached e a.key, traceCalls a⟩ := by
  simp only [handle, ha, hb, hfound]
  rfl

end Handle

/-! ### Miss, then hit -/

/-- The second response comes from the cache and repeats the first, which the
client may not have read to its end. -/
def Replays (client : Client) (first : Response) (second : Option Response) : Prop :=
  ∃ hit, second = some hit ∧ hit.header "x-lcp-cache" = some ("HIT" : Text) ∧
    hit.status = first.status ∧ hit.header "content-type" = first.header "content-type" ∧
    first.bytes <+: hit.bytes ∧ (client.unread = 0 → hit.bytes = first.bytes)

/-- After a call that stores an entry for `key`, whatever came before it, and
as long as the entry is not cleared, replaced or expired, every request with
that key gets the response again that `reader` was sent first. -/
def ReplaysLater (cfg : ServerConfig) (c : Cache) (key : Text) (store : Cache.Op)
    (reader : Client) (first : Response) : Prop :=
  ∀ (earlier later : List (Int × Cache.Op)) (t now : Int),
    (∀ call ∈ later, Keeps key call.2.event) → c.fresh t now = true →
    ∀ (req : Request) (a : Admitted) (send : UpstreamRequest → Except Text UpstreamResponse)
      (client : Client), cfg.admitted req = .ok a → a.bypass = false → a.key = key →
      let db := c.after (later ++ (t, store) :: earlier)
      Replays reader first (cfg.handle req (fun k => (c.get now k db).1) send client).response

theorem replays_of_cacheable {c : Cache} (hc : RoundTrips c.crates)
    {found : Text → Except CacheError (Option Exchange)} (hmiss : cfg.Missed req found)
    {send : UpstreamRequest → Except Text UpstreamResponse} {client : Client}
    {u : UpstreamResponse} {items : List Item} (hu : cfg.Relays req send a u items)
    (h : Cacheable a u items client) :
    ∃ first provider model e,
      cfg.handle req found send client =
        ⟨some first, .put a.key provider model e :: traceCalls a⟩ ∧
      cfg.ReplaysLater c a.key (.put a.key provider model e) client first := by
  have hkey : ∃ d : Digest, a.key = d.toHex := by
    obtain ⟨_, _, ha, _⟩ := hu
    exact admitted_key ha
  obtain ⟨first, hfirst, hstatus, hct, hbody⟩ :=
    missResponse_spec (u := u) hkey (client.received (relay (doCache a u) client 0 items).sent)
  rw [relay_sent (cacheable_iff.mp h).1] at hbody
  obtain ⟨hit, hhit, hstatus', hct', hcache', hbytes'⟩ :
      ∃ hit, serveCached (exchangeFor req a u items client) a.key = some hit ∧ _ :=
    serveCached_spec hkey h
  refine ⟨first, a.provider.pathPrefix, (a.provider.extractModelFromPath req.path).or a.model,
    exchangeFor req a u items client, ?_, ?_⟩
  · rw [handle_relays hmiss hu, writeCalls_of_cacheable h, hfirst]
  · intro earlier later t now hlater hfresh req' a' send' client' ha' hb' hkey' db
    have hfound : (c.get now a.key db).1 = .ok (some (exchangeFor req a u items client)) :=
      Cache.get_after_put hc hlater hfresh
    rw [handle_of_found ha' hb' (by rw [hkey']; exact hfound), hkey']
    refine ⟨hit, hhit, hcache', hstatus'.trans hstatus.symm, hct'.trans hct.symm,
      ?_, fun hread => ?_⟩
    · rw [hbytes', Response.bytes, hbody]
      exact client.received_bytes_prefix items
    · rw [hbytes', Response.bytes, hbody, Client.received_of_read hread]

/-- A response is stored exactly when it may be, a later hit repeats it, and in
every other case nothing is written. What a client that went away has received
is a beginning of what is repeated. -/
theorem miss_then_hit {c : Cache} (hc : RoundTrips c.crates) (cfg : ServerConfig) (req : Request)
    (found : Text → Except CacheError (Option Exchange)) (hmiss : cfg.Missed req found)
    (send : UpstreamRequest → Except Text UpstreamResponse) (client : Client) :
    ((∃ k provider model e, Cache.Op.put k provider model e ∈
        (cfg.handle req found send client).calls) ↔
      ∃ a u items, cfg.Relays req send a u items ∧ Cacheable a u items client) ∧
    (∀ a u items, cfg.Relays req send a u items → Cacheable a u items client →
      ∃ first provider model e,
        cfg.handle req found send client =
          ⟨some first, .put a.key provider model e :: traceCalls a⟩ ∧
        cfg.ReplaysLater c a.key (.put a.key provider model e) client first) ∧
    ((¬ ∃ a u items, cfg.Relays req send a u items ∧ Cacheable a u items client) →
      (cfg.handle req found send client).calls = [] ∧
      ∀ (hist : List (Int × Cache.Op)) (now : Int) (k : Text),
        (∀ e, (c.get now k (c.after hist)).1 ≠ .ok (some e)) →
        (c.get now k (c.after hist)).2.entries = (c.after hist).entries ∧
          (c.get now k (c.after hist)).2.traceEntries = (c.after hist).traceEntries) := by
  have hnone : (¬ ∃ a u items, cfg.Relays req send a u items ∧ Cacheable a u items client) →
      (cfg.handle req found send client).calls = [] := by
    intro hno
    by_cases hrelays : ∃ a u items, cfg.Relays req send a u items
    · obtain ⟨a, u, items, hu⟩ := hrelays
      rw [handle_relays hmiss hu]
      exact writeCalls_of_not_cacheable fun h => hno ⟨a, u, items, hu, h⟩
    · exact handle_unanswered hmiss fun a u items hu => hrelays ⟨a, u, items, hu⟩
  refine ⟨⟨?_, ?_⟩, ?_, ?_⟩
  · rintro ⟨k, provider, model, e, hput⟩
    by_contra hno
    rw [hnone hno] at hput
    cases hput
  · rintro ⟨a, u, items, hu, h⟩
    obtain ⟨first, provider, model, e, hhandle, -⟩ := replays_of_cacheable hc hmiss hu h
    exact ⟨a.key, provider, model, e, by simp [hhandle]⟩
  · intro a u items hu h
    exact replays_of_cacheable hc hmiss hu h
  · intro hno
    exact ⟨hnone hno, fun hist now k hk => Cache.get_miss_unchanged hc hist hk⟩

/-! ### A sample -/

/-- A digest that keeps the front of what is hashed. -/
def sampleBlake3 (input : Bytes) : Digest :=
  ⟨(input ++ List.replicate 32 0).take 32, by simp⟩

/-- The upstreams of the providers, and no extension. -/
def sampleConfig : ServerConfig :=
  ⟨⟨sampleSerde, sampleBlake3⟩, none, none, none, none, []⟩

/-- A page of a list of files. -/
def filesRequest (query : Text) : Request :=
  ⟨"GET", "gemini", "v1beta/files", some query, [], []⟩

def filesAdmitted : Admitted :=
  ⟨.gemini, false, none, "/gemini/v1beta/files", [],
    cacheKey sampleConfig.crates .gemini "GET" "/gemini/v1beta/files" [], none⟩

theorem admitted_filesRequest (query : Text) :
    sampleConfig.admitted (filesRequest query) = .ok filesAdmitted := rfl

/-- A list whose only character `é` is cut in the middle. -/
def cutResponse : UpstreamResponse where
  status := 200
  range := by decide
  contentType := some (Text.ofString "application/json").bytes
  stream := [.ok [0x5B, 0x22, 0xC3], .ok [0xA9, 0x22, 0x5D]]

/-- A client that takes every chunk at once. -/
def eagerClient : Client := ⟨fun _ => true, fun _ => 0, 0⟩

/-- A client that goes away with the last chunk in the channel. -/
def hastyClient : Client := { eagerClient with unread := 1 }

theorem files_relays (query : Text) :
    sampleConfig.Relays (filesRequest query) (fun _ => .ok cutResponse) filesAdmitted
      cutResponse cutResponse.stream :=
  ⟨_, [], admitted_filesRequest query, rfl, rfl, rfl⟩

theorem cutResponse_cacheable {a : Admitted} (hb : a.bypass = false) (hbody : Utf8.Valid a.body) :
    Cacheable a cutResponse cutResponse.stream eagerClient where
  noBypass := hb
  success := by decide
  ended := by simp [cutResponse]
  accepted _ _ := rfl
  response := by decide
  request := hbody

theorem miss_then_hit_files : ∃ first provider model e,
    sampleConfig.handle (filesRequest "pageToken=a") (fun _ => .ok none)
        (fun _ => .ok cutResponse) eagerClient =
      ⟨some first, [.put filesAdmitted.key provider model e]⟩ ∧
    sampleConfig.ReplaysLater ⟨Cache.sampleCrates, 0⟩ filesAdmitted.key
      (.put filesAdmitted.key provider model e) eagerClient first := by
  have hmiss := missed_of_empty sampleConfig (filesRequest "pageToken=a")
  exact (miss_then_hit (c := ⟨Cache.sampleCrates, 0⟩) Cache.sampleCrates_roundTrips sampleConfig _
    _ hmiss _ eagerClient).2.1 filesAdmitted cutResponse _ (files_relays "pageToken=a")
      (cutResponse_cacheable rfl (by decide))

end ServerConfig

end LlmCacheProxy
