import LlmCacheProxy.Foundation.UriComponent
import LlmCacheProxy.Sse.Reader
import LlmCacheProxy.Wrapping

/-!
# The extension that swaps secrets

Before a miss goes upstream the secrets in its body are swapped for fakes; what
is needed to swap them back is handed to the third phase as text. There the
response is wrapped in the restoring stream. So only fakes leave the proxy, and
the client and the cache get the secrets back.
-/

namespace Utf8

/-- How many bytes of an invalid sequence can be told to be wrong; `none` where
only more bytes could tell. -/
def errorLen (σ : State) (n : Nat) : Bytes → Option Nat
  | [] => none
  | b :: bs =>
      match step σ b with
      | some σ' => errorLen σ' (n + 1) bs
      | none => some (max n 1)

/-- `Display` of a UTF-8 error. -/
def errorText (bs : Bytes) : Text :=
  let start := validUpTo bs
  match errorLen .boundary 0 (bs.drop start) with
  | some n => .ofString ("invalid utf-8 sequence of " ++ toString n ++ " bytes from index " ++
      toString start)
  | none => .ofString ("incomplete utf-8 byte sequence from index " ++ toString start)

end Utf8

namespace LlmCacheProxy

namespace Sse

/-- `Display` of an error item. -/
def IoError.text : IoError → Text
  | .inner message => message
  | .restore message => message
  | .nonUtf8 output => "restore produced non-UTF8: " ++ Utf8.errorText output

/-! ### The restoring stream over a whole stream -/

def polled : Item → Polled
  | .ok bytes => .chunk bytes
  | .error message => .failed message

/-- The items of `SseRestoreStream` over a stream. -/
def restoredStream (ctx : SseCtx) (stream : List Item) : List Item :=
  (readOut ctx (.detecting (stream.map polled))).map (Except.mapError IoError.text)

/-- An error of the stream is not swallowed. -/
theorem restoredStream_failed {ctx : SseCtx} {stream : List Item} {message : Text}
    (h : .error message ∈ stream) : ∃ e, .error e ∈ restoredStream ctx stream := by
  obtain ⟨chunks, err, hout, hnone, -⟩ := exists_readOut ctx (stream.map polled)
  cases err with
  | none =>
      exact absurd (List.mem_map.mpr ⟨_, h, rfl⟩) ((hnone rfl).1 message)
  | some e =>
      refine ⟨e.text, ?_⟩
      rw [restoredStream, hout]
      exact List.mem_map.mpr ⟨.error e, by simp [endingIn], rfl⟩

theorem scriptBytes_polled {stream : List Item} (h : ∀ item ∈ stream, ∃ bytes, item = .ok bytes) :
    ErrorFree (stream.map polled) ∧ scriptBytes (stream.map polled) = stream.flatMap itemBytes := by
  induction stream with
  | nil => exact ⟨by simp [ErrorFree], rfl⟩
  | cons item stream ih =>
      obtain ⟨bytes, rfl⟩ := h _ (List.mem_cons_self ..)
      obtain ⟨herr, hbytes⟩ := ih fun item hitem => h item (List.mem_cons_of_mem _ hitem)
      refine ⟨fun message hm => ?_, ?_⟩
      · rcases List.mem_cons.mp hm with heq | hm
        · cases heq
        · exact herr message hm
      · simpa [scriptBytes, polled, itemBytes] using hbytes

end Sse

open Sse

/-! ### State -/

namespace SensitiveState

/-- `SensitiveStateBuilder::new`, sealed. -/
def empty : SensitiveState := ⟨fun _ => none⟩

def set (s : SensitiveState) (key value : Text) : SensitiveState :=
  ⟨fun k => if k = key then some value else s.get k⟩

@[simp] theorem get_empty (key : Text) : empty.get key = none := rfl

@[simp] theorem get_set (s : SensitiveState) (key value k : Text) :
    (s.set key value).get k = if k = key then some value else s.get k := rfl

end SensitiveState

/-! ### The extension -/

/-- A session key has 32 bytes. -/
def SessionKey : Type := { bs : Bytes // bs.length = 32 }

/-- What `Detector::swap` returns. -/
structure SwapResult (σ : Type) where
  payload : Bytes
  entries : List σ
  sessionKey : SessionKey

/-- The functions of `doppel` and `hex` that the extension calls. An entry keeps
its secret sealed under the session key. -/
structure DoppelCrates (σ : Type) where
  serializeEntries : List σ → Except Text Bytes
  deserializeEntries : Bytes → Except Text (List σ)
  reveal : SessionKey → σ → Entry
  sse : SessionKey → Crates
  /-- `hex::decode`. -/
  decodeHex : Text → Except Text Bytes

structure DoppelExt (σ : Type) extends DoppelCrates σ where
  /-- `Detector::swap`. -/
  swap : Bytes → Except Text (SwapResult σ)

namespace DoppelExt

variable {σ : Type} (d : DoppelExt σ)

/-- A body without secrets passes through with an empty state. -/
def onUpstreamBody (_ctx : ProxyCtx) (body : Bytes) : Except Text (Bytes × SensitiveState) := do
  let result ← d.swap body
  if result.entries.isEmpty then .ok (body, .empty)
  else
    let entriesJson ← d.serializeEntries result.entries
    match Text.ofUtf8? entriesJson with
    | none => .error ("entries JSON is not UTF-8: " ++ Utf8.errorText entriesJson)
    | some entriesStr =>
        .ok (result.payload, (SensitiveState.empty.set "entries" entriesStr).set "session_key"
          (.hex result.sessionKey.val))

/-- A stream that yields one error. -/
def errorStream (msg : Text) : List Item := [.error msg]

def decodeKey (hex : Text) : Except Text SessionKey := do
  let bytes ← d.decodeHex hex
  if h : bytes.length = 32 then .ok ⟨bytes, h⟩ else .error "expected 32 bytes"

/-- The context of the restoring stream. -/
def sseCtx (provider : Provider) (key : SessionKey) (entries : List σ) : SseCtx :=
  ⟨d.sse key, entries.map (d.reveal key), provider⟩

def onResponseStream (ctx : ProxyCtx) (state : SensitiveState) (stream : List Item) : List Item :=
  match state.get "entries" with
  | none => stream
  | some entriesJson =>
      match state.get "session_key" with
      | none => errorStream "SensitiveState has entries but no session_key"
      | some keyHex =>
          match d.deserializeEntries entriesJson.bytes with
          | .error e => errorStream ("entries deserialization failed: " ++ e)
          | .ok entries =>
              match d.decodeKey keyHex with
              | .error e => errorStream ("session key decode failed: " ++ e)
              | .ok key => restoredStream (d.sseCtx ctx.provider key entries) stream

def extension : Extension where
  onRequestBody _ body := .ok body
  onUpstreamBody := d.onUpstreamBody
  onResponseStream := d.onResponseStream

/-! ### Handing over -/

/-- What the second phase writes down can be read back. -/
structure HandsOver : Prop where
  entries : ∀ es json, d.serializeEntries es = .ok json → d.deserializeEntries json = .ok es
  key : ∀ bs, d.decodeHex (.hex bs) = .ok bs

variable {d}

/-- What the second phase leaves for the third. -/
theorem onUpstreamBody_cases {ctx : ProxyCtx} {body wire : Bytes} {state : SensitiveState}
    (h : d.onUpstreamBody ctx body = .ok (wire, state)) :
    ∃ r, d.swap body = .ok r ∧
      (r.entries = [] ∧ wire = body ∧ state = .empty ∨
        r.entries ≠ [] ∧ wire = r.payload ∧ ∃ json : Text,
          d.serializeEntries r.entries = .ok json.bytes ∧
            state = (SensitiveState.empty.set "entries" json).set "session_key"
              (.hex r.sessionKey.val)) := by
  unfold onUpstreamBody at h
  cases hswap : d.swap body with
  | error message => simp [hswap, bind, Except.bind] at h
  | ok r =>
      refine ⟨r, rfl, ?_⟩
      simp only [hswap, bind, Except.bind] at h
      split at h
      · rename_i hempty
        obtain ⟨rfl, rfl⟩ := Prod.mk.inj (Except.ok.inj h)
        exact .inl ⟨List.isEmpty_iff.mp hempty, rfl, rfl⟩
      · rename_i hentries
        split at h
        · cases h
        · rename_i json hjson
          split at h
          · cases h
          · rename_i entriesStr htext
            obtain ⟨rfl, rfl⟩ := Prod.mk.inj (Except.ok.inj h)
            refine .inr ⟨fun hnil => hentries (by simp [hnil]), rfl, entriesStr, ?_, rfl⟩
            rw [Text.ofUtf8?_eq_some.mp htext]
            exact hjson

/-- The third phase restores with the key and the entries of the second. -/
theorem HandsOver.onResponseStream (hd : d.HandsOver) {entries : List σ} {json : Text}
    (hjson : d.serializeEntries entries = .ok json.bytes) (key : SessionKey) (ctx : ProxyCtx)
    (stream : List Item) :
    d.onResponseStream ctx ((SensitiveState.empty.set "entries" json).set "session_key"
        (.hex key.val)) stream =
      restoredStream (d.sseCtx ctx.provider key entries) stream := by
  have hname : Text.ofString "entries" ≠ Text.ofString "session_key" := by decide
  have hkey : d.decodeKey (.hex key.val) = .ok key := by
    rw [decodeKey, hd.key]
    exact dif_pos key.property
  simp only [DoppelExt.onResponseStream, SensitiveState.get_set, hname, if_true, if_false,
    hd.entries _ _ hjson, hkey]

/-! ### The guarded upstream -/

/-- An upstream that is sent fakes and whose response is restored. -/
def guarded (d : DoppelExt σ) (provider : Provider)
    (send : UpstreamRequest → Except Text UpstreamResponse) (wire : UpstreamRequest) :
    Except Text UpstreamResponse :=
  match d.swap wire.body with
  | .error message => .error message
  | .ok r =>
      if r.entries = [] then send wire
      else
        (send { wire with body := r.payload }).map fun u =>
          { u with stream := restoredStream (d.sseCtx provider r.sessionKey r.entries) u.stream }

end DoppelExt

namespace ServerConfig

variable {σ : Type} {d : DoppelExt σ} {cfg : ServerConfig} {req : Request} {a : Admitted}

theorem runPhase2_extension (hcfg : cfg.extensions = [d.extension])
    (ctx : ProxyCtx) (body : Bytes) :
    runPhase2 cfg.extensions ctx body =
      (d.onUpstreamBody ctx body).map fun p => (p.1, [p.2]) := by
  rw [hcfg, runPhase2_cons]
  cases h : d.onUpstreamBody ctx body with
  | error message => simp [DoppelExt.extension, h, Except.bind, Except.map]
  | ok p => simp [DoppelExt.extension, h, Except.bind, Except.map]

/-- The first phase does nothing. -/
theorem body_of_admitted (hcfg : cfg.extensions = [d.extension]) (ha : cfg.admitted req = .ok a) :
    a.body = req.body := by
  have hphase := (admitted_spec ha).2.1
  rw [hcfg] at hphase
  exact (Except.ok.inj hphase).symm

/-- Where the second phase succeeds, the wrapped upstream is the guarded one. -/
theorem wrapped_eq_guarded (hd : d.HandsOver) (hcfg : cfg.extensions = [d.extension])
    (hb : a.bypass = false) {wire : UpstreamRequest} {p : Bytes × SensitiveState}
    (hphase : d.onUpstreamBody (ctx req a) wire.body = .ok p)
    (send : UpstreamRequest → Except Text UpstreamResponse) :
    cfg.wrapped req a send wire = d.guarded a.provider send wire := by
  obtain ⟨body, state⟩ := p
  have hrun : runPhase2 cfg.extensions (ctx req a) wire.body = .ok (body, [state]) := by
    rw [runPhase2_extension hcfg, hphase]
    rfl
  have hstream (u : UpstreamResponse) : cfg.rewritten req a [state] u =
      { u with stream := d.onResponseStream (ctx req a) state u.stream } := by
    simp only [rewritten, responseStream, hb, hcfg]
    rfl
  obtain ⟨r, hswap, hcases⟩ := DoppelExt.onUpstreamBody_cases hphase
  simp only [wrapped, hb, hrun, DoppelExt.guarded, hswap]
  rcases hcases with ⟨hentries, rfl, rfl⟩ | ⟨hentries, rfl, json, hjson, rfl⟩
  · have hid : cfg.rewritten req a [.empty] = id := funext fun u => hstream u
    rw [if_pos hentries, hid]
    cases send wire with
    | error message => rfl
    | ok u => rfl
  · have hrestored : cfg.rewritten req a [(SensitiveState.empty.set "entries" json).set
        "session_key" (.hex r.sessionKey.val)] = fun u =>
          { u with
            stream := restoredStream (d.sseCtx a.provider r.sessionKey r.entries) u.stream } := by
      funext u
      rw [hstream, hd.onResponseStream hjson]
      rfl
    rw [if_neg hentries, hrestored]
    rfl

theorem refused_iff (hcfg : cfg.extensions = [d.extension]) (ha : cfg.admitted req = .ok a) :
    cfg.Refused req a ↔
      a.bypass = false ∧ ∃ message, d.onUpstreamBody (ctx req a) req.body = .error message := by
  rw [Refused, runPhase2_extension hcfg, body_of_admitted hcfg ha]
  cases d.onUpstreamBody (ctx req a) req.body <;> simp [Except.map]

/-- What a request that is not bypassed gets to see of the upstream. -/
def throughDoppel (d : DoppelExt σ) (a : Admitted)
    (send : UpstreamRequest → Except Text UpstreamResponse) :
    UpstreamRequest → Except Text UpstreamResponse :=
  if a.bypass then send else d.guarded a.provider send

theorem handleMiss_guarded (hd : d.HandsOver) (hcfg : cfg.extensions = [d.extension])
    (ha : cfg.admitted req = .ok a) (hrefused : ¬cfg.Refused req a)
    (send : UpstreamRequest → Except Text UpstreamResponse) (client : Client) :
    cfg.handleMiss req a send client =
      cfg.plain.handleMiss req a (throughDoppel d a send) client := by
  have hplain (send : UpstreamRequest → Except Text UpstreamResponse) :
      cfg.plain.handleMiss req a send client =
        ended req a client (send (cfg.wire req a a.body)) :=
    handleMiss_plain cfg req a req.body send client
  have hwrapped : cfg.wrapped req a send (cfg.wire req a a.body) =
      throughDoppel d a send (cfg.wire req a a.body) := by
    rw [throughDoppel]
    cases hb : a.bypass with
    | true => simp [wrapped, hb]
    | false =>
        cases hphase : d.onUpstreamBody (ctx req a) a.body with
        | ok p => simpa using wrapped_eq_guarded hd hcfg hb hphase send
        | error message =>
            refine absurd ((refused_iff hcfg ha).mpr ⟨hb, message, ?_⟩) hrefused
            rw [← body_of_admitted hcfg ha]
            exact hphase
  calc
    cfg.handleMiss req a send client =
        cfg.plain.handleMiss req a (cfg.wrapped req a send) client :=
      handleMiss_wrapped hrefused req.body send client
    _ = cfg.plain.handleMiss req a (throughDoppel d a send) client := by
      rw [hplain, hplain, hwrapped]

/-- With this extension alone, the proxy does what it does without extensions in
front of a guarded upstream, a bypass going unguarded. Only where the swap or the
serialization fails, on a miss, there is nothing that goes upstream, and the
request fails. -/
theorem secrets_guarded (hd : d.HandsOver) (hcfg : cfg.extensions = [d.extension])
    (ha : cfg.admitted req = .ok a) (found : Text → Except CacheError (Option Exchange))
    (send : UpstreamRequest → Except Text UpstreamResponse) (client : Client) :
    (a.bypass = true ∨ (∃ p, d.onUpstreamBody (ctx req a) req.body = .ok p) ∨
        (∃ e, found a.key = .ok (some e)) →
      cfg.handle req found send client =
        cfg.plain.handle req found (throughDoppel d a send) client) ∧
    (a.bypass = false → (∃ message, d.onUpstreamBody (ctx req a) req.body = .error message) →
      cfg.forward req a = .error extensionError ∧
        ((∀ e, found a.key ≠ .ok (some e)) →
          cfg.handle req found send client = .failed extensionError)) := by
  have hinner : cfg.plain.admitted req = .ok a := by
    have := admitted_inner_of_ok ha
    rwa [inner_of_admitted ha, body_of_admitted hcfg ha] at this
  have hguarded (hrefused : ¬cfg.Refused req a) : cfg.handle req found send client =
      cfg.plain.handle req found (throughDoppel d a send) client := by
    simp only [handle, ha, hinner, handleMiss_guarded hd hcfg ha hrefused]
  constructor
  · have hbypass (hb : a.bypass = true) : ¬cfg.Refused req a := by
      rintro ⟨hb', -⟩
      cases hb.symm.trans hb'
    rintro (hb | ⟨p, hphase⟩ | ⟨e, hfound⟩)
    · exact hguarded (hbypass hb)
    · refine hguarded fun hrefused => ?_
      obtain ⟨-, message, hfails⟩ := (refused_iff hcfg ha).mp hrefused
      cases hphase.symm.trans hfails
    · by_cases hb : a.bypass = true
      · exact hguarded (hbypass hb)
      · simp [handle, ha, hinner, hb, hfound]
  · intro hb hfails
    have hrefused : cfg.Refused req a := (refused_iff hcfg ha).mpr ⟨hb, hfails⟩
    refine ⟨?_, fun hmiss => ?_⟩
    · obtain ⟨-, message, hphase⟩ := hrefused
      simp [forward, hb, hphase, extensionError]
    · rw [handle_of_missed (fun a' ha' _ => by
        obtain rfl := Except.ok.inj (ha.symm.trans ha')
        exact hmiss) ha]
      exact (handleMiss_refused hrefused req.body send client).1

/-! ### One secret -/

/-- Pairs of digits as bytes. -/
private def decodePairs : Bytes → Option Bytes
  | [] => some []
  | [_] => none
  | a :: b :: rest => do
      let high ← Uri.hexValue a
      let low ← Uri.hexValue b
      let bytes ← decodePairs rest
      some ((high * 16 + low) :: bytes)

private theorem hexValue_hexDigit :
    ∀ n < 16, Uri.hexValue (Text.hexDigit n) = some (UInt8.ofNat n) := by decide

private theorem decodePairs_hex (bs : Bytes) : decodePairs (Text.hex bs).bytes = some bs := by
  induction bs with
  | nil => rfl
  | cons b bs ih =>
      have hb := b.toNat_lt
      have hbyte : UInt8.ofNat (b.toNat / 16) * 16 + UInt8.ofNat (b.toNat % 16) = b := by
        apply UInt8.toNat_inj.mp
        simp only [UInt8.toNat_add, UInt8.toNat_mul, UInt8.toNat_ofNat', UInt8.toNat_ofNat]
        omega
      simp only [Text.hex] at ih
      simp only [Text.hex, List.flatMap_cons, List.cons_append, List.nil_append, decodePairs,
        hexValue_hexDigit _ (show b.toNat / 16 < 16 by omega),
        hexValue_hexDigit _ (show b.toNat % 16 < 16 by omega), ih, bind, Option.bind, hbyte]

/-- One secret is known, and always gets the same fake. A body that has the fake
in it already is refused. -/
def sampleDoppel : DoppelExt Unit where
  serializeEntries entries := .ok (entries.map fun _ => 0x61)
  deserializeEntries json := .ok (json.map fun _ => ())
  reveal _ _ := ⟨lit "sk-4fs", lit "sk-9Qe"⟩
  sse _ := leftmostCrates (fun _ => none) fun _ => .empty
  decodeHex text :=
    match decodePairs text.bytes with
    | some bytes => .ok bytes
    | none => .error "no hexadecimal text"
  swap body :=
    let payload :=
      LeftmostRewrite.rewrite (LeftmostRewrite.Policy.first UInt8)
        [⟨lit "sk-9Qe", lit "sk-4fs"⟩] body
    let undone :=
      LeftmostRewrite.rewrite (LeftmostRewrite.Policy.first UInt8) (rules alikeEntries) payload
    if undone = body then
      .ok ⟨payload, if payload = body then [] else [()], ⟨List.replicate 32 0, rfl⟩⟩
    else .error "a fake in the body"

theorem sampleDoppel_handsOver : sampleDoppel.HandsOver where
  entries es json h := by
    obtain rfl := Except.ok.inj h
    exact congrArg Except.ok ((List.map_map ..).trans (List.map_id es))
  key bs := by simp [sampleDoppel, decodePairs_hex]

/-! ### Secrets come back -/

end ServerConfig

namespace DoppelExt

variable {σ : Type} {d : DoppelExt σ}

/-- Restoring takes the swap back. -/
structure Undoes (d : DoppelExt σ) : Prop where
  restores : ∀ body r, d.swap body = .ok r → r.entries ≠ [] → ∃ chunks,
    (d.sse r.sessionKey).restoreStream (r.entries.map (d.reveal r.sessionKey)) r.payload =
        .ok chunks ∧
      chunks.flatten = body
  nonempty : ∀ body r, d.swap body = .ok r → r.entries ≠ [] → r.payload ≠ []

/-- The upstream answers with the body that it was sent, in any chunks, and the
answer does not begin like an event stream. -/
def Echoes (send : UpstreamRequest → Except Text UpstreamResponse) : Prop :=
  ∀ wire u, send wire = .ok u →
    (∀ item ∈ u.stream, ∃ bytes, item = .ok bytes) ∧ u.stream.flatMap itemBytes = wire.body ∧
      (firstChunk (u.stream.map polled)).any isSseFirstChunk = false

/-- What is restored as a whole comes as chunks. -/
theorem restoredStream_whole {ctx : SseCtx} {stream : List Item} {chunks : List Bytes}
    (hwhole : ∀ item ∈ stream, ∃ bytes, item = .ok bytes)
    (hfirst : (firstChunk (stream.map polled)).any isSseFirstChunk = false)
    (hne : stream.flatMap itemBytes ≠ [])
    (hrestore : ctx.crates.restoreStream ctx.entries (stream.flatMap itemBytes) = .ok chunks) :
    restoredStream ctx stream = chunks.map .ok := by
  obtain ⟨herr, hbytes⟩ := scriptBytes_polled hwhole
  rw [restoredStream, readOut_whole ctx herr hfirst, hbytes, if_neg hne, restoredWhole]
  simp only [hrestore, List.map_map]
  rfl

/-- Behind the guard an echo is one of the body with its secrets. -/
theorem Undoes.guarded (hu : d.Undoes) {send : UpstreamRequest → Except Text UpstreamResponse}
    (he : Echoes send) {provider : Provider} {wire : UpstreamRequest} {u : UpstreamResponse}
    (h : d.guarded provider send wire = .ok u) :
    (∀ item ∈ u.stream, ∃ bytes, item = .ok bytes) ∧ u.stream.flatMap itemBytes = wire.body := by
  unfold DoppelExt.guarded at h
  split at h
  · cases h
  · rename_i r hswap
    split at h
    · obtain ⟨hwhole, hbytes, -⟩ := he wire u h
      exact ⟨hwhole, hbytes⟩
    · rename_i hentries
      cases hsend : send { wire with body := r.payload } with
      | error message => simp [hsend, Except.map] at h
      | ok u' =>
          rw [hsend] at h
          obtain rfl := Except.ok.inj h
          obtain ⟨hwhole, hbytes, hfirst⟩ := he _ u' hsend
          obtain ⟨chunks, hrestore, hflatten⟩ := hu.restores _ r hswap hentries
          have hne : u'.stream.flatMap itemBytes ≠ [] := by
            rw [hbytes]
            exact hu.nonempty _ r hswap hentries
          have hstream : restoredStream (d.sseCtx provider r.sessionKey r.entries) u'.stream =
              chunks.map .ok :=
            restoredStream_whole hwhole hfirst hne (by rw [hbytes]; exact hrestore)
          simp only [hstream]
          refine ⟨fun item hitem => ?_, ?_⟩
          · obtain ⟨bytes, -, rfl⟩ := List.mem_map.mp hitem
            exact ⟨bytes, rfl⟩
          · rw [List.flatMap_map, ← hflatten]
            exact List.flatMap_id'

end DoppelExt

namespace ServerConfig

variable {σ : Type} {d : DoppelExt σ} {cfg : ServerConfig} {req : Request} {a : Admitted}

/-- The second phase of a request that is relayed. -/
theorem Relays.phase2 (hcfg : cfg.extensions = [d.extension])
    {send : UpstreamRequest → Except Text UpstreamResponse} {u : UpstreamResponse}
    {items : List Item} (h : cfg.Relays req send a u items) (hb : a.bypass = false) :
    ∃ wireBody state, d.onUpstreamBody (ctx req a) req.body = .ok (wireBody, state) ∧
      send (cfg.wire req a wireBody) = .ok u ∧ items = (cfg.rewritten req a [state] u).stream := by
  obtain ⟨w, states, ha, hforward, hsend, rfl⟩ := h
  rw [← body_of_admitted hcfg ha]
  cases hphase : d.onUpstreamBody (ctx req a) a.body with
  | error message =>
      have hrun : runPhase2 cfg.extensions (ctx req a) a.body = .error message := by
        rw [runPhase2_extension hcfg, hphase]
        rfl
      simp [forward, hb, hrun] at hforward
  | ok p =>
      have hrun : runPhase2 cfg.extensions (ctx req a) a.body = .ok (p.1, [p.2]) := by
        rw [runPhase2_extension hcfg, hphase]
        rfl
      obtain ⟨rfl, rfl⟩ := Prod.mk.inj
        (Except.ok.inj ((forward_of_phase2 hb hrun).symm.trans hforward))
      exact ⟨p.1, p.2, rfl, hsend, rfl⟩

/-- What is relayed is the response of the guarded upstream. -/
theorem Relays.guarded (hd : d.HandsOver) (hcfg : cfg.extensions = [d.extension])
    {send : UpstreamRequest → Except Text UpstreamResponse} {u : UpstreamResponse}
    {items : List Item} (h : cfg.Relays req send a u items) (hb : a.bypass = false) :
    d.guarded a.provider send (cfg.wire req a req.body) = .ok { u with stream := items } := by
  obtain ⟨wireBody, state, hphase, hsend, rfl⟩ := Relays.phase2 hcfg h hb
  have hrun : runPhase2 cfg.extensions (ctx req a) req.body = .ok (wireBody, [state]) := by
    rw [runPhase2_extension hcfg, hphase]
    rfl
  have hwrapped : cfg.wrapped req a send (cfg.wire req a req.body) =
      (send (cfg.wire req a wireBody)).map (cfg.rewritten req a [state]) := by
    simp [wrapped, wire, hb, hrun]
  rw [← wrapped_eq_guarded hd hcfg hb hphase send, hwrapped, hsend]
  rfl

/-- An upstream that sends back what it sees: it only sees fakes, but the client
gets the body of its request with the secrets in it, and so does the cache where
the response is stored. -/
theorem echo_restored (hd : d.HandsOver) (hu : d.Undoes) (hcfg : cfg.extensions = [d.extension])
    {found : Text → Except CacheError (Option Exchange)} (hmiss : cfg.Missed req found)
    {send : UpstreamRequest → Except Text UpstreamResponse} (he : DoppelExt.Echoes send)
    {u : UpstreamResponse} {items : List Item} (h : cfg.Relays req send a u items)
    (hb : a.bypass = false) :
    (∀ r, d.swap req.body = .ok r → r.entries ≠ [] → u.stream.flatMap itemBytes = r.payload) ∧
      items.flatMap itemBytes = req.body ∧
      ∀ client, Cacheable a u items client → ∃ provider model e,
        (cfg.handle req found send client).calls = .put a.key provider model e :: traceCalls a ∧
          e.request.body.bytes = req.body ∧
          e.chunks.flatMap (fun chunk => chunk.data.bytes) = req.body := by
  have ha : cfg.admitted req = .ok a := by
    obtain ⟨_, _, ha, -⟩ := h
    exact ha
  obtain ⟨-, hbytes⟩ := hu.guarded he (Relays.guarded hd hcfg h hb)
  refine ⟨fun r hswap hentries => ?_, hbytes, fun client hcacheable => ?_⟩
  · obtain ⟨wireBody, state, hphase, hsend, -⟩ := Relays.phase2 hcfg h hb
    obtain ⟨r', hswap', hcases⟩ := DoppelExt.onUpstreamBody_cases hphase
    obtain rfl := Except.ok.inj (hswap'.symm.trans hswap)
    rcases hcases with ⟨hnil, -⟩ | ⟨-, rfl, -⟩
    · exact absurd hnil hentries
    · exact (he _ u hsend).2.1
  · refine ⟨a.provider.pathPrefix, (a.provider.extractModelFromPath req.path).or a.model,
      exchangeFor req a u items client, ?_, ?_, ?_⟩
    · rw [handle_relays hmiss h]
      exact writeCalls_of_cacheable hcacheable
    · rw [exchangeFor_request hcacheable]
      exact body_of_admitted hcfg ha
    · rw [exchangeFor_bytes hcacheable]
      exact hbytes

/-- A client that is there for everything is sent the items up to the first error. -/
theorem relay_failed {doCache : Bool} {client : Client} (hclient : ∀ i, client.accepts i = true)
    {items : List Item} {message : Text} (h : .error message ∈ items) (i : Nat) :
    ∃ (chunks : List Bytes) (e : Text),
      (relay doCache client i items).sent = chunks.map .ok ++ [.error e] := by
  induction items generalizing i with
  | nil => cases h
  | cons item items ih =>
      cases item with
      | error e => exact ⟨[], e, by simp [relay, hclient i]⟩
      | ok bytes =>
          have htail : .error message ∈ items := by
            rcases List.mem_cons.mp h with heq | htail
            · cases heq
            · exact htail
          obtain ⟨chunks, e, hsent⟩ := ih htail (i + 1)
          exact ⟨bytes :: chunks, e, by simp [relay, hclient i, hsent]⟩

/-- The items of a stream that fails include an error, restored or not. -/
theorem Relays.failed (hd : d.HandsOver) (hcfg : cfg.extensions = [d.extension])
    {send : UpstreamRequest → Except Text UpstreamResponse} {u : UpstreamResponse}
    {items : List Item} (h : cfg.Relays req send a u items) (hb : a.bypass = false)
    {message : Text} (hfails : .error message ∈ u.stream) : ∃ e, .error e ∈ items := by
  obtain ⟨wireBody, state, hphase, -, rfl⟩ := Relays.phase2 hcfg h hb
  obtain ⟨r, -, hcases⟩ := DoppelExt.onUpstreamBody_cases hphase
  have hstream : (cfg.rewritten req a [state] u).stream =
      d.onResponseStream (ctx req a) state u.stream := by
    simp only [rewritten, responseStream, hb, hcfg]
    rfl
  rw [hstream]
  rcases hcases with ⟨-, -, rfl⟩ | ⟨-, -, json, hjson, rfl⟩
  · exact ⟨message, hfails⟩
  · rw [hd.onResponseStream hjson]
    exact restoredStream_failed hfails

/-- A response that fails under way fails for the client too, as the last item
that one gets who reads on, and nothing is stored: restoring does not hide the
failure. -/
theorem failure_passed_on (hd : d.HandsOver) (hcfg : cfg.extensions = [d.extension])
    {found : Text → Except CacheError (Option Exchange)} (hmiss : cfg.Missed req found)
    {send : UpstreamRequest → Except Text UpstreamResponse} {u : UpstreamResponse}
    {items : List Item} (h : cfg.Relays req send a u items) (hb : a.bypass = false)
    {message : Text} (hfails : .error message ∈ u.stream) (client : Client) :
    (cfg.handle req found send client).calls = [] ∧
      ((∀ i, client.accepts i = true) → client.unread = 0 →
        ∃ (response : Response) (chunks : List Bytes) (e : Text),
        (cfg.handle req found send client).response = some response ∧
          response.status = u.status ∧ response.body = chunks.map .ok ++ [.error e]) := by
  obtain ⟨e, he⟩ := Relays.failed hd hcfg h hb hfails
  have hkey : ∃ d : Digest, a.key = d.toHex := by
    obtain ⟨_, _, ha, -⟩ := h
    exact admitted_key ha
  rw [handle_relays hmiss h]
  constructor
  · refine writeCalls_of_not_cacheable fun hcacheable => ?_
    obtain ⟨bytes, hok⟩ := hcacheable.ended _ he
    cases hok
  · intro hclient hread
    obtain ⟨chunks, e, hsent⟩ := relay_failed hclient he 0
    rw [Client.received_of_read hread, hsent]
    obtain ⟨first, hfirst, hstatus, -, hbody⟩ :=
      missResponse_spec hkey (chunks.map .ok ++ [.error e])
    exact ⟨first, chunks, e, hfirst, hstatus, hbody⟩

/-! ### A request with a secret -/

theorem sampleDoppel_undoes : sampleDoppel.Undoes where
  restores body r h hentries := by
    simp only [sampleDoppel] at h
    split at h
    · rename_i hback
      obtain rfl := Except.ok.inj h
      refine ⟨_, rfl, ?_⟩
      simp only [] at hentries ⊢
      split at hentries
      · exact absurd rfl hentries
      · rename_i hne
        rw [if_neg hne]
        exact (List.append_nil _).trans hback
    · cases h
  nonempty body r h hentries hnil := by
    simp only [sampleDoppel] at h
    split at h
    · rename_i hback
      obtain rfl := Except.ok.inj h
      simp only at hnil hentries
      rw [hnil] at hback hentries
      exact hentries (if_pos hback)
    · cases h

def secretConfig : ServerConfig := { sampleConfig with extensions := [sampleDoppel.extension] }

def secretRequest : Request :=
  ⟨"POST", "gemini", "v1beta/files", none, [], lit "key: sk-9Qe"⟩

theorem ok_range : 100 ≤ (200 : UInt16).toNat ∧ (200 : UInt16).toNat < 1000 := by decide

/-- An upstream that answers with what it is sent, and not with an event stream. -/
def echo (wire : UpstreamRequest) : Except Text UpstreamResponse :=
  let stream : List Item := [.ok (wire.body.take 7), .ok (wire.body.drop 7)]
  if (firstChunk (stream.map polled)).any isSseFirstChunk = true then .error "event stream"
  else .ok ⟨200, ok_range, some (lit "application/json"), stream⟩

theorem echo_echoes : DoppelExt.Echoes echo := by
  intro wire u h
  simp only [echo] at h
  split at h
  · cases h
  · rename_i hfirst
    obtain rfl := Except.ok.inj h
    exact ⟨by simp, by simp [itemBytes], by simpa using hfirst⟩

theorem echo_restored_secret : ∃ a u items,
    secretConfig.Relays secretRequest echo a u items ∧
      u.stream.flatMap itemBytes = lit "key: sk-4fs" ∧
      items.flatMap itemBytes = lit "key: sk-9Qe" := by
  have hrelays : secretConfig.Relays secretRequest echo _ _ _ := ⟨_, _, rfl, rfl, rfl, rfl⟩
  have hmiss := missed_of_empty secretConfig secretRequest
  have h := echo_restored sampleDoppel_handsOver sampleDoppel_undoes rfl hmiss
    echo_echoes hrelays rfl
  exact ⟨_, _, _, hrelays, (h.1 _ rfl (by decide)).trans (by decide), h.2.1⟩

/-- A request with the fake in its body. -/
def fakeRequest : Request := { secretRequest with body := lit "key: sk-4fs" }

theorem secrets_guarded_secret :
    (∃ a, secretConfig.handle secretRequest (fun _ => .ok none) echo eagerClient =
      secretConfig.plain.handle secretRequest (fun _ => .ok none)
        (throughDoppel sampleDoppel a echo)
        eagerClient) ∧
    secretConfig.handle fakeRequest (fun _ => .ok none) echo eagerClient =
      .failed extensionError := by
  have ha : secretConfig.admitted secretRequest = .ok _ := rfl
  have ha' : secretConfig.admitted fakeRequest = .ok _ := rfl
  have hnone : ∀ e : Exchange, (.ok none : Except CacheError (Option Exchange)) ≠ .ok (some e) := by
    simp
  exact ⟨⟨_, (secrets_guarded sampleDoppel_handsOver rfl ha (fun _ => .ok none) echo
      eagerClient).1 (.inr (.inl ⟨_, rfl⟩))⟩,
    ((secrets_guarded sampleDoppel_handsOver rfl ha' (fun _ => .ok none) echo eagerClient).2 rfl
      ⟨_, rfl⟩).2 hnone⟩

/-- The upstream breaks off. -/
def brokenOff : UpstreamResponse :=
  ⟨200, ok_range, some (lit "application/json"), [.ok (lit "key: sk-4"), .error "reset"]⟩

theorem failure_passed_on_secret :
    (secretConfig.handle secretRequest (fun _ => .ok none) (fun _ => .ok brokenOff)
      eagerClient).calls = [] := by
  have hrelays : secretConfig.Relays secretRequest (fun _ => .ok brokenOff) _ _ _ :=
    ⟨_, _, rfl, rfl, rfl, rfl⟩
  have hmiss := missed_of_empty secretConfig secretRequest
  have hfails : (.error "reset" : Item) ∈ brokenOff.stream := by simp [brokenOff]
  exact (failure_passed_on sampleDoppel_handsOver rfl hmiss hrelays rfl hfails eagerClient).1

end ServerConfig


end LlmCacheProxy
