import LlmCacheProxy.Pipeline
import LlmCacheProxy.Runs

/-!
# Extensions around the proxy

Extensions stand between the proxy and its two sides: the first phase changes
the request before the proxy sees it, the other two change what goes upstream
and what comes back. So the proxy with them does what the proxy without them
does for another request and in front of another upstream, unless a hook fails,
and no history of the cache needs extensions to come about.
-/

namespace LlmCacheProxy

namespace ServerConfig

variable {cfg : ServerConfig} {c : Cache} {req : Request} {a : Admitted}

/-- The proxy without its extensions. -/
def plain (cfg : ServerConfig) : ServerConfig := { cfg with extensions := [] }

/-! ### The request behind the first phase -/

/-- The request that the plain proxy would see. One on which the first phase
fails is turned into one that no provider takes. -/
def inner (cfg : ServerConfig) (req : Request) : Request :=
  match Provider.fromPrefix req.providerStr with
  | none => req
  | some provider =>
      match runPhase1 cfg.extensions ⟨provider, req.method, req.path, none⟩ req.body with
      | .error _ => { req with providerStr := .empty }
      | .ok body => { req with body := body }

/-- A failed hook. -/
def extensionError : Response := textResponse 500 "extension error"

/-- The plain proxy admits the inner request alike. -/
theorem admitted_inner (cfg : ServerConfig) (req : Request) :
    cfg.plain.admitted (cfg.inner req) = cfg.admitted req ∨
      cfg.admitted req = .error extensionError ∧
        ∃ response, cfg.plain.admitted (cfg.inner req) = .error response := by
  cases hp : Provider.fromPrefix req.providerStr with
  | none => exact .inl (by simp only [inner, admitted, hp])
  | some provider =>
      cases hphase : runPhase1 cfg.extensions ⟨provider, req.method, req.path, none⟩ req.body with
      | error message =>
          refine .inr ⟨by simp only [admitted, hp, hphase, extensionError], ?_⟩
          simp only [inner, hp, hphase]
          exact ⟨_, rfl⟩
      | ok body =>
          left
          simp only [inner, admitted, hp, hphase]
          rfl

/-- Only the body of an admitted request changes. -/
theorem inner_of_admitted (ha : cfg.admitted req = .ok a) :
    cfg.inner req = { req with body := a.body } := by
  obtain ⟨hp, hphase, -⟩ := admitted_spec ha
  simp only [inner, hp, hphase]

theorem admitted_inner_of_ok (ha : cfg.admitted req = .ok a) :
    cfg.plain.admitted (cfg.inner req) = .ok a := by
  rcases admitted_inner cfg req with h | ⟨h, -⟩
  · rw [h, ha]
  · rw [ha] at h
    cases h

/-! ### The upstream behind the other phases -/

/-- What goes upstream with a given body. -/
def wire (cfg : ServerConfig) (req : Request) (a : Admitted) (body : Bytes) : UpstreamRequest :=
  ⟨req.method, cfg.baseUrl req a ++ queryPart req, forwardedHeaders req.headers, body⟩

theorem forward_of_phase2 {body : Bytes} {states : List SensitiveState} (hb : a.bypass = false)
    (h : runPhase2 cfg.extensions (ctx req a) a.body = .ok (body, states)) :
    cfg.forward req a = .ok (cfg.wire req a body, states) := by
  simp [forward, hb, h, wire]

theorem forward_of_bypass (hb : a.bypass = true) :
    cfg.forward req a = .ok (cfg.wire req a a.body, []) := by
  simp [forward, hb, wire]

/-- Without extensions the admitted body goes upstream. -/
theorem forward_plain (cfg : ServerConfig) (req : Request) (a : Admitted) (body : Bytes) :
    cfg.plain.forward { req with body := body } a = .ok (cfg.wire req a a.body, []) := by
  cases hb : a.bypass <;> simp only [forward, hb] <;> rfl

/-- The response as the extensions hand it on. -/
def rewritten (cfg : ServerConfig) (req : Request) (a : Admitted) (states : List SensitiveState)
    (u : UpstreamResponse) : UpstreamResponse :=
  { u with stream := cfg.responseStream req a states u }

/-- The upstream as it looks from behind the extensions. A second phase that
fails looks like an upstream that does not answer. -/
def wrapped (cfg : ServerConfig) (req : Request) (a : Admitted)
    (send : UpstreamRequest → Except Text UpstreamResponse) (wire : UpstreamRequest) :
    Except Text UpstreamResponse :=
  if a.bypass then send wire
  else
    match runPhase2 cfg.extensions (ctx req a) wire.body with
    | .error message => .error message
    | .ok (body, states) => (send { wire with body := body }).map (cfg.rewritten req a states)

/-- The same, for any request. -/
def innerSend (cfg : ServerConfig) (req : Request)
    (send : UpstreamRequest → Except Text UpstreamResponse) :
    UpstreamRequest → Except Text UpstreamResponse :=
  match cfg.admitted req with
  | .ok a => cfg.wrapped req a send
  | .error _ => send

/-- How a miss ends, once the upstream has answered or not. -/
def ended (req : Request) (a : Admitted) (client : Client) :
    Except Text UpstreamResponse → Handled
  | .error message => .failed (textResponse 502 message)
  | .ok u =>
      let r := relay (doCache a u) client 0 u.stream
      ⟨missResponse a u (client.received r.sent), writeCalls req a u r⟩

theorem handleMiss_of_forward {w : UpstreamRequest} {states : List SensitiveState}
    (h : cfg.forward req a = .ok (w, states))
    (send : UpstreamRequest → Except Text UpstreamResponse) (client : Client) :
    cfg.handleMiss req a send client =
      ended req a client ((send w).map (cfg.rewritten req a states)) := by
  simp only [handleMiss, h]
  cases send w with
  | error message => rfl
  | ok u => rfl

theorem handleMiss_plain (cfg : ServerConfig) (req : Request) (a : Admitted) (body : Bytes)
    (send : UpstreamRequest → Except Text UpstreamResponse) (client : Client) :
    cfg.plain.handleMiss { req with body := body } a send client =
      ended req a client (send (cfg.wire req a a.body)) := by
  have hstream : cfg.plain.rewritten { req with body := body } a [] = id := by
    funext u
    simp [rewritten, responseStream, plain, runPhase3]
  rw [handleMiss_of_forward (forward_plain cfg req a body), hstream]
  cases send (cfg.wire req a a.body) with
  | error message => rfl
  | ok u => rfl

/-- The second phase fails, so that nothing goes upstream. -/
def Refused (cfg : ServerConfig) (req : Request) (a : Admitted) : Prop :=
  a.bypass = false ∧ ∃ message, runPhase2 cfg.extensions (ctx req a) a.body = .error message

theorem handleMiss_refused (h : cfg.Refused req a) (body : Bytes)
    (send : UpstreamRequest → Except Text UpstreamResponse) (client : Client) :
    cfg.handleMiss req a send client = .failed extensionError ∧
      (cfg.plain.handleMiss { req with body := body } a (cfg.wrapped req a send) client).calls =
        [] := by
  obtain ⟨hb, message, hphase⟩ := h
  have hwrapped : cfg.wrapped req a send (cfg.wire req a a.body) = .error message := by
    simp [wrapped, wire, hb, hphase]
  rw [handleMiss_plain, hwrapped]
  exact ⟨by simp [handleMiss, forward, hb, hphase, extensionError], rfl⟩

/-- Any other miss behind the extensions is one of the plain proxy. -/
theorem handleMiss_wrapped (h : ¬cfg.Refused req a) (body : Bytes)
    (send : UpstreamRequest → Except Text UpstreamResponse) (client : Client) :
    cfg.handleMiss req a send client =
      cfg.plain.handleMiss { req with body := body } a (cfg.wrapped req a send) client := by
  rw [handleMiss_plain]
  cases hb : a.bypass with
  | true =>
      have hwrapped : cfg.wrapped req a send = send := funext fun wire => if_pos hb
      have hrewritten : cfg.rewritten req a [] = id := by
        funext u
        simp [rewritten, responseStream, hb]
      rw [handleMiss_of_forward (forward_of_bypass hb), hwrapped, hrewritten]
      cases send (cfg.wire req a a.body) with
      | error message => rfl
      | ok u => rfl
  | false =>
      cases hphase : runPhase2 cfg.extensions (ctx req a) a.body with
      | error message => exact absurd ⟨hb, message, hphase⟩ h
      | ok p =>
          obtain ⟨wireBody, states⟩ := p
          have hwrapped : cfg.wrapped req a send (cfg.wire req a a.body) =
              (send (cfg.wire req a wireBody)).map (cfg.rewritten req a states) := by
            simp [wrapped, wire, hb, hphase]
          rw [handleMiss_of_forward (forward_of_phase2 hb hphase), hwrapped]

/-- A request behind the extensions makes the calls that the plain proxy makes
for the inner request, and gets its response unless a hook fails. -/
theorem handle_inner (cfg : ServerConfig) (req : Request)
    (found : Text → Except CacheError (Option Exchange))
    (send : UpstreamRequest → Except Text UpstreamResponse) (client : Client) :
    cfg.handle req found send client =
        cfg.plain.handle (cfg.inner req) found (cfg.innerSend req send) client ∨
      cfg.handle req found send client = .failed extensionError ∧
        (cfg.plain.handle (cfg.inner req) found (cfg.innerSend req send) client).calls = [] := by
  cases ha : cfg.admitted req with
  | error response =>
      rcases admitted_inner cfg req with h | ⟨h, response', h'⟩
      · left
        simp only [handle, h, ha]
      · right
        exact ⟨by simp only [handle, h], by simp only [handle, h', Handled.failed]⟩
  | ok a =>
      have hsend : cfg.innerSend req send = cfg.wrapped req a send := by simp only [innerSend, ha]
      have hmiss : cfg.handleMiss req a send client =
            cfg.plain.handleMiss { req with body := a.body } a (cfg.wrapped req a send) client ∨
          cfg.handleMiss req a send client = .failed extensionError ∧
            (cfg.plain.handleMiss { req with body := a.body } a (cfg.wrapped req a send)
              client).calls = [] := by
        by_cases hrefused : cfg.Refused req a
        · exact .inr (handleMiss_refused hrefused a.body send client)
        · exact .inl (handleMiss_wrapped hrefused a.body send client)
      have hinner := admitted_inner_of_ok ha
      rw [inner_of_admitted ha] at hinner ⊢
      simp only [handle, ha, hinner, hsend]
      cases hb : a.bypass with
      | true => simpa using hmiss
      | false =>
          cases hfound : found a.key with
          | error e => simpa using hmiss
          | ok found =>
              cases found with
              | none => simpa using hmiss
              | some exchange => exact .inl rfl

/-! ### Whole runs -/

/-- The plain proxy has seen the inner requests, has made the same calls for them
and has the same calls to make. -/
structure Mirrors (cfg : ServerConfig) (s t : System) : Prop where
  seen : t.seen = s.seen.map cfg.inner
  calls : t.calls = s.calls.map fun x => ⟨cfg.inner x.req, x.time, x.op⟩
  pending : t.pending = s.pending.map fun p => (cfg.inner p.1, p.2)

theorem Mirrors.history {s t : System} (h : Mirrors cfg s t) : t.history = s.history := by
  rw [System.history, h.calls, List.map_map]
  rfl

theorem lookupCalls_inner (cfg : ServerConfig) (req : Request) (now : Int) :
    cfg.plain.lookupCalls (cfg.inner req) now =
      (cfg.lookupCalls req now).map fun x => ⟨cfg.inner x.req, x.time, x.op⟩ := by
  rcases admitted_inner cfg req with h | ⟨h, response, h'⟩
  · simp only [lookupCalls, h]
    cases cfg.admitted req with
    | error response => rfl
    | ok a => cases hb : a.bypass <;> simp [hb]
  · simp only [lookupCalls, h, h', List.map_nil]

/-- Each step of the proxy is one of the plain proxy. -/
theorem Mirrors.step {s s' t : System} (hst : Mirrors cfg s t) (h : cfg.Step c s s') :
    ∃ t', cfg.plain.Step c t t' ∧ Mirrors cfg s' t' := by
  cases h with
  | arrive req now send client =>
      refine ⟨_, .arrive t (cfg.inner req) now (cfg.innerSend req send) client, ?_, ?_, ?_⟩
      · rw [hst.seen, List.map_cons]
      · rw [List.map_append, lookupCalls_inner, hst.calls]
      · have hcalls := handle_inner cfg req (fun k => (c.get now k (c.after s.history)).1) send
          client
        rw [List.map_cons, hst.pending, hst.history]
        rcases hcalls with heq | ⟨heq, hnone⟩
        · rw [heq]
        · rw [heq, hnone]
          rfl
  | call req now op rest before after next =>
      have hnext := hst.pending
      rw [next, List.map_append, List.map_cons] at hnext
      refine ⟨_, .call t (cfg.inner req) now op rest _ _ hnext, hst.seen, ?_, ?_⟩
      · rw [List.map_cons, hst.calls]
      · rw [List.map_append, List.map_cons]

/-- Whatever the extensions do, the calls that the cache has seen in a run, and
those that are still to come, are the calls of a run without extensions, for
requests that differ from those of the run by what the first phase does. -/
theorem extensions_only_wrap {s : System} (h : cfg.Reachable c s) :
    ∃ t, cfg.plain.Reachable c t ∧ Mirrors cfg s t := by
  induction h with
  | init => exact ⟨.init, .init, rfl, rfl, rfl⟩
  | step _ hstep ih =>
      obtain ⟨t, ht, hst⟩ := ih
      obtain ⟨t', hstep', hst'⟩ := hst.step hstep
      exact ⟨t', ht.step hstep', hst'⟩

/-- A page that is fetched through two signing extensions. -/
theorem extensions_only_wrap_signing : ∃ s t,
    s.seen = [filesRequest "pageToken=a"] ∧ s.history.length = 1 ∧
      signingConfig.plain.Reachable ⟨Cache.sampleCrates, 0⟩ t ∧ Mirrors signingConfig s t := by
  have harrive : signingConfig.Reachable ⟨Cache.sampleCrates, 0⟩ _ := Reachable.init.step
    (.arrive .init (filesRequest "pageToken=a") 0 (fun _ => .ok cutResponse) eagerClient)
  obtain ⟨t, ht, hst⟩ := extensions_only_wrap harrive
  exact ⟨_, t, rfl, rfl, ht, hst⟩

end ServerConfig

end LlmCacheProxy
