import LlmCacheProxy.Foundation.Hooks
import LlmCacheProxy.Replay

/-!
# The discipline of the extension pipeline

The log of a request has the hooks that are called for it, with what they are
given, among the other things that happen to it. In every log the first phase
comes first, the other two come on a miss alone, every extension gets back its
own state, and a hook that fails is the last thing in the log.
-/

namespace LlmCacheProxy

/-- What happens to a request, in order. A hook is known by its place among the
registered extensions. -/
inductive Event where
  | phase1 (index : Nat) (ctx : ProxyCtx) (body : Bytes)
  | lookup (key : Text)
  | phase2 (index : Nat) (ctx : ProxyCtx) (body : Bytes)
  | send (wire : UpstreamRequest)
  | phase3 (index : Nat) (ctx : ProxyCtx) (state : SensitiveState) (stream : List Item)
  | write (op : Cache.Op)

namespace Event

/-- The phase that a hook belongs to. -/
def phase : Event → Option Nat
  | phase1 .. => some 1
  | phase2 .. => some 2
  | phase3 .. => some 3
  | _ => none

/-- What can happen before a request leaves the proxy. -/
def early : Event → Bool
  | phase1 .. | lookup _ | phase2 .. => true
  | _ => false

/-- The call of the cache. -/
def op : Event → Option Cache.Op
  | write op => some op
  | _ => none

/-- The hook that is called returns an error. -/
def Fails (exts : List Extension) : Event → Prop
  | phase1 i ctx body => ∃ ext e, exts[i]? = some ext ∧ ext.onRequestBody ctx body = .error e
  | phase2 i ctx body => ∃ ext e, exts[i]? = some ext ∧ ext.onUpstreamBody ctx body = .error e
  | _ => False

end Event

/-! ### The phases -/

def applyPhase1 (ctx : ProxyCtx) (ext : Extension) (body : Bytes) : Except Text Bytes :=
  ext.onRequestBody ctx body

/-- The states are collected in the order of the hooks. -/
def applyPhase2 (ctx : ProxyCtx) (ext : Extension) (s : Bytes × List SensitiveState) :
    Except Text (Bytes × List SensitiveState) :=
  (ext.onUpstreamBody ctx s.1).map fun r => (r.1, s.2 ++ [r.2])

/-- The third hook does not fail. -/
def applyPhase3 (ctx : ProxyCtx) (p : Extension × SensitiveState) (stream : List Item) :
    Except Empty (List Item) :=
  .ok (p.1.onResponseStream ctx p.2 stream)

def phase1Log (exts : List Extension) (ctx : ProxyCtx) (body : Bytes) : List Event :=
  (Hooks.run (applyPhase1 ctx) 0 exts body).1.map fun c => .phase1 c.index ctx c.given

def phase2Log (exts : List Extension) (ctx : ProxyCtx) (body : Bytes) : List Event :=
  (Hooks.run (applyPhase2 ctx) 0 exts (body, [])).1.map fun c => .phase2 c.index ctx c.given.1

def phase3Log (exts : List Extension) (ctx : ProxyCtx) (states : List SensitiveState)
    (stream : List Item) : List Event :=
  (Hooks.run (applyPhase3 ctx) 0 (exts.zip states) stream).1.map fun c =>
    .phase3 c.index ctx c.hook.2 c.given

section Phases

variable {exts : List Extension} {ctx : ProxyCtx}

theorem runPhase2_cons (ext : Extension) (rest : List Extension) (body : Bytes) :
    runPhase2 (ext :: rest) ctx body =
      (ext.onUpstreamBody ctx body).bind fun r =>
        (runPhase2 rest ctx r.1).map fun r' => (r'.1, r.2 :: r'.2) := by
  cases h : ext.onUpstreamBody ctx body with
  | error e => simp [runPhase2, h, bind, Except.bind]
  | ok r =>
      cases h' : runPhase2 rest ctx r.1 with
      | error e | ok r' => simp [runPhase2, h, h', bind, Except.bind, Except.map]

theorem thread_phase2 (body : Bytes) (states : List SensitiveState) :
    Hooks.thread (applyPhase2 ctx) exts (body, states) =
      (runPhase2 exts ctx body).map fun r => (r.1, states ++ r.2) := by
  induction exts generalizing body states with
  | nil => simp [Hooks.thread, runPhase2, Except.map, pure, Except.pure]
  | cons ext rest ih =>
      rw [runPhase2_cons]
      cases h : ext.onUpstreamBody ctx body with
      | error e =>
          have hstep : applyPhase2 ctx ext (body, states) = .error e := by
            simp [applyPhase2, h, Except.map]
          rw [Hooks.thread_cons_of_error hstep]
          rfl
      | ok r =>
          have hstep : applyPhase2 ctx ext (body, states) = .ok (r.1, states ++ [r.2]) := by
            simp [applyPhase2, h, Except.map]
          rw [Hooks.thread_cons_of_ok hstep, ih]
          cases h' : runPhase2 rest ctx r.1 with
          | error e | ok r' => simp [Except.map, Except.bind, h']

theorem thread_phase3 (pairs : List (Extension × SensitiveState)) (stream : List Item) :
    Hooks.thread (applyPhase3 ctx) pairs stream =
      .ok (pairs.foldl (fun stream p => p.1.onResponseStream ctx p.2 stream) stream) := by
  induction pairs generalizing stream with
  | nil => rfl
  | cons p pairs ih => exact (Hooks.thread_cons_of_ok rfl pairs).trans (ih _)

/-- A hook of the first phase is called when those before it succeed, with the
body that they make. -/
theorem getElem?_phase1Log (body : Bytes) (i : Nat) (ev : Event) :
    (phase1Log exts ctx body)[i]? = some ev ↔
      i < exts.length ∧ ∃ given, runPhase1 (exts.take i) ctx body = .ok given ∧
        ev = .phase1 i ctx given := by
  rw [phase1Log, List.getElem?_map, Option.map_eq_some_iff]
  constructor
  · rintro ⟨c, hc, rfl⟩
    obtain ⟨hi, hhook, hgiven⟩ := (Hooks.getElem?_calls 0 exts body i c).mp hc
    refine ⟨List.getElem?_eq_some_iff.mp hhook |>.1, c.given, hgiven, ?_⟩
    rw [hi, Nat.zero_add]
  · rintro ⟨hi, given, hgiven, rfl⟩
    refine ⟨⟨i, exts[i], given⟩, (Hooks.getElem?_calls 0 exts body i _).mpr ?_, rfl⟩
    exact ⟨(Nat.zero_add i).symm, List.getElem?_eq_getElem hi, hgiven⟩

/-- The same holds in the second phase. -/
theorem getElem?_phase2Log (body : Bytes) (i : Nat) (ev : Event) :
    (phase2Log exts ctx body)[i]? = some ev ↔
      i < exts.length ∧ ∃ given states, runPhase2 (exts.take i) ctx body = .ok (given, states) ∧
        ev = .phase2 i ctx given := by
  have hthread (given : Bytes × List SensitiveState) :
      Hooks.thread (applyPhase2 ctx) (exts.take i) (body, []) = .ok given ↔
        runPhase2 (exts.take i) ctx body = .ok given := by
    rw [thread_phase2]
    cases runPhase2 (exts.take i) ctx body with
    | error e => simp [Except.map]
    | ok r => simp [Except.map]
  rw [phase2Log, List.getElem?_map, Option.map_eq_some_iff]
  constructor
  · rintro ⟨c, hc, rfl⟩
    obtain ⟨hi, hhook, hgiven⟩ := (Hooks.getElem?_calls 0 exts (body, []) i c).mp hc
    refine ⟨List.getElem?_eq_some_iff.mp hhook |>.1, c.given.1, c.given.2,
      (hthread _).mp hgiven, ?_⟩
    rw [hi, Nat.zero_add]
  · rintro ⟨hi, given, states, hgiven, rfl⟩
    refine ⟨⟨i, exts[i], (given, states)⟩,
      (Hooks.getElem?_calls 0 exts (body, []) i _).mpr ?_, rfl⟩
    exact ⟨(Nat.zero_add i).symm, List.getElem?_eq_getElem hi, (hthread _).mpr hgiven⟩

/-- A hook of the third phase is given the state at its own place and the stream
that the hooks before it make. -/
theorem getElem?_phase3Log {states : List SensitiveState} (hlen : states.length = exts.length)
    (stream : List Item) (i : Nat) (ev : Event) :
    (phase3Log exts ctx states stream)[i]? = some ev ↔
      ∃ state, states[i]? = some state ∧
        ev = .phase3 i ctx state (runPhase3 (exts.take i) ctx (states.take i) stream) := by
  have hthread : Hooks.thread (applyPhase3 ctx) ((exts.zip states).take i) stream =
      .ok (runPhase3 (exts.take i) ctx (states.take i) stream) := by
    rw [thread_phase3, runPhase3, List.zip, List.take_zipWith]
  rw [phase3Log, List.getElem?_map, Option.map_eq_some_iff]
  constructor
  · rintro ⟨c, hc, rfl⟩
    obtain ⟨hi, hhook, hgiven⟩ := (Hooks.getElem?_calls 0 (exts.zip states) stream i c).mp hc
    rw [hthread] at hgiven
    refine ⟨c.hook.2, (List.getElem?_zip_eq_some.mp hhook).2, ?_⟩
    rw [hi, Nat.zero_add, Except.ok.inj hgiven]
  · rintro ⟨state, hstate, rfl⟩
    obtain ⟨hi, rfl⟩ := List.getElem?_eq_some_iff.mp hstate
    refine ⟨⟨i, (exts.get ⟨i, hlen ▸ hi⟩, states[i]), _⟩,
      (Hooks.getElem?_calls 0 (exts.zip states) stream i _).mpr ?_, rfl⟩
    refine ⟨(Nat.zero_add i).symm, List.getElem?_zip_eq_some.mpr ⟨?_, hstate⟩, hthread⟩
    exact List.getElem?_eq_getElem _

/-- The last hook of the third phase makes the stream. -/
theorem runPhase3_of_last {ext : Extension} {state : SensitiveState}
    {states : List SensitiveState} {i : Nat} (hext : exts[i]? = some ext)
    (hstate : states[i]? = some state) (hlast : exts.length = i + 1)
    (hlen : states.length = exts.length) (stream : List Item) :
    runPhase3 exts ctx states stream =
      ext.onResponseStream ctx state
        (runPhase3 (exts.take i) ctx (states.take i) stream) := by
  have hpair : (exts.zip states)[i]? = some (ext, state) :=
    List.getElem?_zip_eq_some.mpr ⟨hext, hstate⟩
  have hzip : exts.zip states = (exts.take i).zip (states.take i) ++ [(ext, state)] := by
    calc exts.zip states
        = (exts.zip states).take (i + 1) := by
          rw [List.take_of_length_le]
          simp [hlen, hlast]
      _ = (exts.zip states).take i ++ [(ext, state)] := by
          rw [List.take_add_one, hpair, Option.toList_some]
      _ = (exts.take i).zip (states.take i) ++ [(ext, state)] := by
          rw [List.zip, List.take_zipWith]
  rw [runPhase3, hzip, List.foldl_append]
  rfl

/-- The second phase yields one state for each extension, the one that its own
hook built. -/
theorem runPhase2_states {body wire : Bytes} {states : List SensitiveState}
    (h : runPhase2 exts ctx body = .ok (wire, states)) :
    states.length = exts.length ∧ ∀ i state, states[i]? = some state →
      ∃ ext given out, exts[i]? = some ext ∧
        runPhase2 (exts.take i) ctx body = .ok (given, states.take i) ∧
        ext.onUpstreamBody ctx given = .ok (out, state) := by
  induction exts generalizing body states with
  | nil =>
      obtain ⟨-, rfl⟩ := Prod.mk.inj (Except.ok.inj h)
      exact ⟨rfl, fun i state hi => by simp at hi⟩
  | cons ext rest ih =>
      rw [runPhase2_cons] at h
      cases hext : ext.onUpstreamBody ctx body with
      | error e =>
          rw [hext] at h
          cases h
      | ok r =>
          cases hrest : runPhase2 rest ctx r.1 with
          | error e =>
              rw [hext, Except.bind, hrest] at h
              cases h
          | ok r' =>
              rw [hext, Except.bind, hrest] at h
              obtain ⟨rfl, rfl⟩ := Prod.mk.inj (Except.ok.inj h)
              obtain ⟨hlen, hown⟩ := ih hrest
              refine ⟨by simp [hlen], fun i state hi => ?_⟩
              cases i with
              | zero =>
                  obtain rfl := Option.some.inj hi
                  exact ⟨ext, body, r.1, rfl, rfl, hext⟩
              | succ i =>
                  obtain ⟨ext', given, out, hext', hgiven, hout⟩ := hown i state hi
                  refine ⟨ext', given, out, hext', ?_, hout⟩
                  rw [List.take_succ_cons, runPhase2_cons, hext, Except.bind, hgiven]
                  rfl

/-- After a hook of the first phase that fails there is no further one. -/
theorem phase1Log_failed {body : Bytes} {front back : List Event} {ev : Event}
    (h : phase1Log exts ctx body = front ++ ev :: back) (hfails : ev.Fails exts) :
    back = [] ∧ ∃ e, runPhase1 exts ctx body = .error e := by
  obtain ⟨calls, later, hsplit, rfl, hlater⟩ := List.map_eq_append_iff.mp h
  obtain ⟨c, later, rfl, rfl, rfl⟩ := List.map_eq_cons_iff.mp hlater
  obtain ⟨ext, e, hext, he⟩ := hfails
  have hc := (Hooks.getElem?_calls 0 exts body calls.length c).mp
    (by rw [hsplit, List.getElem?_append_right le_rfl, Nat.sub_self, List.getElem?_cons_zero])
  obtain rfl : c.hook = ext := by
    rw [hc.1, Nat.zero_add, hc.2.1] at hext
    exact Option.some.inj hext
  obtain ⟨rfl, herror⟩ := Hooks.failed_last hsplit he
  exact ⟨rfl, e, herror⟩

/-- The same holds in the second phase. -/
theorem phase2Log_failed {body : Bytes} {front back : List Event} {ev : Event}
    (h : phase2Log exts ctx body = front ++ ev :: back) (hfails : ev.Fails exts) :
    back = [] ∧ ∃ e, runPhase2 exts ctx body = .error e := by
  obtain ⟨calls, later, hsplit, rfl, hlater⟩ := List.map_eq_append_iff.mp h
  obtain ⟨c, later, rfl, rfl, rfl⟩ := List.map_eq_cons_iff.mp hlater
  obtain ⟨ext, e, hext, he⟩ := hfails
  have hc := (Hooks.getElem?_calls 0 exts (body, []) calls.length c).mp
    (by rw [hsplit, List.getElem?_append_right le_rfl, Nat.sub_self, List.getElem?_cons_zero])
  obtain rfl : c.hook = ext := by
    rw [hc.1, Nat.zero_add, hc.2.1] at hext
    exact Option.some.inj hext
  have hstep : applyPhase2 ctx c.hook c.given = .error e := by
    rw [applyPhase2, he]
    rfl
  obtain ⟨rfl, herror⟩ := Hooks.failed_last hsplit hstep
  rw [thread_phase2] at herror
  cases hrun : runPhase2 exts ctx body with
  | error e' => exact ⟨rfl, e', rfl⟩
  | ok r =>
      rw [hrun] at herror
      cases herror

theorem phase_phase1Log {body : Bytes} {ev : Event} (h : ev ∈ phase1Log exts ctx body) :
    ev.phase = some 1 := by
  obtain ⟨c, -, rfl⟩ := List.mem_map.mp h
  rfl

theorem phase_phase2Log {body : Bytes} {ev : Event} (h : ev ∈ phase2Log exts ctx body) :
    ev.phase = some 2 := by
  obtain ⟨c, -, rfl⟩ := List.mem_map.mp h
  rfl

theorem phase_phase3Log {states : List SensitiveState} {stream : List Item} {ev : Event}
    (h : ev ∈ phase3Log exts ctx states stream) : ev.phase = some 3 := by
  obtain ⟨c, -, rfl⟩ := List.mem_map.mp h
  rfl

end Phases

/-! ### The log of a request -/

namespace ServerConfig

variable (cfg : ServerConfig)

/-- What happens to a request that is not answered from the cache. -/
def missLog (req : Request) (a : Admitted) (send : UpstreamRequest → Except Text UpstreamResponse)
    (client : Client) : List Event :=
  let wireLog := if a.bypass then [] else phase2Log cfg.extensions (ctx req a) a.body
  match cfg.forward req a with
  | .error _ => wireLog
  | .ok (wire, states) =>
      match send wire with
      | .error _ => wireLog ++ [.send wire]
      | .ok u =>
          let streamLog :=
            if a.bypass then [] else phase3Log cfg.extensions (ctx req a) states u.stream
          wireLog ++ .send wire ::
            (streamLog ++ (cfg.handleMiss req a send client).calls.map .write)

/-- What happens to an admitted request after the first phase. -/
def admittedLog (req : Request) (a : Admitted) (found : Text → Except CacheError (Option Exchange))
    (send : UpstreamRequest → Except Text UpstreamResponse) (client : Client) : List Event :=
  if a.bypass then cfg.missLog req a send client
  else
    .lookup a.key ::
      match found a.key with
      | .ok (some _) => (traceCalls a).map .write
      | _ => cfg.missLog req a send client

def log (req : Request) (found : Text → Except CacheError (Option Exchange))
    (send : UpstreamRequest → Except Text UpstreamResponse) (client : Client) : List Event :=
  match Provider.fromPrefix req.providerStr with
  | none => []
  | some provider =>
      phase1Log cfg.extensions ⟨provider, req.method, req.path, none⟩ req.body ++
        match cfg.admitted req with
        | .error _ => []
        | .ok a => cfg.admittedLog req a found send client

/-- What the first phase is told: the key is not known yet. -/
def firstCtx (req : Request) (provider : Provider) : ProxyCtx :=
  ⟨provider, req.method, req.path, none⟩

/-! ### The exits of the handler -/

/-- What follows the second phase of a miss, with the calls to the cache. -/
inductive Sent (req : Request) (a : Admitted)
    (send : UpstreamRequest → Except Text UpstreamResponse) (client : Client) :
    List Event → List Cache.Op → Prop
  | refused {e : Text} (hhook : runPhase2 cfg.extensions (ctx req a) a.body = .error e) :
      Sent req a send client [] []
  | unanswered {wire : UpstreamRequest} {states : List SensitiveState} {message : Text}
      (hforward : cfg.forward req a = .ok (wire, states)) (hsend : send wire = .error message) :
      Sent req a send client [.send wire] []
  | relayed {wire : UpstreamRequest} {states : List SensitiveState} {u : UpstreamResponse}
      {calls : List Cache.Op} (hforward : cfg.forward req a = .ok (wire, states))
      (hsend : send wire = .ok u)
      (hcalls : calls = writeCalls req a u (relay (doCache a u) client 0
        (runPhase3 cfg.extensions (ctx req a) states u.stream))) :
      Sent req a send client
        (.send wire :: (phase3Log cfg.extensions (ctx req a) states u.stream ++
          calls.map .write)) calls

/-- The log of a request to a known provider, with the calls to the cache, by the
exit that the handler takes. -/
inductive Course (req : Request) (provider : Provider)
    (found : Text → Except CacheError (Option Exchange))
    (send : UpstreamRequest → Except Text UpstreamResponse) (client : Client) :
    List Event → List Cache.Op → Prop
  | refused {response : Response} {e : Text} (hadmitted : cfg.admitted req = .error response)
      (hhook : runPhase1 cfg.extensions (firstCtx req provider) req.body = .error e) :
      Course req provider found send client
        (phase1Log cfg.extensions (firstCtx req provider) req.body) []
  | bypassed {a : Admitted} {wire : UpstreamRequest} (hadmitted : cfg.admitted req = .ok a)
      (hbypass : a.bypass = true) (hforward : cfg.forward req a = .ok (wire, [])) :
      Course req provider found send client
        (phase1Log cfg.extensions (firstCtx req provider) req.body ++ [.send wire]) []
  | hit {a : Admitted} {e : Exchange} (hadmitted : cfg.admitted req = .ok a)
      (hbypass : a.bypass = false) (hfound : found a.key = .ok (some e)) :
      Course req provider found send client
        (phase1Log cfg.extensions (firstCtx req provider) req.body ++
          .lookup a.key :: (traceCalls a).map .write) (traceCalls a)
  | missed {a : Admitted} {rest : List Event} {calls : List Cache.Op}
      (hadmitted : cfg.admitted req = .ok a) (hbypass : a.bypass = false)
      (hfound : ∀ e, found a.key ≠ .ok (some e)) (hrest : cfg.Sent req a send client rest calls) :
      Course req provider found send client
        (phase1Log cfg.extensions (firstCtx req provider) req.body ++
          .lookup a.key :: (phase2Log cfg.extensions (ctx req a) a.body ++ rest)) calls

variable {cfg}

section Exits

variable {req : Request} {provider : Provider} {a : Admitted}
variable {found : Text → Except CacheError (Option Exchange)}
variable {send : UpstreamRequest → Except Text UpstreamResponse} {client : Client}

/-- Admission fails with the first phase alone. -/
theorem admitted_error (hp : Provider.fromPrefix req.providerStr = some provider)
    {response : Response} (h : cfg.admitted req = .error response) :
    ∃ e, runPhase1 cfg.extensions (firstCtx req provider) req.body = .error e := by
  simp only [admitted, hp] at h
  cases hrun : runPhase1 cfg.extensions (firstCtx req provider) req.body with
  | error e => exact ⟨e, rfl⟩
  | ok body =>
      rw [show runPhase1 cfg.extensions ⟨provider, req.method, req.path, none⟩ req.body = .ok body
        from hrun] at h
      cases h

theorem admitted_provider (hp : Provider.fromPrefix req.providerStr = some provider)
    (h : cfg.admitted req = .ok a) : a.provider = provider :=
  Option.some.inj ((admitted_spec h).1.symm.trans hp)

section Miss

variable (cfg req send client)

/-- On a bypass the request goes upstream as it is, and nothing is written. -/
theorem missLog_bypass (hb : a.bypass = true) :
    ∃ wire : UpstreamRequest, cfg.forward req a = .ok (wire, []) ∧
      cfg.missLog req a send client = [.send wire] ∧
      (cfg.handleMiss req a send client).calls = [] := by
  obtain ⟨wire, hforward⟩ : ∃ wire : UpstreamRequest, cfg.forward req a = .ok (wire, []) :=
    ⟨_, by rw [forward, if_pos hb]⟩
  refine ⟨wire, hforward, ?_⟩
  cases hsend : send wire with
  | error message => simp [missLog, handleMiss, hforward, hsend, hb, Handled.failed]
  | ok u =>
      have hcache : doCache a u = false := by simp [doCache, hb]
      simp [missLog, handleMiss, hforward, hsend, hb, writeCalls, hcache]

theorem missLog_sent (hb : a.bypass = false) :
    ∃ rest, cfg.missLog req a send client =
        phase2Log cfg.extensions (ctx req a) a.body ++ rest ∧
      cfg.Sent req a send client rest (cfg.handleMiss req a send client).calls := by
  have hnot : ¬ a.bypass = true := by simp [hb]
  cases hrun : runPhase2 cfg.extensions (ctx req a) a.body with
  | error e =>
      have hforward : cfg.forward req a = .error (textResponse 500 "extension error") := by
        simp only [forward, if_neg hnot, hrun]
      have hcalls : (cfg.handleMiss req a send client).calls = [] := by
        simp only [handleMiss, hforward, Handled.failed]
      refine ⟨[], ?_, hcalls ▸ .refused hrun⟩
      simp only [missLog, hforward, if_neg hnot, List.append_nil]
  | ok r =>
      obtain ⟨wire, hforward⟩ : ∃ wire, cfg.forward req a = .ok (wire, r.2) := by
        obtain ⟨body, states⟩ := r
        simp only [forward, if_neg hnot, hrun]
        exact ⟨_, rfl⟩
      cases hsend : send wire with
      | error message =>
          have hcalls : (cfg.handleMiss req a send client).calls = [] := by
            simp only [handleMiss, hforward, hsend, Handled.failed]
          refine ⟨[.send wire], ?_, hcalls ▸ .unanswered hforward hsend⟩
          simp only [missLog, hforward, hsend, if_neg hnot]
      | ok u =>
          have hcalls : (cfg.handleMiss req a send client).calls =
              writeCalls req a u (relay (doCache a u) client 0
                (runPhase3 cfg.extensions (ctx req a) r.2 u.stream)) := by
            simp only [handleMiss, hforward, hsend, responseStream, if_neg hnot]
          refine ⟨_, ?_, .relayed hforward hsend hcalls⟩
          simp only [missLog, hforward, hsend, if_neg hnot]

end Miss

/-- The log and the calls of the handler belong to one of its exits. -/
theorem handle_course (hp : Provider.fromPrefix req.providerStr = some provider) :
    cfg.Course req provider found send client (cfg.log req found send client)
      (cfg.handle req found send client).calls := by
  simp only [log, hp]
  cases ha : cfg.admitted req with
  | error response =>
      obtain ⟨e, he⟩ := admitted_error hp ha
      simp only [handle, ha, List.append_nil]
      exact .refused ha he
  | ok a =>
      by_cases hb : a.bypass = true
      · obtain ⟨wire, hforward, hlog, hcalls⟩ := missLog_bypass cfg req send client hb
        simp only [handle, ha, admittedLog, if_pos hb, hlog, hcalls]
        exact .bypassed ha hb hforward
      · have hb' : a.bypass = false := by simpa using hb
        cases hfound : found a.key with
        | error e =>
            obtain ⟨rest, hlog, hrest⟩ := missLog_sent cfg req send client hb'
            simp only [handle, ha, admittedLog, if_neg hb, hfound, hlog]
            exact .missed ha hb' (by simp [hfound]) hrest
        | ok o =>
            cases o with
            | none =>
                obtain ⟨rest, hlog, hrest⟩ := missLog_sent cfg req send client hb'
                simp only [handle, ha, admittedLog, if_neg hb, hfound, hlog]
                exact .missed ha hb' (by simp [hfound]) hrest
            | some e =>
                simp only [handle, ha, admittedLog, if_neg hb, hfound]
                exact .hit ha hb' hfound

end Exits

/-! ### The discipline -/

/-- What holds of the log of a request to a known provider and of the calls to
the cache. -/
structure Disciplined (cfg : ServerConfig) (req : Request) (provider : Provider)
    (found : Text → Except CacheError (Option Exchange))
    (send : UpstreamRequest → Except Text UpstreamResponse) (log : List Event)
    (calls : List Cache.Op) : Prop where
  logged : log.filterMap Event.op = calls
  /-- The first phase comes first, in order and with the body threaded. -/
  phase1 : ∃ first rest, log = first ++ rest ∧ (∀ ev ∈ rest, ev.phase ≠ some 1) ∧
    ∀ i ev, first[i]? = some ev ↔ i < cfg.extensions.length ∧ ∃ given,
      runPhase1 (cfg.extensions.take i) (firstCtx req provider) req.body = .ok given ∧
        ev = Event.phase1 i (firstCtx req provider) given
  /-- The key is that of the body which the first phase makes. -/
  key : ∀ a, cfg.admitted req = .ok a →
    runPhase1 cfg.extensions (firstCtx req provider) req.body = .ok a.body ∧
      a.key = cacheKey cfg.crates provider req.method (fullPath req) a.body
  /-- On a bypass and on a hit the other phases do not run. -/
  unhooked : ∀ a, cfg.admitted req = .ok a →
    (a.bypass = true ∨ ∃ e, found a.key = .ok (some e)) →
      ∀ ev ∈ log, ev.phase ≠ some 2 ∧ ev.phase ≠ some 3
  /-- On a miss the second phase follows the lookup, in order and with the body
  of the first phase threaded. -/
  phase2 : ∀ a, cfg.admitted req = .ok a → a.bypass = false →
    (∀ e, found a.key ≠ .ok (some e)) →
      ∃ first second rest, log = first ++ Event.lookup a.key :: (second ++ rest) ∧
        (∀ ev ∈ first, ev.phase = some 1) ∧
        (∀ ev ∈ rest, ev.phase ≠ some 1 ∧ ev.phase ≠ some 2) ∧
        ∀ i ev, second[i]? = some ev ↔ i < cfg.extensions.length ∧ ∃ given states,
          runPhase2 (cfg.extensions.take i) (ctx req a) a.body = .ok (given, states) ∧
            ev = Event.phase2 i (ctx req a) given
  /-- A hook of the third phase is given the state that the second hook of the
  same extension built for this request. -/
  own : ∀ i c state stream, Event.phase3 i c state stream ∈ log →
    ∃ ext given out, cfg.extensions[i]? = some ext ∧ Event.phase2 i c given ∈ log ∧
      ext.onUpstreamBody c given = .ok (out, state)
  /-- The third phase runs every hook, in order and with the stream threaded. -/
  phase3 : ∀ a u items, cfg.Relays req send a u items → a.bypass = false →
    (∀ e, found a.key ≠ .ok (some e)) →
      ∃ states front third back, log = front ++ third ++ back ∧
        (∀ ev ∈ front ++ back, ev.phase ≠ some 3) ∧
        states.length = cfg.extensions.length ∧
        (∀ i ev, third[i]? = some ev ↔ ∃ state, states[i]? = some state ∧
          ev = Event.phase3 i (ctx req a) state
            (runPhase3 (cfg.extensions.take i) (ctx req a) (states.take i) u.stream)) ∧
        items = runPhase3 cfg.extensions (ctx req a) states u.stream
  /-- What is stored is what the last hook of the third phase yields, under the
  key of the body of the first phase. -/
  stored : ∀ k name model e, Event.write (.put k name model e) ∈ log →
    ∃ a u items, cfg.Relays req send a u items ∧ a.bypass = false ∧
      (∀ e, found a.key ≠ .ok (some e)) ∧ k = a.key ∧
      (e.chunks.flatMap fun c => c.data.bytes) = items.flatMap itemBytes
  /-- Nothing follows a hook that fails, and nothing has been sent or written
  before it. -/
  failed : ∀ front ev back, log = front ++ ev :: back → ev.Fails cfg.extensions →
    back = [] ∧ (∀ ev' ∈ front, ev'.early = true) ∧ calls = []

section Discipline

variable {req : Request} {provider : Provider} {a : Admitted}
variable {found : Text → Except CacheError (Option Exchange)}
variable {send : UpstreamRequest → Except Text UpstreamResponse} {client : Client}
variable {log rest : List Event} {calls : List Cache.Op}

private theorem split_append {xs ys front back : List Event} {ev : Event}
    (h : xs ++ ys = front ++ ev :: back) :
    (∃ mid, xs = front ++ ev :: mid ∧ back = mid ++ ys) ∨
      ∃ mid, front = xs ++ mid ∧ ys = mid ++ ev :: back := by
  rcases List.append_eq_append_iff.mp h with ⟨mid, hfront, hys⟩ | ⟨mid, hxs, hmid⟩
  · exact Or.inr ⟨mid, hfront, hys⟩
  · cases mid with
    | nil =>
        refine Or.inr ⟨[], ?_, hmid.symm⟩
        rw [hxs, List.append_nil, List.append_nil]
    | cons ev' mid =>
        obtain ⟨rfl, rfl⟩ := List.cons.inj hmid
        exact Or.inl ⟨mid, hxs, rfl⟩

private theorem op_of_phase {xs : List Event} {n : Nat} (h : ∀ ev ∈ xs, ev.phase = some n) :
    xs.filterMap Event.op = [] := by
  apply List.filterMap_eq_nil_iff.mpr
  intro ev hev
  have hphase := h ev hev
  cases ev with
  | write op => cases hphase
  | _ => rfl

private theorem op_writes (calls : List Cache.Op) :
    (calls.map Event.write).filterMap Event.op = calls := by
  rw [List.filterMap_map]
  exact List.filterMap_some

private theorem phase_write {ev : Event} {calls : List Cache.Op} (h : ev ∈ calls.map Event.write) :
    ev.phase = none := by
  obtain ⟨op, -, rfl⟩ := List.mem_map.mp h
  rfl

private theorem phase_of_fails {ev : Event} (h : ev.Fails cfg.extensions) :
    ev.phase = some 1 ∨ ev.phase = some 2 := by
  cases ev with
  | phase1 => exact Or.inl rfl
  | phase2 => exact Or.inr rfl
  | _ => exact h.elim

private theorem early_of_phase {ev : Event} (h : ev.phase = some 1 ∨ ev.phase = some 2) :
    ev.early = true := by
  cases ev with
  | phase1 | phase2 => rfl
  | _ => rcases h with h | h <;> cases h

/-- The wire body and the states of a miss are those of the second phase. -/
theorem runPhase2_of_forward (hb : a.bypass = false) {wire : UpstreamRequest}
    {states : List SensitiveState} (h : cfg.forward req a = .ok (wire, states)) :
    runPhase2 cfg.extensions (ctx req a) a.body = .ok (wire.body, states) := by
  have hnot : ¬ a.bypass = true := by simp [hb]
  simp only [forward, if_neg hnot] at h
  cases hrun : runPhase2 cfg.extensions (ctx req a) a.body with
  | error e =>
      rw [hrun] at h
      cases h
  | ok r =>
      rw [hrun] at h
      obtain ⟨rfl, rfl⟩ := Prod.mk.inj (Except.ok.inj h)
      rfl

theorem Sent.phase_ne (h : cfg.Sent req a send client rest calls) :
    ∀ ev ∈ rest, ev.phase ≠ some 1 ∧ ev.phase ≠ some 2 := by
  intro ev hev
  cases h with
  | refused => cases hev
  | unanswered =>
      rw [List.mem_singleton.mp hev]
      exact ⟨nofun, nofun⟩
  | relayed =>
      rcases List.mem_cons.mp hev with rfl | hev
      · exact ⟨nofun, nofun⟩
      rcases List.mem_append.mp hev with hev | hev
      · rw [phase_phase3Log hev]
        exact ⟨by decide, by decide⟩
      · rw [phase_write hev]
        exact ⟨nofun, nofun⟩

theorem Sent.logged (h : cfg.Sent req a send client rest calls) :
    rest.filterMap Event.op = calls := by
  cases h with
  | refused | unanswered => rfl
  | relayed =>
      rw [List.filterMap_cons_none rfl, List.filterMap_append,
        op_of_phase fun ev => phase_phase3Log, op_writes, List.nil_append]

theorem Sent.own (hb : a.bypass = false) (h : cfg.Sent req a send client rest calls) {i : Nat}
    {c : ProxyCtx} {state : SensitiveState} {stream : List Item}
    (hev : Event.phase3 i c state stream ∈ rest) :
    ∃ ext given out, cfg.extensions[i]? = some ext ∧
      Event.phase2 i c given ∈ phase2Log cfg.extensions (ctx req a) a.body ∧
      ext.onUpstreamBody c given = .ok (out, state) := by
  cases h with
  | refused => cases hev
  | unanswered => cases List.mem_singleton.mp hev
  | relayed hforward hsend hcalls =>
      rcases List.mem_cons.mp hev with hev | hev
      · cases hev
      rcases List.mem_append.mp hev with hev | hev
      · have hrun := runPhase2_of_forward hb hforward
        obtain ⟨hlen, hown⟩ := runPhase2_states hrun
        obtain ⟨j, hj⟩ := List.mem_iff_getElem?.mp hev
        obtain ⟨state', hstate, heq⟩ := (getElem?_phase3Log hlen _ j _).mp hj
        injection heq with hi hc hstate' _
        subst hi hc hstate'
        obtain ⟨ext, given, out, hext, hgiven, hout⟩ := hown i state hstate
        refine ⟨ext, given, out, hext, List.mem_iff_getElem?.mpr ⟨i, ?_⟩, hout⟩
        exact (getElem?_phase2Log _ i _).mpr
          ⟨(List.getElem?_eq_some_iff.mp hext).1, given, _, hgiven, rfl⟩
      · obtain ⟨op, -, heq⟩ := List.mem_map.mp hev
        cases heq

theorem Sent.stored (ha : cfg.admitted req = .ok a) (hb : a.bypass = false)
    (h : cfg.Sent req a send client rest calls) {k name : Text} {model : Option Text}
    {e : Exchange} (hev : Event.write (.put k name model e) ∈ rest) :
    ∃ u items, cfg.Relays req send a u items ∧ k = a.key ∧
      (e.chunks.flatMap fun c => c.data.bytes) = items.flatMap itemBytes := by
  cases h with
  | refused => cases hev
  | unanswered => cases List.mem_singleton.mp hev
  | @relayed wire states u _ hforward hsend hcalls =>
      rcases List.mem_cons.mp hev with hev | hev
      · cases hev
      rcases List.mem_append.mp hev with hev | hev
      · have := phase_phase3Log hev
        cases this
      · obtain ⟨op, hop, heq⟩ := List.mem_map.mp hev
        obtain rfl := Event.write.inj heq
        have hnot : ¬ a.bypass = true := by simp [hb]
        refine ⟨u, _, ⟨wire, states, ha, hforward, hsend, rfl⟩, ?_⟩
        rw [responseStream, if_neg hnot]
        rw [hcalls] at hop
        by_cases hcacheable : Cacheable a u
            (runPhase3 cfg.extensions (ctx req a) states u.stream) client
        · rw [writeCalls_of_cacheable hcacheable] at hop
          rcases List.mem_cons.mp hop with hop | hop
          · obtain ⟨rfl, -, -, rfl⟩ := Cache.Op.put.inj hop
            exact ⟨rfl, exchangeFor_bytes hcacheable⟩
          · obtain ⟨tid, -, hop⟩ := Option.map_eq_some_iff.mp (Option.mem_toList.mp hop)
            cases hop
        · rw [writeCalls_of_not_cacheable hcacheable] at hop
          cases hop

/-- A hook of the second phase that fails ends the miss. -/
theorem Sent.failed (hb : a.bypass = false) (h : cfg.Sent req a send client rest calls)
    {e : Text} (he : runPhase2 cfg.extensions (ctx req a) a.body = .error e) :
    rest = [] ∧ calls = [] := by
  cases h with
  | refused => exact ⟨rfl, rfl⟩
  | unanswered hforward | relayed hforward =>
      rw [runPhase2_of_forward hb hforward] at he
      cases he

/-- The third phase of a relayed miss. -/
theorem Sent.phase3 (hb : a.bypass = false)
    (h : cfg.Sent req a send client rest calls) {u : UpstreamResponse} {items : List Item}
    (hrelays : cfg.Relays req send a u items) :
    ∃ states wire, states.length = cfg.extensions.length ∧
      rest = .send wire :: (phase3Log cfg.extensions (ctx req a) states u.stream ++
        calls.map .write) ∧
      items = runPhase3 cfg.extensions (ctx req a) states u.stream := by
  obtain ⟨wire, states, -, hforward, hsend, rfl⟩ := hrelays
  have hnot : ¬ a.bypass = true := by simp [hb]
  have hrun := runPhase2_of_forward hb hforward
  refine ⟨states, wire, (runPhase2_states hrun).1, ?_, by rw [responseStream, if_neg hnot]⟩
  cases h with
  | refused he =>
      rw [hrun] at he
      cases he
  | unanswered hforward' hsend' =>
      obtain ⟨rfl, -⟩ := Prod.mk.inj (Except.ok.inj (hforward.symm.trans hforward'))
      rw [hsend] at hsend'
      cases hsend'
  | relayed hforward' hsend' =>
      obtain ⟨rfl, rfl⟩ := Prod.mk.inj (Except.ok.inj (hforward.symm.trans hforward'))
      obtain rfl := Except.ok.inj (hsend.symm.trans hsend')
      rfl

/-- A miss sends the wire that the second phase makes, if it makes one. -/
theorem Sent.sent (hb : a.bypass = false) (h : cfg.Sent req a send client rest calls)
    {wire : UpstreamRequest} :
    Event.send wire ∈ rest ↔ ∃ states, cfg.forward req a = .ok (wire, states) := by
  have hsent {wire' : UpstreamRequest} {states' : List SensitiveState}
      (hforward : cfg.forward req a = .ok (wire', states')) :
      wire = wire' ↔ ∃ states, cfg.forward req a = .ok (wire, states) := by
    constructor
    · rintro rfl
      exact ⟨states', hforward⟩
    · rintro ⟨states, hstates⟩
      exact (Prod.mk.inj (Except.ok.inj (hstates.symm.trans hforward))).1
  cases h with
  | refused he =>
      constructor
      · nofun
      · rintro ⟨states, hforward⟩
        rw [runPhase2_of_forward hb hforward] at he
        cases he
  | unanswered hforward => rw [← hsent hforward, List.mem_singleton, Event.send.injEq]
  | @relayed _ states u _ hforward =>
      have hlater : Event.send wire ∉ phase3Log cfg.extensions (ctx req a) states u.stream ++
          calls.map .write := by
        intro hev
        rcases List.mem_append.mp hev with hev | hev
        · cases phase_phase3Log hev
        · obtain ⟨op, -, heq⟩ := List.mem_map.mp hev
          cases heq
      rw [← hsent hforward, List.mem_cons, or_iff_left hlater, Event.send.injEq]

section Fields

variable (hp : Provider.fromPrefix req.providerStr = some provider)
variable (h : cfg.Course req provider found send client log calls)

include h

theorem Course.logged : log.filterMap Event.op = calls := by
  have hfirst : (phase1Log cfg.extensions (firstCtx req provider) req.body).filterMap Event.op =
      [] := op_of_phase fun ev => phase_phase1Log
  cases h with
  | refused => exact hfirst
  | bypassed =>
      rw [List.filterMap_append, hfirst]
      rfl
  | hit =>
      rw [List.filterMap_append, hfirst, List.nil_append, List.filterMap_cons_none rfl, op_writes]
  | missed _ _ _ hrest =>
      rw [List.filterMap_append, hfirst, List.nil_append, List.filterMap_cons_none rfl,
        List.filterMap_append, op_of_phase fun ev => phase_phase2Log, hrest.logged,
        List.nil_append]

theorem Course.first : ∃ later,
    log = phase1Log cfg.extensions (firstCtx req provider) req.body ++ later ∧
      ∀ ev ∈ later, ev.phase ≠ some 1 := by
  cases h with
  | refused => exact ⟨[], (List.append_nil _).symm, fun ev hev => by cases hev⟩
  | bypassed =>
      refine ⟨_, rfl, fun ev hev => ?_⟩
      rw [List.mem_singleton.mp hev]
      nofun
  | hit =>
      refine ⟨_, rfl, fun ev hev => ?_⟩
      rcases List.mem_cons.mp hev with rfl | hev
      · nofun
      · rw [phase_write hev]
        nofun
  | missed _ _ _ hrest =>
      refine ⟨_, rfl, fun ev hev => ?_⟩
      rcases List.mem_cons.mp hev with rfl | hev
      · nofun
      rcases List.mem_append.mp hev with hev | hev
      · rw [phase_phase2Log hev]
        decide
      · exact (hrest.phase_ne ev hev).1

/-- A lookup that is not answered leads to a miss. -/
theorem Course.missed_of (ha : cfg.admitted req = .ok a) (hb : a.bypass = false)
    (hfound : ∀ e, found a.key ≠ .ok (some e)) :
    ∃ later, log = phase1Log cfg.extensions (firstCtx req provider) req.body ++
        Event.lookup a.key :: (phase2Log cfg.extensions (ctx req a) a.body ++ later) ∧
      cfg.Sent req a send client later calls := by
  cases h with
  | refused hadmitted =>
      rw [ha] at hadmitted
      cases hadmitted
  | bypassed hadmitted hbypass =>
      obtain rfl := Except.ok.inj (ha.symm.trans hadmitted)
      rw [hb] at hbypass
      cases hbypass
  | hit hadmitted _ hfound' =>
      obtain rfl := Except.ok.inj (ha.symm.trans hadmitted)
      exact absurd hfound' (hfound _)
  | missed hadmitted _ _ hrest =>
      obtain rfl := Except.ok.inj (ha.symm.trans hadmitted)
      exact ⟨_, rfl, hrest⟩

theorem Course.unhooked (ha : cfg.admitted req = .ok a)
    (hexit : a.bypass = true ∨ ∃ e, found a.key = .ok (some e)) :
    ∀ ev ∈ log, ev.phase ≠ some 2 ∧ ev.phase ≠ some 3 := by
  have hfirst {ev : Event}
      (hev : ev ∈ phase1Log cfg.extensions (firstCtx req provider) req.body) :
      ev.phase ≠ some 2 ∧ ev.phase ≠ some 3 := by
    rw [phase_phase1Log hev]
    exact ⟨by decide, by decide⟩
  intro ev hev
  cases h with
  | refused => exact hfirst hev
  | bypassed =>
      rcases List.mem_append.mp hev with hev | hev
      · exact hfirst hev
      · rw [List.mem_singleton.mp hev]
        exact ⟨nofun, nofun⟩
  | hit =>
      rcases List.mem_append.mp hev with hev | hev
      · exact hfirst hev
      rcases List.mem_cons.mp hev with rfl | hev
      · exact ⟨nofun, nofun⟩
      · rw [phase_write hev]
        exact ⟨nofun, nofun⟩
  | missed hadmitted hbypass hfound =>
      obtain rfl := Except.ok.inj (ha.symm.trans hadmitted)
      rcases hexit with hb | ⟨e, he⟩
      · rw [hbypass] at hb
        cases hb
      · exact absurd he (hfound e)

/-- The hooks of the third phase stand together in the log, and what they make of the
stream is relayed. -/
theorem Course.relayed {u : UpstreamResponse} {items : List Item}
    (hrelays : cfg.Relays req send a u items) (hb : a.bypass = false)
    (hfound : ∀ e, found a.key ≠ .ok (some e)) :
    ∃ states front third back, log = front ++ third ++ back ∧
      (∀ ev ∈ front ++ back, ev.phase ≠ some 3) ∧
      states.length = cfg.extensions.length ∧
      (∀ i ev, third[i]? = some ev ↔ ∃ state, states[i]? = some state ∧
        ev = Event.phase3 i (ctx req a) state
          (runPhase3 (cfg.extensions.take i) (ctx req a) (states.take i) u.stream)) ∧
      items = runPhase3 cfg.extensions (ctx req a) states u.stream := by
  have ha : cfg.admitted req = .ok a := by
    obtain ⟨_, _, ha, -⟩ := hrelays
    exact ha
  obtain ⟨later, hlog, hrest⟩ := h.missed_of ha hb hfound
  obtain ⟨states, wire, hlen, hlater, hitems⟩ := hrest.phase3 hb hrelays
  refine ⟨states, phase1Log cfg.extensions (firstCtx req provider) req.body ++
    Event.lookup a.key :: (phase2Log cfg.extensions (ctx req a) a.body ++ [.send wire]),
    phase3Log cfg.extensions (ctx req a) states u.stream, calls.map .write, ?_, ?_, hlen,
    getElem?_phase3Log hlen u.stream, hitems⟩
  · rw [hlog, hlater]
    simp
  · intro ev hev
    rcases List.mem_append.mp hev with hev | hev
    · rcases List.mem_append.mp hev with hev | hev
      · rw [phase_phase1Log hev]
        decide
      rcases List.mem_cons.mp hev with rfl | hev
      · nofun
      rcases List.mem_append.mp hev with hev | hev
      · rw [phase_phase2Log hev]
        decide
      · rw [List.mem_singleton.mp hev]
        nofun
    · rw [phase_write hev]
      nofun

/-- What is logged as sent is the wire of a request that is not answered from the
cache. -/
theorem Course.sent {wire : UpstreamRequest} :
    Event.send wire ∈ log ↔ cfg.Missed req found ∧
      ∃ a states, cfg.admitted req = .ok a ∧ cfg.forward req a = .ok (wire, states) := by
  have hfirst : Event.send wire ∉
      phase1Log cfg.extensions (firstCtx req provider) req.body := by
    intro hev
    cases phase_phase1Log hev
  cases h with
  | refused hadmitted => simp [hfirst, hadmitted]
  | @bypassed a wire' hadmitted hbypass hforward =>
      have hmissed : cfg.Missed req found :=
        missed_of_admitted hadmitted fun hb => absurd (hbypass.symm.trans hb) Bool.noConfusion
      rw [List.mem_append, or_iff_right hfirst, List.mem_singleton, Event.send.injEq]
      constructor
      · rintro rfl
        exact ⟨hmissed, a, [], hadmitted, hforward⟩
      · rintro ⟨-, a', states, ha', hforward'⟩
        obtain rfl := Except.ok.inj (hadmitted.symm.trans ha')
        exact (Prod.mk.inj (Except.ok.inj (hforward'.symm.trans hforward))).1
  | @hit a e hadmitted hbypass hfound =>
      have hcalls : Event.send wire ∉ (traceCalls a).map Event.write := by
        intro hev
        obtain ⟨op, -, heq⟩ := List.mem_map.mp hev
        cases heq
      constructor
      · intro hev
        rcases List.mem_cons.mp ((List.mem_append.mp hev).resolve_left hfirst) with hev | hev
        · cases hev
        · exact absurd hev hcalls
      · rintro ⟨hmissed, -⟩
        exact absurd hfound (hmissed a hadmitted hbypass e)
  | @missed a rest _ hadmitted hbypass hfound hrest =>
      have hmissed : cfg.Missed req found := missed_of_admitted hadmitted fun _ => hfound
      have hsecond : Event.send wire ∉ phase2Log cfg.extensions (ctx req a) a.body := by
        intro hev
        cases phase_phase2Log hev
      rw [List.mem_append, or_iff_right hfirst, List.mem_cons, or_iff_right (by nofun),
        List.mem_append, or_iff_right hsecond, hrest.sent hbypass]
      constructor
      · rintro ⟨states, hforward⟩
        exact ⟨hmissed, a, states, hadmitted, hforward⟩
      · rintro ⟨-, a', states, ha', hforward⟩
        obtain rfl := Except.ok.inj (hadmitted.symm.trans ha')
        exact ⟨states, hforward⟩

theorem Course.own {i : Nat} {c : ProxyCtx} {state : SensitiveState} {stream : List Item}
    (hev : Event.phase3 i c state stream ∈ log) :
    ∃ ext given out, cfg.extensions[i]? = some ext ∧ Event.phase2 i c given ∈ log ∧
      ext.onUpstreamBody c given = .ok (out, state) := by
  have hfirst : Event.phase3 i c state stream ∉
      phase1Log cfg.extensions (firstCtx req provider) req.body := by
    intro hev
    cases phase_phase1Log hev
  cases h with
  | refused => exact absurd hev hfirst
  | bypassed => cases List.mem_singleton.mp ((List.mem_append.mp hev).resolve_left hfirst)
  | hit =>
      rcases List.mem_cons.mp ((List.mem_append.mp hev).resolve_left hfirst) with hev | hev
      · cases hev
      · cases phase_write hev
  | missed hadmitted hbypass hfound hrest =>
      rcases List.mem_cons.mp ((List.mem_append.mp hev).resolve_left hfirst) with hev | hev
      · cases hev
      rcases List.mem_append.mp hev with hev | hev
      · cases phase_phase2Log hev
      · obtain ⟨ext, given, out, hext, hgiven, hout⟩ := hrest.own hbypass hev
        refine ⟨ext, given, out, hext, ?_, hout⟩
        exact List.mem_append_right _ (List.mem_cons_of_mem _ (List.mem_append_left _ hgiven))

theorem Course.stored {k name : Text} {model : Option Text} {e : Exchange}
    (hev : Event.write (.put k name model e) ∈ log) :
    ∃ a u items, cfg.Relays req send a u items ∧ a.bypass = false ∧
      (∀ e, found a.key ≠ .ok (some e)) ∧ k = a.key ∧
      (e.chunks.flatMap fun c => c.data.bytes) = items.flatMap itemBytes := by
  have hfirst : Event.write (.put k name model e) ∉
      phase1Log cfg.extensions (firstCtx req provider) req.body := by
    intro hev
    cases phase_phase1Log hev
  cases h with
  | refused => exact absurd hev hfirst
  | bypassed => cases List.mem_singleton.mp ((List.mem_append.mp hev).resolve_left hfirst)
  | hit =>
      rcases List.mem_cons.mp ((List.mem_append.mp hev).resolve_left hfirst) with hev | hev
      · cases hev
      · obtain ⟨op, hop, heq⟩ := List.mem_map.mp hev
        obtain ⟨tid, -, rfl⟩ := Option.map_eq_some_iff.mp (Option.mem_toList.mp hop)
        cases heq
  | @missed a _ _ hadmitted hbypass hfound hrest =>
      rcases List.mem_cons.mp ((List.mem_append.mp hev).resolve_left hfirst) with hev | hev
      · cases hev
      rcases List.mem_append.mp hev with hev | hev
      · cases phase_phase2Log hev
      · obtain ⟨u, items, hrelays, hkey, hbytes⟩ := hrest.stored hadmitted hbypass hev
        exact ⟨a, u, items, hrelays, hbypass, hfound, hkey, hbytes⟩

include hp in
/-- A failed hook is the last event of its phase, and the phase is the last one of
the request. -/
theorem Course.failed {front back : List Event} {ev : Event} (hlog : log = front ++ ev :: back)
    (hfails : ev.Fails cfg.extensions) :
    back = [] ∧ (∀ ev' ∈ front, ev'.early = true) ∧ calls = [] := by
  have hphase := phase_of_fails hfails
  -- an admitted request has a first phase without failures
  have hlater {a : Admitted} {later : List Event} (ha : cfg.admitted req = .ok a)
      (hlog : phase1Log cfg.extensions (firstCtx req provider) req.body ++ later =
        front ++ ev :: back) :
      ∃ mid, front = phase1Log cfg.extensions (firstCtx req provider) req.body ++ mid ∧
        later = mid ++ ev :: back := by
    rcases split_append hlog with ⟨mid, hmid, -⟩ | hmid
    · obtain ⟨-, e, he⟩ := phase1Log_failed hmid hfails
      have hok := (admitted_spec ha).2.1
      rw [admitted_provider hp ha] at hok
      rw [firstCtx, hok] at he
      cases he
    · exact hmid
  have hnot {xs ys : List Event} (hsplit : xs = ys ++ ev :: back)
      (hxs : ∀ ev ∈ xs, ev.phase ≠ some 1 ∧ ev.phase ≠ some 2) : False := by
    have := hxs ev (by rw [hsplit]; simp)
    tauto
  cases h with
  | refused =>
      obtain ⟨rfl, -⟩ := phase1Log_failed hlog hfails
      refine ⟨rfl, fun ev' hev' => early_of_phase (Or.inl ?_), rfl⟩
      have hmem : ev' ∈ phase1Log cfg.extensions (firstCtx req provider) req.body := by
        rw [hlog]
        exact List.mem_append_left _ hev'
      exact phase_phase1Log hmem
  | bypassed ha =>
      obtain ⟨mid, -, hmid⟩ := hlater ha hlog
      refine (hnot hmid fun ev hev => ?_).elim
      rw [List.mem_singleton.mp hev]
      exact ⟨nofun, nofun⟩
  | hit ha =>
      obtain ⟨mid, -, hmid⟩ := hlater ha hlog
      refine (hnot hmid fun ev hev => ?_).elim
      rcases List.mem_cons.mp hev with rfl | hev
      · exact ⟨nofun, nofun⟩
      · rw [phase_write hev]
        exact ⟨nofun, nofun⟩
  | @missed a rest _ ha hb hfound hrest =>
      obtain ⟨mid, rfl, hmid⟩ := hlater ha hlog
      cases mid with
      | nil =>
          obtain ⟨rfl, -⟩ := List.cons.inj hmid
          rcases hphase with hphase | hphase <;> cases hphase
      | cons first mid =>
          obtain ⟨rfl, hrestlog⟩ := List.cons.inj hmid
          rcases split_append hrestlog with ⟨tail, htail, rfl⟩ | ⟨tail, -, htail⟩
          · obtain ⟨rfl, e, he⟩ := phase2Log_failed htail hfails
            obtain ⟨rfl, hcalls⟩ := hrest.failed hb he
            refine ⟨rfl, fun ev' hev' => ?_, hcalls⟩
            rcases List.mem_append.mp hev' with hev' | hev'
            · exact early_of_phase (Or.inl (phase_phase1Log hev'))
            rcases List.mem_cons.mp hev' with rfl | hev'
            · rfl
            · have hmem : ev' ∈ phase2Log cfg.extensions (ctx req a) a.body := by
                rw [htail]
                exact List.mem_append_left _ hev'
              exact early_of_phase (Or.inr (phase_phase2Log hmem))
          · exact (hnot htail hrest.phase_ne).elim

end Fields

/-- Whatever the registered extensions do, every request to a known provider
keeps the discipline. -/
theorem handle_disciplined (cfg : ServerConfig) (req : Request)
    (found : Text → Except CacheError (Option Exchange))
    (send : UpstreamRequest → Except Text UpstreamResponse) (client : Client)
    (hp : Provider.fromPrefix req.providerStr = some provider) :
    Disciplined cfg req provider found send (cfg.log req found send client)
      (cfg.handle req found send client).calls := by
  have h : cfg.Course req provider found send client _ _ := handle_course hp
  constructor
  · exact h.logged
  · obtain ⟨later, hlog, hlater⟩ := h.first
    exact ⟨_, later, hlog, hlater, getElem?_phase1Log req.body⟩
  · intro a ha
    obtain ⟨-, hbody, -, hkey⟩ := admitted_spec ha
    rw [admitted_provider hp ha] at hbody hkey
    exact ⟨hbody, hkey⟩
  · exact fun a ha hexit => h.unhooked ha hexit
  · intro a ha hb hfound
    obtain ⟨later, hlog, hrest⟩ := h.missed_of ha hb hfound
    exact ⟨_, _, later, hlog, fun ev => phase_phase1Log, hrest.phase_ne,
      getElem?_phase2Log a.body⟩
  · exact fun i c state stream hev => h.own hev
  · exact fun a u items hrelays hb hfound => h.relayed hrelays hb hfound
  · exact fun k name model e hev => h.stored hev
  · exact fun front ev back hlog hfails => h.failed hp hlog hfails

/-! ### What is sent and what is relayed -/

/-- The handler asks the upstream for nothing but the wire in its log. -/
theorem handle_asks {send' : UpstreamRequest → Except Text UpstreamResponse}
    (h : ∀ wire, Event.send wire ∈ cfg.log req found send client → send' wire = send wire) :
    cfg.handle req found send' client = cfg.handle req found send client := by
  cases ha : cfg.admitted req with
  | error response => simp only [handle, ha]
  | ok a =>
      by_cases hmissed : cfg.Missed req found
      · rw [handle_of_missed hmissed ha, handle_of_missed hmissed ha]
        cases hforward : cfg.forward req a with
        | error response => simp only [handleMiss, hforward]
        | ok p =>
            have hcourse : cfg.Course req a.provider found send client _ _ :=
              handle_course (admitted_spec ha).1
            have hlogged : Event.send p.1 ∈ cfg.log req found send client :=
              hcourse.sent.mpr ⟨hmissed, a, p.2, ha, hforward⟩
            simp only [handleMiss, hforward, h p.1 hlogged]
      · obtain ⟨e, hb, hfound⟩ : ∃ e, a.bypass = false ∧ found a.key = .ok (some e) := by
          by_contra hnone
          refine hmissed fun a' ha' hb' e he => hnone ⟨e, ?_⟩
          obtain rfl := Except.ok.inj (ha.symm.trans ha')
          exact ⟨hb', he⟩
        rw [handle_of_found ha hb hfound, handle_of_found ha hb hfound]

/-- The stream that is relayed is the one behind the last hook in the log; where
the log has no hook of the third phase, it is the stream of the upstream. -/
theorem handle_relays_logged (hp : Provider.fromPrefix req.providerStr = some provider)
    (hmissed : cfg.Missed req found) {u : UpstreamResponse} {items : List Item}
    (hrelays : cfg.Relays req send a u items) :
    (∀ i c state stream, Event.phase3 i c state stream ∈ cfg.log req found send client →
      i + 1 = cfg.extensions.length →
        ∃ ext, cfg.extensions[i]? = some ext ∧ items = ext.onResponseStream c state stream) ∧
      ((∀ ev ∈ cfg.log req found send client, ev.phase ≠ some 3) → items = u.stream) := by
  have h : cfg.Course req provider found send client _ _ := handle_course hp
  have ha : cfg.admitted req = .ok a := by
    obtain ⟨_, _, ha, -⟩ := hrelays
    exact ha
  by_cases hb : a.bypass = true
  · have hitems : items = u.stream := by
      obtain ⟨wire, states, -, -, -, rfl⟩ := hrelays
      rw [responseStream, if_pos hb]
    refine ⟨fun i c state stream hev => ?_, fun _ => hitems⟩
    exact absurd rfl (h.unhooked ha (Or.inl hb) _ hev).2
  · have hb' : a.bypass = false := by simpa using hb
    obtain ⟨states, front, third, back, hlog, hother, hlen, hthird, hitems⟩ :=
      h.relayed hrelays hb' (hmissed a ha hb')
    constructor
    · intro i c state stream hev hlast
      have hmem : Event.phase3 i c state stream ∈ third := by
        rw [hlog, List.append_assoc, List.mem_append, List.mem_append] at hev
        rcases hev with hev | hev | hev
        · exact absurd rfl (hother _ (List.mem_append_left _ hev))
        · exact hev
        · exact absurd rfl (hother _ (List.mem_append_right _ hev))
      obtain ⟨j, hj⟩ := List.mem_iff_getElem?.mp hmem
      obtain ⟨state', hstate, heq⟩ := (hthird j _).mp hj
      injection heq with hi hc hstate' hstream
      subst hi hc hstate' hstream
      have hext : cfg.extensions[i]? = some (cfg.extensions.get ⟨i, by omega⟩) :=
        List.getElem?_eq_getElem _
      exact ⟨_, hext, by rw [hitems, runPhase3_of_last hext hstate hlast.symm hlen]⟩
    · intro hnone
      have hempty : cfg.extensions = [] := by
        by_contra hne
        have hpos : 0 < states.length := by
          rw [hlen]
          exact List.length_pos_iff.mpr hne
        have hev := (hthird 0 _).mpr ⟨states[0], List.getElem?_eq_getElem hpos, rfl⟩
        have hmem : _ ∈ front ++ third ++ back :=
          List.mem_append_left back (List.mem_append_right front (List.mem_of_getElem? hev))
        exact hnone _ (hlog ▸ hmem) rfl
      rw [hitems, hempty]
      rfl

end Discipline

/-! ### Two extensions -/

/-- An extension that signs the body and the stream with its own byte. -/
def signing (mark : UInt8) : Extension where
  onRequestBody _ body := .ok (body ++ [mark])
  onUpstreamBody _ body := .ok (body ++ [mark], ⟨fun _ => Text.ofUtf8? [mark]⟩)
  onResponseStream _ state stream := stream ++ ((state.get "mark").map fun t => .ok t.bytes).toList

def signingConfig : ServerConfig :=
  { sampleConfig with extensions := [signing 0x61, signing 0x62] }

theorem handle_disciplined_signing :
    Disciplined signingConfig (filesRequest "pageToken=a") .gemini (fun _ => .ok none)
      (fun _ => .ok cutResponse)
      (signingConfig.log (filesRequest "pageToken=a") (fun _ => .ok none)
        (fun _ => .ok cutResponse) eagerClient)
      (signingConfig.handle (filesRequest "pageToken=a") (fun _ => .ok none)
        (fun _ => .ok cutResponse) eagerClient).calls :=
  handle_disciplined _ _ _ _ _ rfl

example : (signingConfig.log (filesRequest "pageToken=a") (fun _ => .ok none)
    (fun _ => .ok cutResponse) eagerClient).map Event.phase =
      [some 1, some 1, none, some 2, some 2, none, some 3, some 3, none] := by
  decide +kernel

end ServerConfig

end LlmCacheProxy
