import LlmCacheProxy.Pipeline

/-!
# Traces and purges

A traced request looks its entry up or stores it, and records the trace later.
A purge in between takes the entry away, and the row that is recorded then
belongs to no entry. Runs in which no purge falls there keep every row in order.
-/

namespace LlmCacheProxy

/-- A call of the cache, with the trace that its request names. -/
structure TracedCall where
  time : Int
  traceId : Option Text
  op : Cache.Op

/-- The tables after some calls, the latest first. -/
def Cache.afterCalls (c : Cache) (calls : List TracedCall) : Db :=
  c.after (calls.map fun call => (call.time, call.op))

/-- Requests and purges so far. -/
structure Traffic where
  /-- Latest first. -/
  calls : List TracedCall
  /-- The calls that each request has yet to make, with its trace. -/
  pending : List (Option Text × List Cache.Op)

namespace Traffic

def init : Traffic := ⟨[], []⟩

def db (c : Cache) (s : Traffic) : Db := c.afterCalls s.calls

/-- No request stands between the call that gives it its entry and the one that
records its trace. -/
def Settled (s : Traffic) : Prop :=
  ∀ p ∈ s.pending, ∀ g k rest, p.2 ≠ .recordTrace g k :: rest

end Traffic

/-- The call is made for the trace `g`, and the entry of `k` is there after it. -/
def TracedCall.Touches (c : Cache) (g k : Text) (call : TracedCall) (earlier : List TracedCall) :
    Prop :=
  call.traceId = some g ∧
    match call.op with
    | .put key _ _ _ => key = k
    | .get key => key = k ∧ ∃ e, (c.get call.time key (c.afterCalls earlier)).1 = .ok (some e)
    | _ => False

/-- Some request of the trace `g` has been given or has stored the entry of `k`
since the last purge. -/
def Touched (c : Cache) (g k : Text) : List TracedCall → Prop
  | [] => False
  | call :: earlier =>
      call.op ≠ .clearEntries ∧ (call.Touches c g k earlier ∨ Touched c g k earlier)

/-- Every row of a trace belongs to an entry that is there and that the trace has
touched since the last purge. -/
structure TracesKept (c : Cache) (s : Traffic) : Prop where
  present : ∀ g k, (g, k) ∈ (s.db c).traceEntries.rows → ((s.db c).entries.find? k).isSome
  touched : ∀ g k, (g, k) ∈ (s.db c).traceEntries.rows → Touched c g k s.calls
  listed : ∀ g, ∀ e ∈ Cache.getTrace g (s.db c), Touched c g e.key s.calls

namespace ServerConfig

variable (cfg : ServerConfig) (c : Cache)

def tracedLookup (req : Request) (now : Int) : List TracedCall :=
  match cfg.admitted req with
  | .ok a => if a.bypass then [] else [⟨now, a.traceId, .get a.key⟩]
  | .error _ => []

/-- One step of the traffic, with purges where `mayPurge` allows them. -/
inductive Moves (mayPurge : Traffic → Prop) : Traffic → Traffic → Prop where
  /-- A request is looked up; the rest of its calls follow later. -/
  | arrive (s : Traffic) (req : Request) (now : Int)
      (send : UpstreamRequest → Except Text UpstreamResponse) (client : Client) :
      Moves mayPurge s ⟨cfg.tracedLookup req now ++ s.calls,
        (headerStr req.headers "x-lcp-trace",
          (cfg.handle req (fun k => (c.get now k (s.db c)).1) send client).calls) :: s.pending⟩
  /-- Some request makes its next call. -/
  | call (s : Traffic) (now : Int) (traceId : Option Text) (op : Cache.Op)
      (rest : List Cache.Op) (before after : List (Option Text × List Cache.Op))
      (next : s.pending = before ++ (traceId, op :: rest) :: after) :
      Moves mayPurge s ⟨⟨now, traceId, op⟩ :: s.calls, before ++ (traceId, rest) :: after⟩
  /-- `DELETE /cache`. -/
  | purge (s : Traffic) (now : Int) (h : mayPurge s) :
      Moves mayPurge s ⟨⟨now, none, .clearEntries⟩ :: s.calls, s.pending⟩

inductive MovesTo (mayPurge : Traffic → Prop) : Traffic → Prop where
  | init : MovesTo mayPurge .init
  | step {s t : Traffic} : MovesTo mayPurge s → cfg.Moves c mayPurge s t → MovesTo mayPurge t

end ServerConfig

/-! ### One call -/

section Calls

variable {c : Cache} {now : Int} {db : Db} {g k : Text} {op : Cache.Op}

/-- An entry stays until the next purge. -/
theorem Cache.exec_present (hop : op ≠ .clearEntries) (h : (db.entries.find? k).isSome) :
    ((c.exec now op db).2.entries.find? k).isSome := by
  cases op with
  | get key =>
      have hget : (c.get now key db).2.entries = db.entries ∨
          (c.get now key db).2.entries = (db.hit key).entries := by
        rw [Cache.get]
        split
        · exact Or.inl rfl
        · split
          · exact Or.inl rfl
          · exact Or.inr rfl
      rcases hget with heq | heq
      · rwa [Cache.exec, heq]
      · rw [Cache.exec, heq, Db.find?_hit]
        split
        · rwa [Option.isSome_map]
        · exact h
  | put key provider model exchange =>
      rw [Cache.exec, Cache.put, Table.find?_replace]
      split
      · rfl
      · exact h
  | clearEntries => exact absurd rfl hop
  | recordTrace | getTrace | stats | clearStats | listEntries | inspect | inspectTrace => exact h

/-- A row of a trace was there before, or has just been recorded. -/
theorem Cache.exec_traced (h : (g, k) ∈ (c.exec now op db).2.traceEntries.rows) :
    op ≠ .clearEntries ∧ (op = .recordTrace g k ∨ (g, k) ∈ db.traceEntries.rows) := by
  cases op with
  | get key =>
      have hget : (c.get now key db).2.traceEntries = db.traceEntries := by
        rw [Cache.get]
        split
        · rfl
        · split <;> rfl
      rw [Cache.exec, hget] at h
      exact ⟨(fun heq => by cases heq), Or.inr h⟩
  | recordTrace g' k' =>
      rw [Cache.exec, Cache.recordTrace, Table.mem_insertIgnore] at h
      refine ⟨(fun heq => by cases heq), h.imp (fun heq => ?_) id⟩
      obtain ⟨rfl, rfl⟩ := Prod.mk.inj heq
      rfl
  | clearEntries => cases h
  | put | getTrace | stats | clearStats | listEntries | inspect | inspectTrace =>
      exact ⟨(fun heq => by cases heq), Or.inr h⟩

/-- A lookup that is answered finds a row. -/
theorem Cache.present_of_get {e : Exchange} (h : (c.get now k db).1 = .ok (some e)) :
    (db.entries.find? k).isSome := by
  rw [Cache.get] at h
  cases hrow : db.entries.find? k with
  | none =>
      rw [hrow] at h
      cases h
  | some row => rfl

/-- The entry of `k` is there, and the trace `g` has touched it. -/
def Held (c : Cache) (g k : Text) (calls : List TracedCall) : Prop :=
  ((c.afterCalls calls).entries.find? k).isSome ∧ Touched c g k calls

theorem Held.call {calls : List TracedCall} (h : Held c g k calls) {call : TracedCall}
    (hop : call.op ≠ .clearEntries) : Held c g k (call :: calls) :=
  ⟨Cache.exec_present hop h.1, hop, Or.inr h.2⟩

/-- What a request may have yet to do: nothing, to store its entry and then
record its trace, or to record the trace of an entry that it holds. -/
inductive Owes (c : Cache) (calls : List TracedCall) (traceId : Option Text) :
    List Cache.Op → Prop where
  | nothing : Owes c calls traceId []
  | put (k provider : Text) (model : Option Text) (e : Exchange) :
      Owes c calls traceId (.put k provider model e ::
        (traceId.map fun g => Cache.Op.recordTrace g k).toList)
  | trace {g k : Text} (htrace : traceId = some g) (hheld : Held c g k calls) :
      Owes c calls traceId [.recordTrace g k]

theorem Owes.of_held {calls : List TracedCall} {traceId : Option Text}
    (h : ∀ g, traceId = some g → Held c g k calls) :
    Owes c calls traceId (traceId.map fun g => Cache.Op.recordTrace g k).toList := by
  cases traceId with
  | none => exact .nothing
  | some g => exact .trace rfl (h g rfl)

theorem Owes.call {calls : List TracedCall} {traceId : Option Text} {ops : List Cache.Op}
    (h : Owes c calls traceId ops) {call : TracedCall} (hop : call.op ≠ .clearEntries) :
    Owes c (call :: calls) traceId ops := by
  cases h with
  | nothing => exact .nothing
  | put => exact .put ..
  | trace htrace hheld => exact .trace htrace (hheld.call hop)

end Calls

namespace ServerConfig

variable {cfg : ServerConfig} {c : Cache}

/-- The calls of a request: none, or those of its trace behind an answered lookup
or behind the call that stores its entry. -/
theorem handle_calls_cases (cfg : ServerConfig) (req : Request)
    (found : Text → Except CacheError (Option Exchange))
    (send : UpstreamRequest → Except Text UpstreamResponse) (client : Client) :
    (cfg.handle req found send client).calls = [] ∨
      ∃ a, cfg.admitted req = .ok a ∧ a.bypass = false ∧
        ((∃ e, found a.key = .ok (some e)) ∧
            (cfg.handle req found send client).calls = traceCalls a ∨
          ∃ provider model e, (cfg.handle req found send client).calls =
            .put a.key provider model e :: traceCalls a) := by
  cases hp : Provider.fromPrefix req.providerStr with
  | none =>
      left
      simp only [handle, admitted, hp, Handled.failed]
  | some provider =>
      have hcourse : cfg.Course req provider found send client
        (cfg.log req found send client) (cfg.handle req found send client).calls := handle_course hp
      generalize cfg.log req found send client = log at hcourse
      generalize (cfg.handle req found send client).calls = calls at hcourse ⊢
      cases hcourse with
      | refused | bypassed => exact Or.inl rfl
      | hit ha hb hfound => exact Or.inr ⟨_, ha, hb, Or.inl ⟨⟨_, hfound⟩, rfl⟩⟩
      | @missed a _ _ ha hb _ hsent =>
          cases hsent with
          | refused | unanswered => exact Or.inl rfl
          | @relayed _ states u _ _ _ hwrites =>
              rw [hwrites]
              by_cases hcacheable : Cacheable a u
                  (runPhase3 cfg.extensions (ctx req a) states u.stream) client
              · exact Or.inr ⟨a, ha, hb, Or.inr ⟨_, _, _, writeCalls_of_cacheable hcacheable⟩⟩
              · exact Or.inl (writeCalls_of_not_cacheable hcacheable)

theorem admitted_traceId {req : Request} {a : Admitted} (h : cfg.admitted req = .ok a) :
    a.traceId = headerStr req.headers "x-lcp-trace" := by
  rw [admitted] at h
  split at h
  · cases h
  · split at h
    · cases h
    · obtain rfl := Except.ok.inj h
      rfl

/-! ### Runs -/

/-- What every run without a purge at the wrong time keeps. -/
structure InOrder (c : Cache) (s : Traffic) : Prop where
  rows : ∀ g k, (g, k) ∈ (s.db c).traceEntries.rows → Held c g k s.calls
  pending : ∀ p ∈ s.pending, Owes c s.calls p.1 p.2

/-- A call that is no purge keeps the rows in order if a trace that it records is
held. -/
theorem InOrder.rows_call {s : Traffic} (hs : InOrder c s) {call : TracedCall}
    (hop : call.op ≠ .clearEntries)
    (hrecord : ∀ g k, call.op = .recordTrace g k → Held c g k s.calls) :
    ∀ g k, (g, k) ∈ (c.afterCalls (call :: s.calls)).traceEntries.rows →
      Held c g k (call :: s.calls) := by
  intro g k hrow
  obtain ⟨-, hnew | hold⟩ := Cache.exec_traced hrow
  · exact (hrecord g k hnew).call hop
  · exact (hs.rows g k hold).call hop

theorem InOrder.arrive {s : Traffic} (hs : InOrder c s) (req : Request) (now : Int)
    (send : UpstreamRequest → Except Text UpstreamResponse) (client : Client) :
    InOrder c ⟨cfg.tracedLookup req now ++ s.calls,
      (headerStr req.headers "x-lcp-trace",
        (cfg.handle req (fun k => (c.get now k (s.db c)).1) send client).calls) :: s.pending⟩ := by
  have hlookup : cfg.tracedLookup req now = [] ∨
      ∃ a, cfg.admitted req = .ok a ∧
        cfg.tracedLookup req now = [⟨now, a.traceId, .get a.key⟩] := by
    rw [tracedLookup]
    cases ha : cfg.admitted req with
    | error response => exact Or.inl rfl
    | ok a =>
        by_cases hb : a.bypass = true
        · exact Or.inl (if_pos hb)
        · exact Or.inr ⟨a, rfl, if_neg hb⟩
  have hget (a : Admitted) : (⟨now, a.traceId, .get a.key⟩ : TracedCall).op ≠ .clearEntries := nofun
  constructor
  · rcases hlookup with heq | ⟨a, -, heq⟩ <;> rw [heq]
    · exact hs.rows
    · exact hs.rows_call (hget a) fun g k hrecord => by cases hrecord
  · intro p hp
    rcases List.mem_cons.mp hp with rfl | hp
    · rcases handle_calls_cases cfg req (fun k => (c.get now k (s.db c)).1) send client with
        hnone | ⟨a, ha, hb, ⟨⟨e, he⟩, hcalls⟩ | ⟨provider, model, e, hcalls⟩⟩
      · rw [hnone]
        exact .nothing
      · have hcall : cfg.tracedLookup req now = [⟨now, a.traceId, .get a.key⟩] := by
          rw [tracedLookup, ha]
          simp only [hb, Bool.false_eq_true, if_false]
        rw [hcalls, hcall, traceCalls, ← admitted_traceId ha]
        refine Owes.of_held fun g hg => ⟨?_, hget a, Or.inl ⟨hg, rfl, e, he⟩⟩
        exact Cache.exec_present (hget a) (Cache.present_of_get he)
      · rw [hcalls, traceCalls, ← admitted_traceId ha]
        exact .put ..
    · have hold := hs.pending p hp
      rcases hlookup with heq | ⟨a, -, heq⟩ <;> rw [heq]
      · exact hold
      · exact hold.call (hget a)

theorem InOrder.call {s : Traffic} (hs : InOrder c s) (now : Int) {traceId : Option Text}
    {op : Cache.Op} {rest : List Cache.Op} {before after : List (Option Text × List Cache.Op)}
    (next : s.pending = before ++ (traceId, op :: rest) :: after) :
    InOrder c ⟨⟨now, traceId, op⟩ :: s.calls, before ++ (traceId, rest) :: after⟩ := by
  have howes : Owes c s.calls traceId (op :: rest) :=
    hs.pending (traceId, op :: rest) (by simp [next])
  have hop : op ≠ .clearEntries := by
    intro heq
    rw [heq] at howes
    cases howes
  constructor
  · apply hs.rows_call hop
    intro g k hrecord
    obtain rfl : op = .recordTrace g k := hrecord
    cases howes with
    | trace _ hheld => exact hheld
  · intro p hp
    rcases List.mem_append.mp hp with hp | hp
    · exact (hs.pending p (by simp [next, hp])).call hop
    rcases List.mem_cons.mp hp with rfl | hp
    · cases howes with
      | trace => exact .nothing
      | put k provider model e =>
          refine Owes.of_held fun g hg => ⟨?_, hop, Or.inl ⟨hg, rfl⟩⟩
          have hrow : (c.afterCalls (⟨now, traceId, .put k provider model e⟩ ::
              s.calls)).entries.find? k = some (c.rowOf now k provider model e) :=
            (Table.find?_replace _ _ _).trans (if_pos rfl)
          rw [hrow]
          rfl
    · exact (hs.pending p (by simp [next, hp])).call hop

theorem InOrder.purge {s : Traffic} (hs : InOrder c s) (hsettled : s.Settled) (now : Int) :
    InOrder c ⟨⟨now, none, .clearEntries⟩ :: s.calls, s.pending⟩ := by
  constructor
  · intro g k hrow
    exact absurd rfl (Cache.exec_traced hrow).1
  · intro p hp
    have howes := hs.pending p hp
    have hfree := hsettled p hp
    generalize p.2 = ops at howes hfree
    cases howes with
    | nothing => exact .nothing
    | put k provider model e => exact .put ..
    | trace => exact absurd rfl (hfree _ _ _)

theorem MovesTo.inOrder {s : Traffic} (h : cfg.MovesTo c Traffic.Settled s) : InOrder c s := by
  induction h with
  | init =>
      constructor
      · intro g k hrow
        cases hrow
      · intro p hp
        cases hp
  | step _ hmove ih =>
      cases hmove with
      | arrive req now send client => exact ih.arrive req now send client
      | call now traceId op rest before after next => exact ih.call now next
      | purge now hsettled => exact ih.purge hsettled now

theorem InOrder.kept {s : Traffic} (h : InOrder c s) : TracesKept c s := by
  refine ⟨fun g k hrow => (h.rows g k hrow).1, fun g k hrow => (h.rows g k hrow).2, ?_⟩
  intro g e he
  obtain ⟨row, hrow, rfl⟩ := List.mem_map.mp he
  rw [Cache.traceRows, List.mem_insertionSort, List.mem_filter, decide_eq_true_eq] at hrow
  exact (h.rows g row.key hrow.2).2

/-- A purge at the wrong time, and the call that it overtakes. -/
theorem not_kept_of_not_settled {s : Traffic} (h : ¬ s.Settled) :
    ∃ u t, cfg.Moves c (fun _ => True) s u ∧ cfg.Moves c (fun _ => True) u t ∧
      ¬ TracesKept c t := by
  simp only [Traffic.Settled, not_forall, not_not] at h
  obtain ⟨⟨traceId, ops⟩, hp, g, k, rest, rfl⟩ := h
  obtain ⟨before, after, hsplit⟩ := List.append_of_mem hp
  refine ⟨_, _, .purge s 0 trivial, .call _ 0 traceId (.recordTrace g k) rest before after
    hsplit, ?_⟩
  intro hkept
  have hrow : (g, k) ∈ (c.afterCalls (⟨0, traceId, .recordTrace g k⟩ ::
      ⟨0, none, .clearEntries⟩ :: s.calls)).traceEntries.rows :=
    Table.mem_insertIgnore.mpr (Or.inl rfl)
  cases hkept.present g k hrow

/-- Every row of a trace belongs to a present entry that the trace has touched
since the last purge, in every state of every run whose purges fall where no
request stands before the recording of its trace; everywhere else one more call
behind the purge leaves a row that does not. -/
theorem tracesKept_of_settled (cfg : ServerConfig) (c : Cache) :
    (∀ s, cfg.MovesTo c Traffic.Settled s → TracesKept c s) ∧
      ∀ s : Traffic, ¬ s.Settled → ∃ u t, cfg.Moves c (fun _ => True) s u ∧
        cfg.Moves c (fun _ => True) u t ∧ ¬ TracesKept c t :=
  ⟨fun _ h => h.inOrder.kept, fun _ h => not_kept_of_not_settled h⟩

/-! ### A traced page -/

/-- A page of a list of files, requested under the trace `t` or under none. -/
def pageRequest (trace : Option Text) : Request :=
  ⟨"GET", "gemini", "v1beta/files", none,
    (trace.map fun g => ((("x-lcp-trace" : Text), g.bytes) : Text × Bytes)).toList, []⟩

def pageAdmitted (trace : Option Text) : Admitted := { filesAdmitted with traceId := trace }

noncomputable def pageCache : Cache := ⟨Cache.sampleCrates, 0⟩

def pageExchange (trace : Option Text) : Exchange :=
  exchangeFor (pageRequest trace) (pageAdmitted trace) cutResponse cutResponse.stream eagerClient

/-- The call that stores the page. -/
def pagePut (trace : Option Text) : Cache.Op :=
  .put filesAdmitted.key "gemini" none (pageExchange trace)

private theorem admitted_pageRequest {trace : Option Text}
    (h : trace = none ∨ trace = some ("t" : Text)) :
    sampleConfig.admitted (pageRequest trace) = .ok (pageAdmitted trace) := by
  rcases h with rfl | rfl <;> rfl

/-- A page that is not in the cache arrives. -/
private theorem page_arrives {mayPurge : Traffic → Prop} {trace : Option Text}
    (h : trace = none ∨ trace = some ("t" : Text)) {s : Traffic}
    (hmiss : (pageCache.get 0 filesAdmitted.key (s.db pageCache)).1 = .ok none) :
    sampleConfig.Moves pageCache mayPurge s
      ⟨⟨0, trace, .get filesAdmitted.key⟩ :: s.calls,
        (trace, pagePut trace :: (trace.map fun g =>
          Cache.Op.recordTrace g filesAdmitted.key).toList) :: s.pending⟩ := by
  have ha := admitted_pageRequest h
  have htrace : headerStr (pageRequest trace).headers "x-lcp-trace" = trace :=
    (admitted_traceId ha).symm
  have hmissed : sampleConfig.Missed (pageRequest trace)
      fun k => (pageCache.get 0 k (s.db pageCache)).1 :=
    missed_of_admitted ha fun _ e he => absurd (hmiss.symm.trans he) nofun
  have hrelays : sampleConfig.Relays (pageRequest trace) (fun _ => .ok cutResponse)
      (pageAdmitted trace) cutResponse cutResponse.stream := ⟨_, [], ha, rfl, rfl, rfl⟩
  have hcalls : (sampleConfig.handle (pageRequest trace)
      (fun k => (pageCache.get 0 k (s.db pageCache)).1) (fun _ => .ok cutResponse)
        eagerClient).calls = pagePut trace :: (trace.map fun g =>
          Cache.Op.recordTrace g filesAdmitted.key).toList := by
    rw [handle_relays hmissed hrelays]
    have hcacheable : Cacheable (pageAdmitted trace) cutResponse cutResponse.stream eagerClient :=
      cutResponse_cacheable rfl (show Utf8.Valid filesAdmitted.body by decide)
    exact writeCalls_of_cacheable hcacheable
  have hlookup : sampleConfig.tracedLookup (pageRequest trace) 0 =
      [⟨0, trace, .get filesAdmitted.key⟩] := by
    rw [tracedLookup, ha]
    rfl
  have hmove : sampleConfig.Moves pageCache mayPurge s _ :=
    .arrive s (pageRequest trace) 0 (fun _ => .ok cutResponse) eagerClient
  rwa [hlookup, htrace, hcalls] at hmove

/-- A purge between the lookup and the call that stores the page does no harm. -/
theorem tracesKept_of_settled_page : ∃ s, sampleConfig.MovesTo pageCache Traffic.Settled s ∧
    s.calls.map TracedCall.op = [.recordTrace "t" filesAdmitted.key, pagePut (some "t"),
      .clearEntries, .get filesAdmitted.key] ∧ TracesKept pageCache s := by
  have harrive : sampleConfig.MovesTo pageCache Traffic.Settled _ :=
    MovesTo.init.step (page_arrives (Or.inr rfl) rfl)
  have hpurge := harrive.step (.purge _ 0 (by
    intro p hp g k rest
    rw [List.mem_singleton.mp hp]
    nofun))
  have hput := hpurge.step (.call _ 0 (some "t") _ _ [] [] rfl)
  have hrecord := hput.step (.call _ 0 (some "t") _ _ [] [] rfl)
  exact ⟨_, hrecord, rfl, (tracesKept_of_settled _ _).1 _ hrecord⟩

/-- A purge between the call that stores the page and the one that records its
trace leaves a row without an entry. When a request without a trace stores the
page again, the page is listed under the trace. -/
theorem trace_outlives_purge : ∃ s t, sampleConfig.MovesTo pageCache (fun _ => True) s ∧
    (("t", filesAdmitted.key) : Text × Text) ∈ (s.db pageCache).traceEntries.rows ∧
    (s.db pageCache).entries.find? filesAdmitted.key = none ∧
    sampleConfig.MovesTo pageCache (fun _ => True) t ∧
    (∃ e ∈ Cache.getTrace "t" (t.db pageCache), e.key = filesAdmitted.key) ∧
    ¬ Touched pageCache "t" filesAdmitted.key t.calls := by
  have harrive : sampleConfig.MovesTo pageCache (fun _ => True) _ :=
    MovesTo.init.step (page_arrives (Or.inr rfl) rfl)
  have hput := harrive.step (.call _ 0 (some "t") _ _ [] [] rfl)
  have hpurge := hput.step (.purge _ 0 trivial)
  have hrecord := hpurge.step (.call _ 0 (some "t") _ _ [] [] rfl)
  have hagain := hrecord.step (page_arrives (Or.inl rfl) rfl)
  have hlater := hagain.step (.call _ 0 none _ _ [] _ rfl)
  refine ⟨_, _, hrecord, ?_, rfl, hlater, ?_, ?_⟩
  · exact Table.mem_insertIgnore.mpr (Or.inl rfl)
  · refine ⟨_, List.mem_map.mpr
      ⟨pageCache.rowOf 0 filesAdmitted.key "gemini" none (pageExchange none), ?_, rfl⟩, rfl⟩
    rw [Cache.traceRows, List.mem_insertionSort, List.mem_filter, decide_eq_true_eq]
    exact ⟨List.mem_append_right _ (List.mem_singleton_self _),
      Table.mem_insertIgnore.mpr (Or.inl rfl)⟩
  · rintro ⟨-, ⟨htrace, -⟩ | ⟨-, ⟨htrace, -⟩ | ⟨-, ⟨-, hnot⟩ | ⟨hpurged, -⟩⟩⟩⟩
    · cases htrace
    · cases htrace
    · exact hnot
    · exact hpurged rfl

end ServerConfig

end LlmCacheProxy
