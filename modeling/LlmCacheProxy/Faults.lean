import LlmCacheProxy.Accounting
import LlmCacheProxy.Lookup

/-!
# Calls that fail

Every call of the cache may fail in a statement of SQLite. A call that fails
changes nothing, but for one: a purge deletes the traces and then the entries in
two statements of their own, and may fail in between. What a history with
failures leaves behind is what the calls that did not fail leave behind.
-/

namespace LlmCacheProxy

open Transaction ExpiringStore

/-- The statements of the calls. -/
inductive Stmt where
  | lookup (step : GetStep)
  | prepare
  | execute
  | countEntries
  | countModels
  | deleteTraces
  | deleteEntries
  deriving DecidableEq

/-- Which statements of a call fail, and with what. -/
abbrev Fault := Stmt → Option Text

/-- What a caller makes of a reply: an exchange that cannot be read is an error. -/
def Cache.Reply.result : Cache.Reply → Except LookupError Cache.Reply
  | .exchange (.error e) => .error (.cache e)
  | .full (.error e) => .error (.cache e)
  | .fullTrace (.error e) => .error (.cache e)
  | reply => .ok reply

/-- An error of SQLite itself. -/
def Failed {α : Type} : Except LookupError α → Prop
  | .error (.sqlite _) => True
  | _ => False

instance {α : Type} (r : Except LookupError α) : Decidable (Failed r) :=
  match r with
  | .error (.sqlite _) => isTrue trivial
  | .error (.cache _) => isFalse id
  | .ok _ => isFalse id

namespace Cache

variable (c : Cache) (now : Int) (fault : Fault)

/-- A call that is one statement. -/
def write (effect : Db → Db) (db : Db) : Except LookupError Reply × Db :=
  match Statement.run ⟨fault .execute, effect⟩ db with
  | (.error e, db) => (.error (.sqlite e), db)
  | (.ok (), db) => (.ok .done, db)

/-- A call that only reads; the first statement that fails ends it. -/
def read (stmts : List Stmt) (reply : Reply) (db : Db) : Except LookupError Reply × Db :=
  match stmts.findSome? fault with
  | some e => (.error (.sqlite e), db)
  | none => (reply.result, db)

/-- `clear_entries`, where each statement commits by itself. -/
def tryClearEntries (db : Db) : Except LookupError Reply × Db :=
  match fault .countEntries with
  | some e => (.error (.sqlite e), db)
  | none =>
      let n := db.entries.rows.length
      match Statement.run ⟨fault .deleteTraces, fun db => { db with traceEntries := .empty }⟩ db with
      | (.error e, db) => (.error (.sqlite e), db)
      | (.ok (), db) =>
          match Statement.run ⟨fault .deleteEntries, fun db => { db with entries := .empty }⟩ db with
          | (.error e, db) => (.error (.sqlite e), db)
          | (.ok (), db) => (.ok (.cleared n), db)

/-- One call at the time `now`, with its failures. -/
def tryExec : Op → Db → Except LookupError Reply × Db
  | .get key, db =>
      let found := c.tryGet now (fun step => fault (.lookup step)) key db
      (found.1.map fun exchange => .exchange (.ok exchange), found.2)
  | .put key provider model exchange, db => write fault (c.put now key provider model exchange) db
  | .recordTrace traceId cacheKey, db => write fault (recordTrace traceId cacheKey) db
  | .getTrace traceId, db =>
      read fault [.prepare, .execute] (.entries (getTrace traceId db)) db
  | .stats, db =>
      read fault [.prepare, .execute, .countEntries, .countModels] (.stats (stats db)) db
  | .clearEntries, db => tryClearEntries fault db
  | .clearStats, db => write fault clearStats db
  | .listEntries, db => read fault [.prepare, .execute] (.entries (listEntries db)) db
  | .inspect key, db => read fault [.execute] (.full (c.inspect key db)) db
  | .inspectTrace traceId, db =>
      read fault [.prepare, .execute] (.fullTrace (c.inspectTrace traceId db)) db

/-- The purge has failed between its two deletions. -/
def Half (op : Op) (fault : Fault) : Prop :=
  op.isClearEntries = true ∧ fault .countEntries = none ∧ fault .deleteTraces = none ∧
    (fault .deleteEntries).isSome

variable {c now fault} {op : Op} {db : Db}

/-! ### One call -/

private theorem write_cases (effect : Db → Db) (db : Db) :
    (∃ e, write fault effect db = (.error (.sqlite e), db)) ∨
      write fault effect db = (.ok .done, effect db) := by
  cases h : fault .execute with
  | none => exact .inr (by rw [write, Statement.run_of_none h])
  | some e => exact .inl ⟨e, by simp [write, Statement.run, h]⟩

private theorem read_cases (stmts : List Stmt) (reply : Reply) (db : Db) :
    (∃ e, read fault stmts reply db = (.error (.sqlite e), db)) ∨
      read fault stmts reply db = (reply.result, db) := by
  cases h : stmts.findSome? fault with
  | none => exact .inr (by simp only [read, h])
  | some e => exact .inl ⟨e, by simp only [read, h]⟩

/-- A lookup that does not fail is the lookup of the handler. -/
private theorem tryGet_failed_or (c : Cache) (now : Int) (fault : GetStep → Option Text)
    (key : Text) (db : Db) :
    (∃ e, c.tryGet now fault key db = (.error (.sqlite e), db)) ∨
      c.tryGet now fault key db =
        ((c.get now key db).1.mapError .cache, (c.get now key db).2) := by
  cases hrow : db.entries.find? key with
  | none =>
      rcases tryGet_cases c now fault key db with h | h | ⟨row, hsome, -⟩
      · exact .inl h
      · exact .inr (by rw [h]; simp [get, hrow, Except.mapError])
      · cases hrow.symm.trans hsome
  | some row =>
      by_cases hexp : c.expired now row
      · have hold : 0 < c.ttlSeconds ∧ c.ttlSeconds < c.ageSeconds now row.createdAt := hexp
        rcases tryGet_cases c now fault key db with h | h | ⟨row', hsome, hnot, -⟩
        · exact .inl h
        · exact .inr (by rw [h]; simp only [get, hrow, if_pos hold, Except.mapError])
        · cases hrow.symm.trans hsome
          exact absurd hexp hnot
      · have hnew : ¬ (0 < c.ttlSeconds ∧ c.ttlSeconds < c.ageSeconds now row.createdAt) := hexp
        by_cases hsucceeds : HitSucceeds fault
        · refine .inr ?_
          rw [tryGet_of_hit hrow hexp hsucceeds]
          simp only [get, hrow, if_neg hnew]
        · refine .inl ?_
          cases hselect : fault .select with
          | some e => exact ⟨e, by simp only [tryGet, hselect]⟩
          | none =>
              have hfaulty : ¬ Faultless (hitStatements fault key row) := fun h =>
                hsucceeds (faultless_hitStatements_iff.mp ⟨h, hselect⟩)
              obtain ⟨e, he⟩ := run_of_not_faultless hfaulty db
              exact ⟨e, by simp only [tryGet, hselect, hrow, if_neg hexp, he]⟩

/-- A call fails and changes nothing, or it is the call without failures, or it
is half a purge. -/
theorem tryExec_cases (c : Cache) (now : Int) (fault : Fault) (op : Op) (db : Db) :
    (∃ e, c.tryExec now fault op db = (.error (.sqlite e), db)) ∨
      c.tryExec now fault op db = ((c.exec now op db).1.result, (c.exec now op db).2) ∨
        Half op fault ∧ ∃ e,
          c.tryExec now fault op db = (.error (.sqlite e), { db with traceEntries := .empty }) := by
  cases op with
  | get key =>
      have hget : (∃ e, c.tryGet now (fun step => fault (.lookup step)) key db =
            (.error (.sqlite e), db)) ∨
          c.tryGet now (fun step => fault (.lookup step)) key db =
            ((c.get now key db).1.mapError .cache, (c.get now key db).2) :=
        tryGet_failed_or c now _ key db
      rcases hget with ⟨e, he⟩ | hget
      · exact .inl ⟨e, by simp [tryExec, he, Except.map]⟩
      · refine .inr (.inl ?_)
        simp only [tryExec, hget, exec]
        cases (c.get now key db).1 with
        | error e => rfl
        | ok exchange => rfl
  | put key provider model exchange =>
      exact (write_cases (c.put now key provider model exchange) db).imp_right .inl
  | recordTrace traceId cacheKey =>
      exact (write_cases (recordTrace traceId cacheKey) db).imp_right .inl
  | getTrace traceId => exact (read_cases _ (.entries (getTrace traceId db)) db).imp_right .inl
  | stats => exact (read_cases _ (.stats (stats db)) db).imp_right .inl
  | clearEntries =>
      simp only [tryExec, tryClearEntries]
      cases hcount : fault .countEntries with
      | some e => exact .inl ⟨e, rfl⟩
      | none =>
          cases htraces : fault .deleteTraces with
          | some e => exact .inl ⟨e, by simp [Statement.run]⟩
          | none =>
              cases hentries : fault .deleteEntries with
              | some e =>
                  exact .inr (.inr ⟨⟨rfl, hcount, htraces, by simp [hentries]⟩, e,
                    by simp [Statement.run]⟩)
              | none => exact .inr (.inl (by simp only [Statement.run]; rfl))
  | clearStats => exact (write_cases clearStats db).imp_right .inl
  | listEntries => exact (read_cases _ (.entries (listEntries db)) db).imp_right .inl
  | inspect key => exact (read_cases _ (.full (c.inspect key db)) db).imp_right .inl
  | inspectTrace traceId =>
      exact (read_cases _ (.fullTrace (c.inspectTrace traceId db)) db).imp_right .inl

/-! ### Histories with failures -/

/-- A call and which of its statements fail. -/
structure Attempt where
  time : Int
  op : Op
  fault : Fault

variable (c)

/-- The tables after the attempts, latest first. -/
def tried : List Attempt → Db
  | [] => .empty
  | a :: earlier => (c.tryExec a.time a.fault a.op (tried earlier)).2

/-- What an attempt returns behind earlier ones. -/
def returned (a : Attempt) (earlier : List Attempt) : Except LookupError Reply :=
  (c.tryExec a.time a.fault a.op (c.tried earlier)).1

/-- The calls that did not fail. -/
def kept : List Attempt → List (Int × Op)
  | [] => []
  | a :: earlier =>
      if Failed (c.returned a earlier) then kept earlier else (a.time, a.op) :: kept earlier

variable {c}

/-- The entries and the counters are the same, and no trace row is new. -/
structure Alike (db db' : Db) : Prop where
  entries : db.entries = db'.entries
  stats : db.stats = db'.stats
  traces : ∀ row ∈ db.traceEntries.rows, row ∈ db'.traceEntries.rows

private theorem not_failed_result (reply : Reply) : ¬ Failed reply.result := by
  cases reply with
  | exchange result => cases result <;> exact id
  | full result => cases result <;> exact id
  | fullTrace result => cases result <;> exact id
  | done | entries | stats | cleared => exact id

/-- What a lookup returns and what it does to entries and counters does not
depend on the traces. -/
private theorem get_alike {db db' : Db} (h : Alike db db') (key : Text) :
    (c.get now key db).1 = (c.get now key db').1 ∧
      Alike (c.get now key db).2 (c.get now key db').2 := by
  simp only [get, h.entries]
  cases db'.entries.find? key with
  | none => exact ⟨rfl, h.entries, by simp only [Db.count, h.stats], h.traces⟩
  | some row =>
      by_cases hexp : 0 < c.ttlSeconds ∧ c.ttlSeconds < c.ageSeconds now row.createdAt
      · simp only [if_pos hexp]
        exact ⟨trivial, h.entries, by simp only [Db.count, h.stats], h.traces⟩
      · simp only [if_neg hexp]
        refine ⟨trivial, ?_, ?_, h.traces⟩
        · simp only [Db.count, Db.hit, h.entries]
        · simp only [Db.count, Db.hit, h.stats]

theorem Alike.exec {db db' : Db} (h : Alike db db') (op : Op) :
    Alike (c.exec now op db).2 (c.exec now op db').2 := by
  cases op with
  | get key => exact (get_alike h key).2
  | put key provider model exchange =>
      exact ⟨by simp only [Cache.exec, put, h.entries], h.stats, h.traces⟩
  | recordTrace traceId cacheKey =>
      refine ⟨h.entries, h.stats, fun row hrow => ?_⟩
      simp only [Cache.exec, recordTrace, Table.mem_insertIgnore] at hrow ⊢
      exact hrow.imp_right (h.traces row)
  | clearEntries => exact ⟨rfl, h.stats, fun _ hrow => hrow⟩
  | clearStats => exact ⟨h.entries, rfl, h.traces⟩
  | getTrace | stats | listEntries | inspect | inspectTrace => exact h

/-- No purge has failed between its two deletions. -/
def NoHalf (attempts : List Attempt) : Prop := ∀ a ∈ attempts, ¬ Half a.op a.fault

/-- An attempt fails and is not kept, or it is kept and does what the call does. -/
theorem attempt_cases (c : Cache) (a : Attempt) (earlier : List Attempt) :
    (Failed (c.returned a earlier) ∧ c.kept (a :: earlier) = c.kept earlier ∧
      (c.tried (a :: earlier) = c.tried earlier ∨
        Half a.op a.fault ∧
          c.tried (a :: earlier) = { c.tried earlier with traceEntries := .empty })) ∨
    (¬ Failed (c.returned a earlier) ∧
      c.kept (a :: earlier) = (a.time, a.op) :: c.kept earlier ∧
      c.returned a earlier = (c.exec a.time a.op (c.tried earlier)).1.result ∧
      c.tried (a :: earlier) = (c.exec a.time a.op (c.tried earlier)).2) := by
  have hfailed {e : Text} (he : c.returned a earlier = .error (.sqlite e)) :
      Failed (c.returned a earlier) := by
    rw [he]
    trivial
  rcases tryExec_cases c a.time a.fault a.op (c.tried earlier) with
    ⟨e, he⟩ | hmade | ⟨hhalf, e, he⟩
  · have h := hfailed (congrArg Prod.fst he)
    exact .inl ⟨h, if_pos h, .inl (congrArg Prod.snd he)⟩
  · have hresult := congrArg Prod.fst hmade
    have h : ¬ Failed (c.returned a earlier) := by
      rw [show c.returned a earlier = _ from hresult]
      exact not_failed_result _
    exact .inr ⟨h, if_neg h, hresult, congrArg Prod.snd hmade⟩
  · have h := hfailed (congrArg Prod.fst he)
    exact .inl ⟨h, if_pos h, .inr ⟨hhalf, congrArg Prod.snd he⟩⟩

theorem tried_alike (c : Cache) (attempts : List Attempt) :
    Alike (c.tried attempts) (c.after (c.kept attempts)) := by
  induction attempts with
  | nil => exact ⟨rfl, rfl, fun _ h => h⟩
  | cons a earlier ih =>
      rcases attempt_cases c a earlier with
        ⟨-, hkept, hsame | ⟨-, hhalf⟩⟩ | ⟨-, hkept, -, hmade⟩
      · rw [hkept, hsame]
        exact ih
      · rw [hkept, hhalf]
        exact ⟨ih.entries, ih.stats, fun _ h => absurd h List.not_mem_nil⟩
      · rw [hkept, hmade]
        exact ih.exec a.op

theorem tried_eq (c : Cache) {attempts : List Attempt} (h : NoHalf attempts) :
    c.tried attempts = c.after (c.kept attempts) := by
  induction attempts with
  | nil => rfl
  | cons a earlier ih =>
      have hearlier := ih fun b hb => h b (List.mem_cons_of_mem _ hb)
      rcases attempt_cases c a earlier with
        ⟨-, hkept, hsame | ⟨hhalf, -⟩⟩ | ⟨-, hkept, -, hmade⟩
      · rw [hkept, hsame, hearlier]
      · exact absurd hhalf (h a List.mem_cons_self)
      · rw [hkept, hmade, hearlier]
        rfl

/-- A reply that comes is the reply there would be had no call failed. -/
theorem returned_eq (c : Cache) {earlier : List Attempt} (h : NoHalf earlier) {a : Attempt}
    (ha : ¬ Failed (c.returned a earlier)) :
    c.returned a earlier = (c.exec a.time a.op (c.after (c.kept earlier))).1.result := by
  rw [← tried_eq c h]
  rcases attempt_cases c a earlier with ⟨hfailed, -⟩ | ⟨-, -, hresult, -⟩
  · exact absurd hfailed ha
  · exact hresult

/-- Whatever statements fail, the entries and counters are those of the calls
that did not, and no trace row is there that these would not leave. Unless a
purge fails between its deletions nothing else is lost either, and every reply
that comes is the one there would be without the calls that failed. -/
theorem failures_leave_nothing (c : Cache) (attempts : List Attempt) :
    Alike (c.tried attempts) (c.after (c.kept attempts)) ∧
      (NoHalf attempts → c.tried attempts = c.after (c.kept attempts) ∧
        ∀ a, ¬ Failed (c.returned a attempts) →
          c.returned a attempts =
            (c.exec a.time a.op (c.after (c.kept attempts))).1.result) :=
  ⟨tried_alike c attempts, fun h => ⟨tried_eq c h, fun _ ha => returned_eq c h ha⟩⟩

/-- Whatever has failed before, a lookup that returns an exchange returns what
the latest store of its key that did not fail has put there, unexpired and not
purged since. -/
theorem returned_was_stored (hc : RoundTrips c.crates) {attempts : List Attempt} {now : Int}
    {fault : Fault} {key : Text} {e : Exchange}
    (h : c.returned ⟨now, .get key, fault⟩ attempts = .ok (.exchange (.ok (some e)))) :
    ∃ later earlier t provider model,
      c.kept attempts = later ++ (t, .put key provider model e) :: earlier ∧
        (∀ call ∈ later, Keeps key call.2.event) ∧ c.fresh t now = true := by
  have hfound : (c.get now key (c.tried attempts)).1 = .ok (some e) := by
    rcases attempt_cases c ⟨now, .get key, fault⟩ attempts with ⟨hfailed, -⟩ | ⟨-, -, hresult, -⟩
    · rw [h] at hfailed
      exact hfailed.elim
    · rw [h, exec] at hresult
      cases hget : (c.get now key (c.tried attempts)).1 with
      | error e' => simp [hget, Reply.result] at hresult
      | ok found =>
          simp only [hget, Reply.result, Except.ok.injEq, Reply.exchange.injEq] at hresult
          rw [hresult]
  rw [(get_alike (tried_alike c attempts) key).1] at hfound
  exact exists_put_of_get hc hfound

/-- A store that succeeds, and one that finds the disk full. -/
def fullDisk : List Attempt :=
  [⟨2, .put "k" "openai" none { sampleExchange with status := 201 },
      fun _ => some "database or disk is full"⟩,
    ⟨1, .put "k" "openai" none sampleExchange, fun _ => none⟩]

theorem returned_was_stored_fullDisk : ∃ later earlier t provider model,
    (⟨sampleCrates, 0⟩ : Cache).kept fullDisk =
      later ++ (t, .put "k" provider model sampleExchange) :: earlier := by
  have hhalf : NoHalf fullDisk := by simp [NoHalf, fullDisk, Half, Op.isClearEntries]
  have hkept : (⟨sampleCrates, 0⟩ : Cache).kept fullDisk =
      [(1, .put "k" "openai" none sampleExchange)] := rfl
  have hget : ((⟨sampleCrates, 0⟩ : Cache).get 3 "k"
      ((⟨sampleCrates, 0⟩ : Cache).after ([] ++ [(1, .put "k" "openai" none sampleExchange)]))).1 =
        .ok (some sampleExchange) := get_after_put sampleCrates_roundTrips (by simp) rfl
  have hreturned : (⟨sampleCrates, 0⟩ : Cache).returned ⟨3, .get "k", fun _ => none⟩ fullDisk =
      .ok (.exchange (.ok (some sampleExchange))) := by
    rw [returned, tried_eq _ hhalf, hkept, tryExec, tryGet_of_faultless (fun _ => rfl)]
    simp only [List.nil_append] at hget
    simp [hget, Except.mapError, Except.map]
  obtain ⟨later, earlier, t, provider, model, h, -⟩ :=
    returned_was_stored sampleCrates_roundTrips hreturned
  exact ⟨later, earlier, t, provider, model, h⟩

end Cache

end LlmCacheProxy
