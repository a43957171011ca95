import LlmCacheProxy.CacheRefinement

/-!
# The counters of the cache

The counters, the hit count of every entry and the number of entries are kept
by different statements and reset by different calls. All of them can be read
off the calls so far and what these returned.
-/

namespace LlmCacheProxy

open ExpiringStore

/-- The bytes of the response, `resp_bytes`. -/
def Exchange.respBytes (e : Exchange) : Nat := (e.chunks.map fun chunk => chunk.data.length).sum

namespace Cache

/-- A call and what it returned. -/
abbrev Answered := Op × Reply

variable (c : Cache)

/-- The calls of a history with their replies, latest first. -/
def answered : List (Int × Op) → List Answered
  | [] => []
  | (now, op) :: earlier => (op, (c.exec now op (c.after earlier)).1) :: answered earlier

/-- The calls behind the last one that stops. -/
def since (stop : Op → Bool) (calls : List Answered) : List Answered :=
  calls.takeWhile fun call => !stop call.1

def Op.isClearStats : Op → Bool
  | .clearStats => true
  | _ => false

def Op.isClearEntries : Op → Bool
  | .clearEntries => true
  | _ => false

/-- The entry of `k` is written anew, or goes. -/
def Op.renews (k : Text) : Op → Bool
  | .put key _ _ _ => key = k
  | .clearEntries => true
  | _ => false

/-- The key and the exchange of a get that returned one. -/
def served : Answered → Option (Text × Exchange)
  | (.get k, .exchange (.ok (some e))) => some (k, e)
  | _ => none

/-- A get that returned nothing; entries that have expired count. -/
def missed : Answered → Bool
  | (.get _, .exchange (.ok none)) => true
  | _ => false

/-- How many of the exchanges that were returned belong to `k`. -/
def hitsOn (k : Text) (calls : List Answered) : Nat :=
  (calls.filterMap served).countP fun p => p.1 = k

def putKey : Answered → Option Text
  | (.put k _ _ _, _) => some k
  | _ => none

/-- The counters are what the calls so far add up to. -/
structure Accounts (calls : List Answered) (db : Db) : Prop where
  hits : (stats db).hits = ((since Op.isClearStats calls).filterMap served).length
  misses : (stats db).misses = (since Op.isClearStats calls).countP missed
  bytesServed : (stats db).bytesServedFromCache =
    (((since Op.isClearStats calls).filterMap served).map fun p => p.2.respBytes).sum
  hitCount : ∀ row ∈ db.entries.rows,
    row.hitCount = hitsOn row.key (since (Op.renews row.key) calls)
  entries : (stats db).entries =
    ((since Op.isClearEntries calls).filterMap putKey).dedup.length

/-! ### One call -/

theorem since_cons_stop {stop : Op → Bool} {call : Answered} (h : stop call.1 = true)
    (calls : List Answered) : since stop (call :: calls) = [] := by
  simp [since, h]

theorem since_cons {stop : Op → Bool} {call : Answered} (h : stop call.1 = false)
    (calls : List Answered) : since stop (call :: calls) = call :: since stop calls := by
  simp [since, h]

variable {c} {h : StoreHistory} {db : Db} {now : Int}

/-- What a get does: it counts a miss, or a hit with the bytes of what it
returns. -/
theorem get_counts (hc : RoundTrips c.crates) (hr : Refines c h db) (k : Text) :
    ((c.get now k db).1 = .ok none ∧ (c.get now k db).2.stats = (db.count "misses" 1).stats) ∨
      ∃ e, (c.get now k db).1 = .ok (some e) ∧ (c.get now k db).2.stats =
        ((db.count "hits" 1).count "bytes_served_from_cache" e.respBytes).stats := by
  have hrow := hr.entries k
  cases hl : latest k h with
  | none =>
      rw [rowFor, hl, Option.map_none] at hrow
      left
      simp [get, hrow]
  | some p =>
      rw [rowFor, hl, Option.map_some] at hrow
      simp only [get, hrow]
      split
      · exact Or.inl ⟨rfl, rfl⟩
      · right
        refine ⟨p.2.exchange, ?_, rfl⟩
        simp [rowOf, decode_toJson hc, Except.map]

private theorem getD_count (db : Db) (k k' : Text) (n : Nat) :
    (db.count k n).stats.getD k' 0 =
      if k' = k then db.stats.getD k' 0 + n else db.stats.getD k' 0 := by
  rw [Db.count, SortedMap.getD_upsert]
  by_cases hk : k' = k
  · rw [if_pos hk, if_pos hk, hk]
  · rw [if_neg hk, if_neg hk]

/-- The three counters stand for the gets since they were reset. -/
structure Counts (calls : List Answered) (db : Db) : Prop where
  hits : db.stats.getD "hits" 0 = (calls.filterMap served).length
  misses : db.stats.getD "misses" 0 = calls.countP missed
  bytesServed : db.stats.getD "bytes_served_from_cache" 0 =
    ((calls.filterMap served).map fun p => p.2.respBytes).sum

private theorem hits_ne_misses : Text.ofString "hits" ≠ "misses" := by decide

private theorem hits_ne_bytes : Text.ofString "hits" ≠ "bytes_served_from_cache" := by decide

private theorem misses_ne_bytes : Text.ofString "misses" ≠ "bytes_served_from_cache" := by decide

theorem Counts.miss {calls : List Answered} (h : Counts calls db) {db' : Db}
    (hstats : db'.stats = (db.count "misses" 1).stats) (k : Text) :
    Counts ((.get k, .exchange (.ok none)) :: calls) db' := by
  have hserved : served (.get k, .exchange (.ok none)) = none := rfl
  constructor
  · rw [hstats, getD_count, if_neg hits_ne_misses, h.hits, List.filterMap_cons, hserved]
  · rw [hstats, getD_count, if_pos rfl, h.misses]
    exact (List.countP_cons_of_pos rfl).symm
  · rw [hstats, getD_count, if_neg misses_ne_bytes.symm, h.bytesServed, List.filterMap_cons,
      hserved]

theorem Counts.hit {calls : List Answered} (h : Counts calls db) {db' : Db} {e : Exchange}
    (hstats : db'.stats =
      ((db.count "hits" 1).count "bytes_served_from_cache" e.respBytes).stats) (k : Text) :
    Counts ((.get k, .exchange (.ok (some e))) :: calls) db' := by
  have hserved : served (.get k, .exchange (.ok (some e))) = some (k, e) := rfl
  constructor
  · rw [hstats, getD_count, if_neg hits_ne_bytes, getD_count, if_pos rfl, h.hits,
      List.filterMap_cons, hserved, List.length_cons]
  · rw [hstats, getD_count, if_neg misses_ne_bytes, getD_count, if_neg hits_ne_misses.symm,
      h.misses]
    exact (List.countP_cons_of_neg (Bool.false_ne_true)).symm
  · rw [hstats, getD_count, if_pos rfl, getD_count, if_neg hits_ne_bytes.symm, h.bytesServed,
      List.filterMap_cons, hserved, List.map_cons, List.sum_cons, Nat.add_comm]

/-- A call that is no get and does not reset the counters leaves them alone. -/
theorem Counts.other {calls : List Answered} (h : Counts calls db) {op : Op}
    (hget : ∀ k, op ≠ .get k) (hclear : op.isClearStats = false) :
    Counts ((op, (c.exec now op db).1) :: calls) (c.exec now op db).2 := by
  obtain ⟨hstats, hcall⟩ : (c.exec now op db).2.stats = db.stats ∧
      ∀ reply, served (op, reply) = none ∧ missed (op, reply) = false := by
    cases op with
    | get k => exact absurd rfl (hget k)
    | clearStats => cases hclear
    | put | recordTrace | clearEntries | getTrace | stats | listEntries | inspect
    | inspectTrace => exact ⟨rfl, fun _ => ⟨rfl, rfl⟩⟩
  obtain ⟨hserved, hmissed⟩ := hcall (c.exec now op db).1
  constructor
  · rw [hstats, h.hits, List.filterMap_cons, hserved]
  · rw [hstats, h.misses, List.countP_cons_of_neg (by simp [hmissed])]
  · rw [hstats, h.bytesServed, List.filterMap_cons, hserved]

theorem after_counts (hc : RoundTrips c.crates) (hist : List (Int × Op)) :
    Counts (since Op.isClearStats (c.answered hist)) (c.after hist) := by
  induction hist with
  | nil => exact ⟨rfl, rfl, rfl⟩
  | cons call earlier ih =>
      obtain ⟨now, op⟩ := call
      by_cases hclear : op.isClearStats = true
      · cases op with
        | clearStats =>
            rw [answered, since_cons_stop rfl]
            exact ⟨rfl, rfl, rfl⟩
        | get | put | recordTrace | clearEntries | getTrace | stats | listEntries | inspect
        | inspectTrace => cases hclear
      have hclear : op.isClearStats = false := by simpa using hclear
      rw [answered, since_cons hclear, after]
      by_cases hget : ∃ k, op = .get k
      · obtain ⟨k, rfl⟩ := hget
        have hcounts : (c.get now k (c.after earlier)).1 = .ok none ∧ _ ∨ _ :=
          get_counts hc (after_refines hc earlier) k
        rcases hcounts with ⟨hreply, hstats⟩ | ⟨e, hreply, hstats⟩
        · simp only [exec, hreply]
          exact ih.miss hstats k
        · simp only [exec, hreply]
          exact ih.hit hstats k
      · exact ih.other (not_exists.mp hget) hclear

/-! ### Hits on one key -/

private theorem hitsOn_cons_of_none {k : Text} {call : Answered} (h : served call = none)
    (calls : List Answered) : hitsOn k (call :: calls) = hitsOn k calls := by
  rw [hitsOn, List.filterMap_cons, h]
  rfl

private theorem hitsOn_cons_of_some {k k' : Text} {e : Exchange} {call : Answered}
    (h : served call = some (k', e)) (calls : List Answered) :
    hitsOn k (call :: calls) = if k' = k then hitsOn k calls + 1 else hitsOn k calls := by
  by_cases hk : k' = k <;> simp [hitsOn, h, hk]

/-- The abstract store counts as many reads. -/
theorem reads_eq (hc : RoundTrips c.crates) (hist : List (Int × Op)) (k : Text) :
    reads c.fresh k (history hist) = hitsOn k (since (Op.renews k) (c.answered hist)) := by
  induction hist with
  | nil => rfl
  | cons call earlier ih =>
      obtain ⟨now, op⟩ := call
      rw [answered]
      cases op with
      | get k' =>
          have hread : reads c.fresh k (history ((now, .get k') :: earlier)) =
              if k' = k ∧ (live c.fresh now k (history earlier)).isSome
              then reads c.fresh k (history earlier) + 1
              else reads c.fresh k (history earlier) := rfl
          have hreply : (c.exec now (.get k') (c.after earlier)).1 =
              .exchange (.ok ((live c.fresh now k' (history earlier)).map Stored.exchange)) :=
            congrArg Reply.exchange (get_spec hc (after_refines hc earlier) k').1
          rw [hread, since_cons rfl, hreply]
          cases hlive : live c.fresh now k' (history earlier) with
          | none =>
              rw [hitsOn_cons_of_none rfl, if_neg, ih]
              rintro ⟨rfl, hsome⟩
              rw [hlive] at hsome
              cases hsome
          | some v =>
              rw [hitsOn_cons_of_some rfl, ih]
              by_cases hk : k' = k
              · subst hk
                rw [hlive, if_pos ⟨rfl, rfl⟩, if_pos rfl]
              · rw [if_neg fun h => hk h.1, if_neg hk]
      | put k' provider model e =>
          by_cases hk : k' = k
          · rw [since_cons_stop (decide_eq_true hk)]
            exact if_pos hk
          · rw [since_cons (decide_eq_false hk), hitsOn_cons_of_none rfl, ← ih]
            exact if_neg hk
      | clearEntries =>
          rw [since_cons_stop rfl]
          rfl
      | recordTrace | clearStats | getTrace | stats | listEntries | inspect | inspectTrace =>
          rw [since_cons rfl, hitsOn_cons_of_none rfl, ← ih]
          rfl

/-! ### The number of entries -/

/-- A key has an entry when it was put since the entries were cleared. -/
theorem latest_isSome_iff (hist : List (Int × Op)) (k : Text) :
    (latest k (history hist)).isSome = true ↔
      k ∈ (since Op.isClearEntries (c.answered hist)).filterMap putKey := by
  induction hist with
  | nil => simp [history, latest, answered, since]
  | cons call earlier ih =>
      obtain ⟨now, op⟩ := call
      rw [answered]
      cases op with
      | put k' provider model e =>
          have hlatest : latest k (history ((now, .put k' provider model e) :: earlier)) =
              if k' = k then some (now, ⟨provider, model, e⟩)
              else latest k (history earlier) := rfl
          rw [hlatest, since_cons rfl]
          by_cases hk : k' = k
          · simp [hk, putKey]
          · rw [if_neg hk, ih]
            simp [putKey, Ne.symm hk]
      | clearEntries =>
          rw [since_cons_stop rfl]
          simp [history, latest, Op.event]
      | get | recordTrace | clearStats | getTrace | stats | listEntries | inspect
      | inspectTrace =>
          rw [since_cons rfl]
          exact ih

private theorem entries_eq (hc : RoundTrips c.crates) (hist : List (Int × Op)) :
    (c.after hist).entries.rows.length =
      ((since Op.isClearEntries (c.answered hist)).filterMap putKey).dedup.length := by
  rw [← List.length_map EntryRow.key]
  apply List.Perm.length_eq
  rw [List.perm_ext_iff_of_nodup (c.after hist).entries.unique (List.nodup_dedup _)]
  intro k
  rw [List.mem_dedup, ← latest_isSome_iff (c := c), List.mem_map]
  have hfor : (latest k (history hist)).isSome = (c.rowFor (history hist) k).isSome := by
    rw [rowFor, Option.isSome_map]
  rw [hfor, ← (after_refines hc hist).entries, Option.isSome_iff_exists]
  exact exists_congr fun row => Table.find?_eq_some_iff.symm

/-- The counters account for every call, whatever the time to live and the
clock, and each purge leaves alone what the other one resets. -/
theorem after_accounts (hc : RoundTrips c.crates) (hist : List (Int × Op)) :
    Accounts (c.answered hist) (c.after hist) ∧
      (∀ now, (c.after ((now, .clearEntries) :: hist)).stats = (c.after hist).stats) ∧
      ∀ now, (c.after ((now, .clearStats) :: hist)).entries = (c.after hist).entries ∧
        (c.after ((now, .clearStats) :: hist)).traceEntries = (c.after hist).traceEntries := by
  have hcounts := after_counts hc hist
  refine ⟨?_, fun _ => rfl, fun _ => ⟨rfl, rfl⟩⟩
  constructor
  · exact hcounts.hits
  · exact hcounts.misses
  · exact hcounts.bytesServed
  · intro row hrow
    have hfor := (after_refines hc hist).mem_rows.mp hrow
    obtain ⟨p, -, hrow⟩ := Option.map_eq_some_iff.mp hfor
    calc
      row.hitCount = reads c.fresh row.key (history hist) := (congrArg EntryRow.hitCount hrow).symm
      _ = hitsOn row.key (since (Op.renews row.key) (c.answered hist)) := reads_eq hc hist row.key
  · exact entries_eq hc hist

/-- One entry that was hit once, and asked for again when it had expired. -/
def sampleCalls : List (Int × Op) :=
  [(4000000000, .get "k"), (1000000000, .get "k"), (0, .put "k" "openai" none sampleExchange)]

theorem after_accounts_sample :
    (stats ((⟨sampleCrates, 2⟩ : Cache).after sampleCalls)).hits = 1 ∧
    (stats ((⟨sampleCrates, 2⟩ : Cache).after sampleCalls)).misses = 1 ∧
    (stats ((⟨sampleCrates, 2⟩ : Cache).after sampleCalls)).bytesServedFromCache = 2 ∧
    (stats ((⟨sampleCrates, 2⟩ : Cache).after sampleCalls)).entries = 1 := by
  have haccounts := (after_accounts (c := ⟨sampleCrates, 2⟩) sampleCrates_roundTrips sampleCalls).1
  have hget (now : Int) (hist : List (Int × Op)) :
      (Cache.get ⟨sampleCrates, 2⟩ now "k" (Cache.after ⟨sampleCrates, 2⟩ hist)).1 = _ ∧ _ :=
    get_spec sampleCrates_roundTrips (after_refines sampleCrates_roundTrips hist) "k"
  have hreply (now : Int) (hist : List (Int × Op)) := congrArg Reply.exchange (hget now hist).1
  have hanswered : (⟨sampleCrates, 2⟩ : Cache).answered sampleCalls =
      [(.get "k", .exchange (.ok none)), (.get "k", .exchange (.ok (some sampleExchange))),
        (.put "k" "openai" none sampleExchange, .done)] := by
    simp only [answered, sampleCalls, exec, hreply]
    rfl
  rw [hanswered] at haccounts
  exact ⟨haccounts.hits, haccounts.misses, haccounts.bytesServed, haccounts.entries⟩

end Cache

end LlmCacheProxy
