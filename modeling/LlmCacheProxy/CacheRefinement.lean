import LlmCacheProxy.Cache
import LlmCacheProxy.Foundation.ExpiringStore
import LlmCacheProxy.Foundation.JsonText
import Mathlib.Logic.Equiv.Nat
import Mathlib.Logic.Function.Basic

/-!
# The cache is a map with expiry

Every call of the cache is an event of an abstract store, and the tables after
any history of calls hold what the store stands for after it: one row for each
key with a value, and one trace row for each mark.
-/

namespace LlmCacheProxy

open ExpiringStore

/-- What the libraries promise: what is written is read back. -/
structure RoundTrips (x : CacheCrates) : Prop where
  time : ∀ t, x.parseFromRfc3339 (x.toRfc3339 t) = some t
  exchange : ∀ e, x.fromJson (x.toJson e) = some e

/-- The arguments of a put, but for the key. -/
structure Stored where
  provider : Text
  model : Option Text
  exchange : Exchange

namespace Cache

/-! ### The abstract store -/

def Op.event : Op → Event Text Stored Text
  | .get key => .read key
  | .put key provider model exchange => .put key ⟨provider, model, exchange⟩
  | .recordTrace traceId cacheKey => .mark traceId cacheKey
  | .clearEntries => .clear
  | _ => .idle

abbrev StoreHistory := History Text Stored Text Int

def history (hist : List (Int × Op)) : StoreHistory := hist.map fun p => (p.1, p.2.event)

variable (c : Cache)

/-- A value put at `t` is given out as long as the whole seconds since then do
not exceed the time to live. -/
def fresh (t now : Int) : Bool :=
  c.ttlSeconds = 0 ∨ (now - t) / 1000000000 ≤ (c.ttlSeconds : Int)

/-- The row that stands for the value of a key. -/
def rowFor (h : StoreHistory) (k : Text) : Option EntryRow :=
  (latest k h).map fun p =>
    { c.rowOf p.1 k p.2.provider p.2.model p.2.exchange with hitCount := reads c.fresh k h }

def cacheEntryFor (h : StoreHistory) (k : Text) : Option CacheEntry :=
  (c.rowFor h k).map EntryRow.toCacheEntry

def fullEntryFor (h : StoreHistory) (k : Text) : Option FullEntry :=
  (latest k h).bind fun p => (c.rowFor h k).map fun row => row.toFullEntry p.2.exchange

/-- The tables stand for the abstract store. -/
structure Refines (h : StoreHistory) (db : Db) : Prop where
  entries : ∀ k, db.entries.find? k = c.rowFor h k
  traces : ∀ g k, (g, k) ∈ db.traceEntries.rows ↔ Marked g k h

variable {c} {h : StoreHistory} {db : Db} {now : Int}

/-! ### One call -/

theorem ageSeconds_toRfc3339 (hc : RoundTrips c.crates) (t : Int) :
    c.ageSeconds now (c.crates.toRfc3339 t) = ((now - t) / 1000000000).toNat := by
  simp only [ageSeconds, hc.time]
  by_cases hpos : 0 ≤ now - t
  · rw [Int.tdiv_eq_ediv_of_nonneg hpos]
    omega
  · have hneg : 0 ≤ (-(now - t)).tdiv 1000000000 := Int.tdiv_nonneg (by omega) (by omega)
    rw [Int.neg_tdiv] at hneg
    omega

/-- The test in `get` is the one of the abstract store. -/
theorem expired_iff (hc : RoundTrips c.crates) (t : Int) :
    (0 < c.ttlSeconds ∧ c.ttlSeconds < c.ageSeconds now (c.crates.toRfc3339 t)) ↔
      c.fresh t now = false := by
  rw [ageSeconds_toRfc3339 hc]
  simp only [fresh, decide_eq_false_iff_not]
  omega

theorem decode_toJson (hc : RoundTrips c.crates) (what : Text) (e : Exchange) :
    c.decode what (c.crates.toJson e) = .ok e := by
  simp only [decode, hc.exchange]

/-- A get answers what the store gives out, and a value that is given out has
been read once more. -/
theorem get_spec (hc : RoundTrips c.crates) (hr : Refines c h db) (k : Text) :
    (c.get now k db).1 = .ok ((live c.fresh now k h).map Stored.exchange) ∧
      (c.get now k db).2.entries =
        (if (live c.fresh now k h).isSome then (db.hit k).entries else db.entries) ∧
      (c.get now k db).2.traceEntries = db.traceEntries := by
  have hrow := hr.entries k
  cases hl : latest k h with
  | none =>
      rw [rowFor, hl, Option.map_none] at hrow
      simp [get, hrow, live, hl]
  | some p =>
      rw [rowFor, hl, Option.map_some] at hrow
      simp only [get, hrow, live, hl, Option.bind_some]
      by_cases hfresh : c.fresh p.1 now = true
      · rw [if_neg]
        · simp [hfresh, rowOf, decode_toJson hc, Except.map]
        · intro hexp
          have := (expired_iff hc p.1).mp hexp
          exact absurd this (by simp [hfresh])
      · rw [if_pos]
        · simp [hfresh]
        · exact (expired_iff hc p.1).mpr (by simpa using hfresh)

/-- A row comes from a row that the call keeps, or from a put. -/
theorem mem_rows_exec {op : Op} {row : EntryRow}
    (hrow : row ∈ (c.exec now op db).2.entries.rows) :
    (∃ old ∈ db.entries.rows, (row = old ∨ row = old.hit) ∧ Keeps row.key op.event) ∨
      ∃ key provider model exchange, op = .put key provider model exchange ∧
        row = c.rowOf now key provider model exchange := by
  cases op with
  | get key =>
      left
      simp only [exec, Cache.get] at hrow
      split at hrow
      · exact ⟨row, hrow, Or.inl rfl, trivial⟩
      split at hrow
      · exact ⟨row, hrow, Or.inl rfl, trivial⟩
      · obtain ⟨old, hold, rfl⟩ := List.mem_map.mp hrow
        refine ⟨old, hold, ?_, trivial⟩
        split
        · exact Or.inr rfl
        · exact Or.inl rfl
  | put key provider model exchange =>
      rcases List.mem_append.mp hrow with hold | hnew
      · obtain ⟨hold, hne⟩ := List.mem_filter.mp hold
        have hne : row.key ≠ key := of_decide_eq_true hne
        exact Or.inl ⟨row, hold, Or.inl rfl, hne.symm⟩
      · exact Or.inr ⟨key, provider, model, exchange, rfl, List.mem_singleton.mp hnew⟩
  | clearEntries => cases hrow
  | recordTrace | clearStats | getTrace | stats | listEntries | inspect | inspectTrace =>
      exact Or.inl ⟨row, hrow, Or.inl rfl, trivial⟩

theorem refines_empty : Refines c [] .empty :=
  ⟨fun _ => rfl, fun _ _ => by simp [Db.empty, Table.empty, Marked]⟩

/-- A call that the store does not see leaves the tables of the store alone. -/
theorem Refines.idle (hr : Refines c h db) {db' : Db} (he : db'.entries = db.entries)
    (ht : db'.traceEntries = db.traceEntries) : Refines c ((now, .idle) :: h) db' := by
  constructor
  · intro k
    rw [he, hr.entries]
    rfl
  · intro g k
    rw [ht, hr.traces]
    rfl

theorem Refines.get (hc : RoundTrips c.crates) (hr : Refines c h db) (k : Text) :
    Refines c ((now, .read k) :: h) (c.get now k db).2 := by
  obtain ⟨hentries, htraces⟩ : _ ∧ (c.get now k db).2.traceEntries = db.traceEntries :=
    (get_spec hc hr k).2
  constructor
  · intro l
    rw [hentries]
    by_cases hlive : (live c.fresh now k h).isSome = true
    · rw [if_pos hlive, Db.find?_hit, hr.entries]
      by_cases hl : l = k
      · simp [rowFor, latest, reads, hl, hlive, EntryRow.hit, Function.comp_def]
      · simp [rowFor, latest, reads, hl, Ne.symm hl]
    · have hread : ¬ (k = l ∧ (live c.fresh now l h).isSome = true) := by
        rintro ⟨rfl, hl⟩
        exact hlive hl
      rw [if_neg hlive, hr.entries]
      simp [rowFor, latest, reads, hread]
  · intro g l
    rw [htraces, hr.traces]
    rfl

theorem Refines.put (hr : Refines c h db) (k provider : Text) (model : Option Text)
    (e : Exchange) :
    Refines c ((now, .put k ⟨provider, model, e⟩) :: h) (c.put now k provider model e db) := by
  constructor
  · intro l
    rw [Cache.put, Table.find?_replace, hr.entries]
    by_cases hl : k = l
    · simp [rowFor, latest, reads, rowOf, hl]
    · simp [rowFor, latest, reads, rowOf, hl]
  · intro g l
    exact hr.traces g l

theorem Refines.recordTrace (hr : Refines c h db) (g k : Text) :
    Refines c ((now, .mark g k) :: h) (Cache.recordTrace g k db) := by
  constructor
  · exact hr.entries
  · intro g' k'
    rw [Cache.recordTrace, Table.mem_insertIgnore, hr.traces, Marked, Prod.mk.injEq]
    simp only [eq_comm]

theorem Refines.clear : Refines c ((now, .clear) :: h) (clearEntries db).2 :=
  ⟨fun _ => rfl, fun _ _ => by simp [clearEntries, Table.empty, Marked]⟩

theorem Refines.exec (hc : RoundTrips c.crates) (hr : Refines c h db) (op : Op) :
    Refines c ((now, op.event) :: h) (c.exec now op db).2 := by
  cases op with
  | get k => exact hr.get hc k
  | put k provider model e => exact hr.put k provider model e
  | recordTrace g k => exact hr.recordTrace g k
  | clearEntries => exact Refines.clear
  | clearStats => exact hr.idle rfl rfl
  | getTrace | stats | listEntries | inspect | inspectTrace => exact hr.idle rfl rfl

/-- Every history of calls is a history of the abstract store. -/
theorem after_refines (hc : RoundTrips c.crates) (hist : List (Int × Op)) :
    Refines c (history hist) (c.after hist) := by
  induction hist with
  | nil => exact refines_empty
  | cons call earlier ih => exact ih.exec hc call.2

/-- What was put is given out until it expires, or is replaced or cleared. -/
theorem get_after_put (hc : RoundTrips c.crates) {earlier later : List (Int × Op)} {t : Int}
    {k provider : Text} {model : Option Text} {e : Exchange}
    (hlater : ∀ call ∈ later, Keeps k call.2.event) (hfresh : c.fresh t now = true) :
    (c.get now k (c.after (later ++ (t, .put k provider model e) :: earlier))).1 =
      .ok (some e) := by
  have hput : latest k (history (later ++ (t, .put k provider model e) :: earlier)) =
      some (t, ⟨provider, model, e⟩) := by
    rw [history, List.map_append, latest_append_of_keeps]
    · simp [latest, Op.event]
    · intro event hevent
      obtain ⟨call, hcall, rfl⟩ := List.mem_map.mp hevent
      exact hlater call hcall
  rw [(get_spec hc (after_refines hc _) k).1]
  simp [live, hput, hfresh]

/-- What is given out was put by the latest call that renewed its entry, and has
not expired. -/
theorem exists_put_of_get (hc : RoundTrips c.crates) {hist : List (Int × Op)} {key : Text}
    {e : Exchange} (h : (c.get now key (c.after hist)).1 = .ok (some e)) :
    ∃ later earlier t provider model, hist = later ++ (t, .put key provider model e) :: earlier ∧
      (∀ call ∈ later, Keeps key call.2.event) ∧ c.fresh t now = true := by
  rw [(get_spec hc (after_refines hc _) key).1] at h
  obtain ⟨v, hlive, rfl⟩ := Option.map_eq_some_iff.mp (Except.ok.inj h)
  obtain ⟨⟨t, v'⟩, hlatest, hfresh⟩ := Option.bind_eq_some_iff.mp hlive
  simp only [Option.ite_none_right_eq_some, Option.some.injEq] at hfresh
  obtain ⟨hfresh, rfl⟩ := hfresh
  obtain ⟨later, earlier, hsplit, hkeeps⟩ := exists_of_latest hlatest
  rw [history] at hsplit
  obtain ⟨newer, rest, hcalls, rfl, hrest⟩ := List.map_eq_append_iff.mp hsplit
  obtain ⟨call, older, rfl, hcall, -⟩ := List.map_eq_cons_iff.mp hrest
  obtain ⟨time, op⟩ := call
  cases op with
  | put k provider model e =>
      simp only [Op.event, Prod.mk.injEq, Event.put.injEq] at hcall
      obtain ⟨rfl, rfl, rfl⟩ := hcall
      refine ⟨newer, older, time, provider, model, hcalls, ?_, hfresh⟩
      exact fun call hcall => hkeeps _ (List.mem_map.mpr ⟨call, hcall, rfl⟩)
  | get | recordTrace | getTrace | stats | clearEntries | clearStats | listEntries | inspect
  | inspectTrace => simp [Op.event] at hcall

/-- A get that gives nothing out changes counters only. -/
theorem get_miss_unchanged (hc : RoundTrips c.crates) (hist : List (Int × Op)) {k : Text}
    (hmiss : ∀ e, (c.get now k (c.after hist)).1 ≠ .ok (some e)) :
    (c.get now k (c.after hist)).2.entries = (c.after hist).entries ∧
      (c.get now k (c.after hist)).2.traceEntries = (c.after hist).traceEntries := by
  obtain ⟨hreply, hentries, htraces⟩ :
      (c.get now k (c.after hist)).1 = _ ∧ _ ∧ _ := get_spec hc (after_refines hc hist) k
  cases hlive : live c.fresh now k (history hist) with
  | some v => exact absurd (by rw [hreply, hlive]; rfl) (hmiss v.exchange)
  | none =>
      rw [hlive] at hentries
      exact ⟨by simpa using hentries, htraces⟩

/-! ### Every reply -/

/-- Calls that only look. -/
def Op.ReadOnly : Op → Prop
  | .getTrace _ | .stats | .listEntries | .inspect _ | .inspectTrace _ => True
  | _ => False

theorem exec_readOnly {op : Op} (h : op.ReadOnly) : (c.exec now op db).2 = db := by
  cases op with
  | getTrace | stats | listEntries | inspect | inspectTrace => rfl
  | get | put | recordTrace | clearEntries | clearStats => exact h.elim

theorem Refines.inspect (hc : RoundTrips c.crates) (hr : Refines c h db) (k : Text) :
    c.inspect k db = .ok (c.fullEntryFor h k) := by
  rw [Cache.inspect, hr.entries, fullEntryFor, rowFor]
  cases latest k h with
  | none => rfl
  | some p => simp [rowOf, decode_toJson hc, Except.map]

/-- A row of the table is the one that stands for its key. -/
theorem Refines.mem_rows (hr : Refines c h db) {row : EntryRow} :
    row ∈ db.entries.rows ↔ c.rowFor h row.key = some row := by
  rw [← hr.entries, Table.find?_eq_some_iff]
  simp

theorem Refines.mem_traceRows (hr : Refines c h db) {g : Text} {row : EntryRow} :
    row ∈ traceRows g db ↔ Marked g row.key h ∧ c.rowFor h row.key = some row := by
  rw [traceRows, List.mem_insertionSort, List.mem_filter, hr.mem_rows, decide_eq_true_eq,
    hr.traces]
  exact and_comm

private theorem nodup_traceRows (g : Text) (db : Db) :
    ((traceRows g db).map EntryRow.key).Nodup := by
  apply ((List.perm_insertionSort _ _).map EntryRow.key).nodup_iff.mpr
  exact db.entries.unique.sublist (List.filter_sublist.map EntryRow.key)

/-- A listing shows, once each, the entries of the keys of a set. -/
structure Shows {ε : Type*} (entryFor : Text → Option ε) (key : ε → Text) (keys : Text → Prop)
    (es : List ε) : Prop where
  once : (es.map key).Nodup
  mem_iff : ∀ e, e ∈ es ↔ keys (key e) ∧ entryFor (key e) = some e

private theorem mem_map_toCacheEntry {rows : List EntryRow} (keys : Text → Prop)
    (hrows : ∀ row, row ∈ rows ↔ keys row.key ∧ c.rowFor h row.key = some row) (e : CacheEntry) :
    e ∈ rows.map EntryRow.toCacheEntry ↔ keys e.key ∧ c.cacheEntryFor h e.key = some e := by
  rw [List.mem_map]
  constructor
  · rintro ⟨row, hrow, rfl⟩
    obtain ⟨hkey, hfor⟩ := (hrows row).mp hrow
    exact ⟨hkey, by simp [cacheEntryFor, EntryRow.toCacheEntry, hfor]⟩
  · rintro ⟨hkey, hfor⟩
    obtain ⟨row, hrow, rfl⟩ := Option.map_eq_some_iff.mp hfor
    exact ⟨row, (hrows row).mpr ⟨hkey, hrow⟩, rfl⟩

theorem Refines.listEntries (hr : Refines c h db) :
    Shows (c.cacheEntryFor h) CacheEntry.key (fun _ => True) (listEntries db) := by
  constructor
  · rw [Cache.listEntries, List.map_map]
    exact ((List.perm_insertionSort _ _).map EntryRow.key).nodup_iff.mpr db.entries.unique
  · intro e
    apply mem_map_toCacheEntry fun _ => True
    intro row
    rw [List.mem_insertionSort, hr.mem_rows, true_and]

theorem Refines.getTrace (hr : Refines c h db) (g : Text) :
    Shows (c.cacheEntryFor h) CacheEntry.key (fun k => Marked g k h) (getTrace g db) := by
  constructor
  · rw [Cache.getTrace, List.map_map]
    exact nodup_traceRows g db
  · intro e
    exact mem_map_toCacheEntry (fun k => Marked g k h) (fun _ => hr.mem_traceRows) e

/-- The exchange of the latest put. -/
def storedExchange (h : StoreHistory) (k : Text) : Exchange :=
  ((latest k h).map fun p => p.2.exchange).getD default

private theorem decode_row (hc : RoundTrips c.crates) {row : EntryRow}
    (hrow : c.rowFor h row.key = some row) (what : Text) :
    c.decode what row.exchangeJson = .ok (storedExchange h row.key) ∧
      c.fullEntryFor h row.key = some (row.toFullEntry (storedExchange h row.key)) := by
  have hfor := hrow
  rw [rowFor] at hrow
  obtain ⟨p, hp, hrow⟩ := Option.map_eq_some_iff.mp hrow
  have hjson : row.exchangeJson = c.crates.toJson p.2.exchange := by
    rw [← hrow]
    rfl
  rw [storedExchange, hp, Option.map_some, Option.getD_some]
  constructor
  · rw [hjson, decode_toJson hc]
  · rw [fullEntryFor, hp, Option.bind_some, hfor, Option.map_some]

private theorem mapM_ok {α β : Type} {f : α → Except CacheError β} {g : α → β} {l : List α}
    (h : ∀ a ∈ l, f a = .ok (g a)) : l.mapM f = .ok (l.map g) := by
  induction l with
  | nil => rfl
  | cons a l ih =>
      have ih := ih fun a ha => h a (by simp [ha])
      simp [List.mapM_cons, h a (by simp), ih, bind, Except.bind, pure, Except.pure]

theorem Refines.inspectTrace (hc : RoundTrips c.crates) (hr : Refines c h db) (g : Text) :
    ∃ es, c.inspectTrace g db = .ok es ∧
      Shows (c.fullEntryFor h) FullEntry.key (fun k => Marked g k h) es := by
  refine ⟨(traceRows g db).map fun row => row.toFullEntry (storedExchange h row.key), ?_, ?_, ?_⟩
  · apply mapM_ok
    intro row hrow
    rw [(decode_row hc (hr.mem_traceRows.mp hrow).2 _).1]
    rfl
  · rw [List.map_map]
    exact nodup_traceRows g db
  · intro e
    rw [List.mem_map]
    constructor
    · rintro ⟨row, hrow, rfl⟩
      obtain ⟨hmark, hfor⟩ := hr.mem_traceRows.mp hrow
      exact ⟨hmark, (decode_row hc hfor .empty).2⟩
    · rintro ⟨hmark, hfor⟩
      -- the entry is the one of some row, and that row is in the trace
      have hfull := hfor
      rw [fullEntryFor] at hfor
      obtain ⟨p, -, hfor⟩ := Option.bind_eq_some_iff.mp hfor
      obtain ⟨row, hrow, -⟩ := Option.map_eq_some_iff.mp hfor
      have hkey : row.key = e.key := by
        obtain ⟨p, -, rfl⟩ := Option.map_eq_some_iff.mp hrow
        rfl
      rw [← hkey] at hmark hrow hfull
      refine ⟨row, hr.mem_traceRows.mpr ⟨hmark, hrow⟩, ?_⟩
      rw [(decode_row hc hrow .empty).2] at hfull
      exact Option.some.inj hfull

/-- The replies of all calls that look at the entries, as functions of the
abstract store. -/
structure Answers (c : Cache) (h : StoreHistory) (now : Int) (db : Db) : Prop where
  get : ∀ k, (c.exec now (.get k) db).1 =
    .exchange (.ok ((live c.fresh now k h).map Stored.exchange))
  inspect : ∀ k, (c.exec now (.inspect k) db).1 = .full (.ok (c.fullEntryFor h k))
  listEntries : ∃ es, (c.exec now .listEntries db).1 = .entries es ∧
    Shows (c.cacheEntryFor h) CacheEntry.key (fun _ => True) es
  getTrace : ∀ g, ∃ es, (c.exec now (.getTrace g) db).1 = .entries es ∧
    Shows (c.cacheEntryFor h) CacheEntry.key (fun k => Marked g k h) es
  inspectTrace : ∀ g, ∃ es, (c.exec now (.inspectTrace g) db).1 = .fullTrace (.ok es) ∧
    Shows (c.fullEntryFor h) FullEntry.key (fun k => Marked g k h) es

/-- After any history of calls, the cache answers as a map with expiry, and
calls that only look change nothing. The clock may even run backwards. -/
theorem after_answers (hc : RoundTrips c.crates) (hist : List (Int × Op)) (now : Int) :
    Answers c (history hist) now (c.after hist) ∧
      ∀ op : Op, op.ReadOnly → (c.exec now op (c.after hist)).2 = c.after hist := by
  have hr := after_refines hc hist
  refine ⟨?_, fun op hop => exec_readOnly hop⟩
  constructor
  · intro k
    exact congrArg Reply.exchange (get_spec hc hr k).1
  · intro k
    exact congrArg Reply.full (hr.inspect hc k)
  · exact ⟨_, rfl, hr.listEntries⟩
  · intro g
    exact ⟨_, rfl, hr.getTrace g⟩
  · intro g
    obtain ⟨es, hes, hshows⟩ := hr.inspectTrace hc g
    exact ⟨es, congrArg Reply.fullTrace hes, hshows⟩

/-! ### A sample -/

/-- The epoch as `chrono` prints it; other times add zeros, one count for each. -/
def sampleRfc3339 (t : Int) : Text :=
  "1970-01-01T00:00:00" ++ ⟨List.replicate (Equiv.intEquivNat t) 0x30, by
    apply Utf8.valid_of_ascii
    intro b hb
    rw [List.eq_of_mem_replicate hb]
    decide⟩ ++ "+00:00"

/-- The value that `serde` derives for an exchange. -/
def exchangeValue (e : Exchange) : Json :=
  .object [
    ("request", .object [("method", .string e.request.method), ("path", .string e.request.path),
      ("body", .string e.request.body)]),
    ("status", .number (.ofU64 e.status.toUInt64)),
    ("content_type", .string e.contentType),
    ("chunks", .array (e.chunks.map fun chunk =>
      .object [("offset_ms", .number (.ofU64 chunk.offsetMs)), ("data", .string chunk.data)]))]

private theorem sampleRfc3339_injective : Function.Injective sampleRfc3339 := by
  intro s t h
  apply Equiv.intEquivNat.injective
  have hlen := congrArg (fun u : Text => u.bytes.length) h
  simpa [sampleRfc3339] using hlen

private theorem exchangeValue_injective : Function.Injective exchangeValue := by
  intro a b h
  have hchunk : Function.Injective fun chunk : ResponseChunk =>
      Json.object [("offset_ms", .number (.ofU64 chunk.offsetMs)),
        ("data", .string chunk.data)] := by
    rintro ⟨m, s⟩ ⟨n, t⟩ h
    simp only [Json.object.injEq, List.cons.injEq, Prod.mk.injEq, Json.number.injEq,
      Json.string.injEq, true_and, and_true] at h
    rw [JsonNumber.ofU64_injective h.1, h.2]
  obtain ⟨⟨_, _, _⟩, _, _, _⟩ := a
  obtain ⟨⟨_, _, _⟩, _, _, _⟩ := b
  simp only [exchangeValue, Json.object.injEq, List.cons.injEq, Prod.mk.injEq, Json.number.injEq,
    Json.string.injEq, Json.array.injEq, true_and, and_true] at h
  obtain ⟨⟨rfl, rfl, rfl⟩, hstatus, rfl, hchunks⟩ := h
  have hstatus := JsonNumber.ofU64_injective hstatus
  rw [List.map_injective_iff.mpr hchunk hchunks, UInt16.toUInt64_inj.mp hstatus]

/-- A library whose parsers invert its printers, with the exchange printed as
`serde_json` does. -/
noncomputable def sampleCrates : CacheCrates where
  toRfc3339 := sampleRfc3339
  parseFromRfc3339 := Function.partialInv sampleRfc3339
  toJson e := Json.compact (exchangeValue e)
  fromJson := Function.partialInv fun e => Json.compact (exchangeValue e)

theorem sampleCrates_roundTrips : RoundTrips sampleCrates :=
  ⟨Function.partialInv_left sampleRfc3339_injective,
    Function.partialInv_left (Json.compact_injective.comp exchangeValue_injective)⟩

def sampleExchange : Exchange :=
  ⟨⟨"POST", "/openai/v1/chat/completions", "\x7b\x7d"⟩, 200, "application/json", [⟨0, "[]"⟩]⟩

/-- An entry of the epoch, under a time to live of two seconds, is given out
after one second and after four it is not. -/
theorem after_answers_expiry :
    ((⟨sampleCrates, 2⟩ : Cache).exec 1000000000 (.get "k")
        ((⟨sampleCrates, 2⟩ : Cache).after [(0, .put "k" "openai" none sampleExchange)])).1 =
      .exchange (.ok (some sampleExchange)) ∧
    ((⟨sampleCrates, 2⟩ : Cache).exec 4000000000 (.get "k")
        ((⟨sampleCrates, 2⟩ : Cache).after [(0, .put "k" "openai" none sampleExchange)])).1 =
      .exchange (.ok none) := by
  have h (now : Int) := (after_answers (c := ⟨sampleCrates, 2⟩) sampleCrates_roundTrips
    [(0, .put "k" "openai" none sampleExchange)] now).1.get "k"
  rw [h, h]
  exact ⟨rfl, rfl⟩

end Cache

end LlmCacheProxy
