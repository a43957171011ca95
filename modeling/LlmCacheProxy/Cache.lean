import LlmCacheProxy.Foundation.SortedMap
import LlmCacheProxy.Foundation.Table
import LlmCacheProxy.Foundation.Text
import Mathlib.Algebra.GroupWithZero.Nat
import Mathlib.Data.List.Dedup
import Mathlib.Data.List.Sort

/-!
# The exchange cache

Three tables: the entries under their cache keys, the keys recorded for each
trace, and the counters. Every operation takes the time of the clock it reads.
SQLite does not fix the order of rows that a sorted query cannot tell apart;
here they stand in the order of their insertion.
-/

namespace LlmCacheProxy

/-! ### Stored types -/

structure ResponseChunk where
  offsetMs : UInt64
  data : Text
  deriving DecidableEq

structure RequestRecord where
  method : Text
  path : Text
  body : Text
  deriving DecidableEq, Inhabited

/-- A complete request and response. -/
structure Exchange where
  request : RequestRecord
  status : UInt16
  contentType : Text
  chunks : List ResponseChunk
  deriving DecidableEq, Inhabited

/-- Metadata of an entry. -/
structure CacheEntry where
  key : Text
  createdAt : Text
  provider : Text
  model : Option Text
  status : UInt16
  hitCount : Nat
  reqBytes : Nat
  respBytes : Nat
  deriving DecidableEq

/-- Metadata with the stored request and response. -/
structure FullEntry where
  key : Text
  createdAt : Text
  provider : Text
  model : Option Text
  status : UInt16
  contentType : Text
  hitCount : Nat
  reqBytes : Nat
  respBytes : Nat
  request : RequestRecord
  chunks : List ResponseChunk
  deriving DecidableEq

structure CacheStats where
  hits : Nat
  misses : Nat
  bytesServedFromCache : Nat
  entries : Nat
  byModel : SortedMap Text Nat

/-- Failures of the operations; those of SQLite itself are left out. -/
inductive CacheError where
  | deserializing (what : Text)
  deriving DecidableEq

/-! ### Tables -/

structure EntryRow where
  key : Text
  createdAt : Text
  status : UInt16
  contentType : Text
  exchangeJson : Text
  provider : Text
  model : Option Text
  reqBytes : Nat
  respBytes : Nat
  hitCount : Nat

def EntryRow.hit (row : EntryRow) : EntryRow := { row with hitCount := row.hitCount + 1 }

theorem EntryRow.key_hit (row : EntryRow) : row.hit.key = row.key := rfl

structure Db where
  entries : Table EntryRow.key
  /-- Trace and cache key. -/
  traceEntries : Table (id : Text × Text → Text × Text)
  stats : SortedMap Text Nat

namespace Db

def empty : Db := ⟨.empty, .empty, .empty⟩

/-- `INSERT INTO stats … ON CONFLICT(k) DO UPDATE SET v = v + n`. -/
def count (db : Db) (k : Text) (n : Nat) : Db :=
  { db with stats := db.stats.upsert k 0 fun v => v + n }

@[simp] theorem entries_count (db : Db) (k : Text) (n : Nat) :
    (db.count k n).entries = db.entries := rfl

@[simp] theorem traceEntries_count (db : Db) (k : Text) (n : Nat) :
    (db.count k n).traceEntries = db.traceEntries := rfl

/-- The update of `hit_count`. -/
def hit (db : Db) (key : Text) : Db :=
  { db with entries := db.entries.update key EntryRow.hit EntryRow.key_hit }

theorem find?_hit (db : Db) (key k : Text) :
    (db.hit key).entries.find? k =
      if k = key then (db.entries.find? k).map EntryRow.hit else db.entries.find? k :=
  Table.find?_update _ _ _ _ EntryRow.key_hit

@[simp] theorem traceEntries_hit (db : Db) (key : Text) :
    (db.hit key).traceEntries = db.traceEntries := rfl

end Db

/-- The functions of `chrono` and `serde_json` that the cache calls. Times are
nanoseconds since the epoch. -/
structure CacheCrates where
  /-- `DateTime::to_rfc3339`. -/
  toRfc3339 : Int → Text
  /-- `DateTime::parse_from_rfc3339`. -/
  parseFromRfc3339 : Text → Option Int
  /-- `serde_json::to_string` on an exchange. -/
  toJson : Exchange → Text
  /-- `serde_json::from_str` to an exchange. -/
  fromJson : Text → Option Exchange

structure Cache where
  crates : CacheCrates
  /-- Zero means that entries never expire. -/
  ttlSeconds : Nat

namespace Cache

variable (c : Cache) (now : Int)

/-- Whole seconds since a stored time; zero for a time in the future, and for
one that cannot be parsed. -/
def ageSeconds (createdAt : Text) : Nat :=
  match c.crates.parseFromRfc3339 createdAt with
  | some t => (max ((now - t).tdiv 1000000000) 0).toNat
  | none => 0

def decode (what : Text) (json : Text) : Except CacheError Exchange :=
  match c.crates.fromJson json with
  | some exchange => .ok exchange
  | none => .error (.deserializing what)

/-! ### Operations -/

def get (key : Text) (db : Db) : Except CacheError (Option Exchange) × Db :=
  match db.entries.find? key with
  | none => (.ok none, db.count "misses" 1)
  | some row =>
      if 0 < c.ttlSeconds ∧ c.ttlSeconds < c.ageSeconds now row.createdAt then
        (.ok none, db.count "misses" 1)
      else
        -- the counters are committed before the exchange is deserialized
        let db := ((db.hit key).count "hits" 1).count "bytes_served_from_cache" row.respBytes
        ((c.decode "deserializing cached exchange" row.exchangeJson).map some, db)

/-- The row an exchange is stored in. -/
def rowOf (key provider : Text) (model : Option Text) (exchange : Exchange) : EntryRow where
  key := key
  createdAt := c.crates.toRfc3339 now
  status := exchange.status
  contentType := exchange.contentType
  exchangeJson := c.crates.toJson exchange
  provider := provider
  model := model
  reqBytes := exchange.request.body.length
  respBytes := (exchange.chunks.map fun chunk => chunk.data.length).sum
  hitCount := 0

def put (key provider : Text) (model : Option Text) (exchange : Exchange) (db : Db) : Db :=
  { db with entries := db.entries.replace (c.rowOf now key provider model exchange) }

def recordTrace (traceId cacheKey : Text) (db : Db) : Db :=
  { db with traceEntries := db.traceEntries.insertIgnore (traceId, cacheKey) }

end Cache

def EntryRow.toCacheEntry (row : EntryRow) : CacheEntry :=
  ⟨row.key, row.createdAt, row.provider, row.model, row.status, row.hitCount, row.reqBytes,
    row.respBytes⟩

def EntryRow.toFullEntry (row : EntryRow) (exchange : Exchange) : FullEntry :=
  ⟨row.key, row.createdAt, row.provider, row.model, row.status, row.contentType, row.hitCount,
    row.reqBytes, row.respBytes, exchange.request, exchange.chunks⟩

namespace Cache

/-- The join of `entries` with the keys of a trace, by `created_at`. -/
def traceRows (traceId : Text) (db : Db) : List EntryRow :=
  (db.entries.rows.filter fun row => (traceId, row.key) ∈ db.traceEntries.rows).insertionSort
    fun a b => a.createdAt ≤ b.createdAt

def getTrace (traceId : Text) (db : Db) : List CacheEntry :=
  (traceRows traceId db).map EntryRow.toCacheEntry

/-- Entries by `created_at`, latest first. -/
def listEntries (db : Db) : List CacheEntry :=
  (db.entries.rows.insertionSort fun a b => b.createdAt ≤ a.createdAt).map EntryRow.toCacheEntry

/-- `NULL` comes before every text. -/
def modelLe : Option Text → Option Text → Bool
  | none, _ => true
  | some _, none => false
  | some x, some y => x ≤ y

/-- `GROUP BY model`. -/
def modelCounts (rows : List EntryRow) : List (Option Text × Nat) :=
  ((rows.map EntryRow.model).dedup.insertionSort fun a b => modelLe a b = true).map
    fun m => (m, rows.countP fun row => row.model = m)

/-- A model that is itself called `unknown` takes the place of the rows
without one. -/
def stats (db : Db) : CacheStats where
  hits := db.stats.getD "hits" 0
  misses := db.stats.getD "misses" 0
  bytesServedFromCache := db.stats.getD "bytes_served_from_cache" 0
  entries := db.entries.rows.length
  byModel := (modelCounts db.entries.rows).foldl
    (fun acc p => acc.upsert (p.1.getD "unknown") 0 fun _ => p.2) .empty

def clearEntries (db : Db) : Nat × Db :=
  (db.entries.rows.length, { db with entries := .empty, traceEntries := .empty })

def clearStats (db : Db) : Db := { db with stats := .empty }

variable (c : Cache)

def inspect (key : Text) (db : Db) : Except CacheError (Option FullEntry) :=
  match db.entries.find? key with
  | none => .ok none
  | some row =>
      (c.decode "deserializing inspect exchange" row.exchangeJson).map fun exchange =>
        some (row.toFullEntry exchange)

def inspectTrace (traceId : Text) (db : Db) : Except CacheError (List FullEntry) :=
  (traceRows traceId db).mapM fun row =>
    (c.decode "deserializing inspect_trace exchange" row.exchangeJson).map row.toFullEntry

/-! ### Calls -/

inductive Op where
  | get (key : Text)
  | put (key provider : Text) (model : Option Text) (exchange : Exchange)
  | recordTrace (traceId cacheKey : Text)
  | getTrace (traceId : Text)
  | stats
  | clearEntries
  | clearStats
  | listEntries
  | inspect (key : Text)
  | inspectTrace (traceId : Text)

inductive Reply where
  | exchange (result : Except CacheError (Option Exchange))
  | done
  | entries (entries : List CacheEntry)
  | stats (stats : CacheStats)
  | cleared (n : Nat)
  | full (result : Except CacheError (Option FullEntry))
  | fullTrace (result : Except CacheError (List FullEntry))

/-- One call at the time `now`. -/
def exec (now : Int) : Op → Db → Reply × Db
  | .get key, db => ((Reply.exchange (c.get now key db).1), (c.get now key db).2)
  | .put key provider model exchange, db => (.done, c.put now key provider model exchange db)
  | .recordTrace traceId cacheKey, db => (.done, recordTrace traceId cacheKey db)
  | .getTrace traceId, db => (.entries (getTrace traceId db), db)
  | .stats, db => (.stats (stats db), db)
  | .clearEntries, db => (.cleared (clearEntries db).1, (clearEntries db).2)
  | .clearStats, db => (.done, clearStats db)
  | .listEntries, db => (.entries (listEntries db), db)
  | .inspect key, db => (.full (c.inspect key db), db)
  | .inspectTrace traceId, db => (.fullTrace (c.inspectTrace traceId db), db)

/-- The tables after a history of calls on an empty database, latest first. -/
def after : List (Int × Op) → Db
  | [] => .empty
  | (now, op) :: earlier => (c.exec now op (after earlier)).2

end Cache

end LlmCacheProxy
