import LlmCacheProxy.CacheRefinement
import LlmCacheProxy.Foundation.Transaction

/-!
# Lookups that fail

A lookup fails in a statement of SQLite or where the stored exchange is read
back. Statements that fail change nothing, and the counters of a hit are
updated in one transaction. It is committed before the exchange is read, so an
exchange that cannot be read has been counted as served.
-/

namespace LlmCacheProxy

open Transaction

/-- The statements of `get`. -/
inductive GetStep where
  | select
  | countMiss
  | start
  | countEntryHit
  | countHit
  | countBytes
  | commit
  deriving DecidableEq

inductive LookupError where
  | sqlite (message : Text)
  | cache (e : CacheError)
  deriving DecidableEq

namespace Cache

variable (c : Cache) (now : Int) (fault : GetStep → Option Text)

/-! ### The lookup with its statements -/

/-- The statement that counts a miss. -/
def noteMiss (db : Db) : Except LookupError (Option Exchange) × Db :=
  match Statement.run ⟨fault .countMiss, fun db => db.count "misses" 1⟩ db with
  | (.error e, db) => (.error (.sqlite e), db)
  | (.ok (), db) => (.ok none, db)

/-- The transaction of a hit. -/
def hitStatements (key : Text) (row : EntryRow) : List (Statement Db Text) :=
  [⟨fault .start, id⟩,
    ⟨fault .countEntryHit, fun db => db.hit key⟩,
    ⟨fault .countHit, fun db => db.count "hits" 1⟩,
    ⟨fault .countBytes, fun db => db.count "bytes_served_from_cache" row.respBytes⟩,
    ⟨fault .commit, id⟩]

/-- Where the time to live has passed. -/
def expired (row : EntryRow) : Prop :=
  0 < c.ttlSeconds ∧ c.ttlSeconds < c.ageSeconds now row.createdAt

instance (row : EntryRow) : Decidable (c.expired now row) := inferInstanceAs (Decidable (_ ∧ _))

/-- `get`, where `fault` says which of its statements fail, and with what. The
statement that selects fails too when a column is not of its type. -/
def tryGet (key : Text) (db : Db) : Except LookupError (Option Exchange) × Db :=
  match fault .select with
  | some e => (.error (.sqlite e), db)
  | none =>
      match db.entries.find? key with
      | none => noteMiss fault db
      | some row =>
          if c.expired now row then noteMiss fault db
          else
            match Transaction.run (hitStatements fault key row) db with
            | (.error e, db) => (.error (.sqlite e), db)
            | (.ok (), db) =>
                (((c.decode "deserializing cached exchange" row.exchangeJson).map some).mapError
                  .cache, db)

variable {c now fault} {key : Text} {db : Db} {row : EntryRow}

theorem effects_hitStatements (key : Text) (row : EntryRow) (db : Db) :
    effects (hitStatements fault key row) db =
      ((db.hit key).count "hits" 1).count "bytes_served_from_cache" row.respBytes := rfl

theorem noteMiss_of_none (h : fault .countMiss = none) (db : Db) :
    noteMiss fault db = (.ok none, db.count "misses" 1) := by
  rw [noteMiss, Statement.run_of_none h]

/-- No statement of a hit fails. -/
def HitSucceeds (fault : GetStep → Option Text) : Prop :=
  ∀ step, step ≠ .countMiss → fault step = none

theorem faultless_hitStatements_iff :
    Faultless (hitStatements fault key row) ∧ fault .select = none ↔ HitSucceeds fault := by
  simp only [Faultless, hitStatements, List.forall_mem_cons, List.not_mem_nil, false_implies,
    implies_true, and_true]
  constructor
  · rintro ⟨⟨hstart, hentry, hhit, hbytes, hcommit⟩, hselect⟩ step hstep
    cases step with
    | countMiss => exact absurd rfl hstep
    | select | start | countEntryHit | countHit | countBytes | commit => assumption
  · intro h
    exact ⟨⟨h .start (by decide), h .countEntryHit (by decide), h .countHit (by decide),
      h .countBytes (by decide), h .commit (by decide)⟩, h .select (by decide)⟩

theorem tryGet_of_hit (hrow : db.entries.find? key = some row) (hexp : ¬ c.expired now row)
    (h : HitSucceeds fault) :
    c.tryGet now fault key db =
      (((c.decode "deserializing cached exchange" row.exchangeJson).map some).mapError .cache,
        ((db.hit key).count "hits" 1).count "bytes_served_from_cache" row.respBytes) := by
  have hboth : Faultless (hitStatements fault key row) ∧ fault .select = none :=
    faultless_hitStatements_iff.mpr h
  obtain ⟨hfaultless, hselect⟩ := hboth
  simp only [tryGet, hselect, hrow, if_neg hexp, run_of_faultless hfaultless,
    effects_hitStatements]

theorem noteMiss_cases (db : Db) :
    (∃ e, noteMiss fault db = (.error (.sqlite e), db)) ∨
      noteMiss fault db = (.ok none, db.count "misses" 1) := by
  cases h : fault .countMiss with
  | none => exact Or.inr (noteMiss_of_none h db)
  | some e => exact Or.inl ⟨e, by simp [noteMiss, Statement.run, h]⟩

/-- What a lookup can do. Only the last way is a hit. -/
theorem tryGet_cases (c : Cache) (now : Int) (fault : GetStep → Option Text) (key : Text)
    (db : Db) :
    (∃ e, c.tryGet now fault key db = (.error (.sqlite e), db)) ∨
      c.tryGet now fault key db = (.ok none, db.count "misses" 1) ∨
        ∃ row, db.entries.find? key = some row ∧ ¬ c.expired now row ∧ HitSucceeds fault := by
  cases hselect : fault .select with
  | some e => exact Or.inl ⟨e, by simp only [tryGet, hselect]⟩
  | none =>
      cases hrow : db.entries.find? key with
      | none =>
          simp only [tryGet, hselect, hrow]
          exact (noteMiss_cases db).imp_right Or.inl
      | some row =>
          by_cases hexp : c.expired now row
          · simp only [tryGet, hselect, hrow, if_pos hexp]
            exact (noteMiss_cases db).imp_right Or.inl
          by_cases hfaultless : Faultless (hitStatements fault key row)
          · exact Or.inr (Or.inr ⟨row, rfl, hexp,
              faultless_hitStatements_iff.mp ⟨hfaultless, hselect⟩⟩)
          · obtain ⟨e, he⟩ := run_of_not_faultless hfaultless db
            exact Or.inl ⟨e, by simp only [tryGet, hselect, hrow, if_neg hexp, he]⟩

/-- Without faults it is the lookup that the handler and the histories use. -/
theorem tryGet_of_faultless (h : ∀ step, fault step = none) (key : Text) (db : Db) :
    c.tryGet now fault key db =
      ((c.get now key db).1.mapError .cache, (c.get now key db).2) := by
  cases hrow : db.entries.find? key with
  | none => simp only [tryGet, get, h, hrow, noteMiss_of_none (h _), Except.mapError]
  | some row =>
      by_cases hexp : c.expired now row
      · have hold : 0 < c.ttlSeconds ∧ c.ttlSeconds < c.ageSeconds now row.createdAt := hexp
        simp only [tryGet, get, h, hrow, if_pos hexp, if_pos hold, noteMiss_of_none (h _),
          Except.mapError]
      · have hnew : ¬ (0 < c.ttlSeconds ∧ c.ttlSeconds < c.ageSeconds now row.createdAt) := hexp
        rw [tryGet_of_hit hrow hexp fun step _ => h step]
        simp only [get, hrow, if_neg hnew]

/-! ### Failed lookups -/

/-- The counters and the hit counts of the entries are the same. -/
structure SameCounts (db db' : Db) : Prop where
  hits : (stats db').hits = (stats db).hits
  misses : (stats db').misses = (stats db).misses
  bytesServed : (stats db').bytesServedFromCache = (stats db).bytesServedFromCache
  hitCount : ∀ k, (db'.entries.find? k).map EntryRow.hitCount =
    (db.entries.find? k).map EntryRow.hitCount

theorem SameCounts.refl (db : Db) : SameCounts db db := ⟨rfl, rfl, rfl, fun _ => rfl⟩

/-- Every entry that a lookup of the key serves can be read, or one of the
statements that serve it fails. -/
def Readable (c : Cache) (now : Int) (fault : GetStep → Option Text) (key : Text) (db : Db) :
    Prop :=
  ∀ row, db.entries.find? key = some row → ¬ c.expired now row → HitSucceeds fault →
    (c.crates.fromJson row.exchangeJson).isSome = true

/-- A hit has been counted, so its counts are not the same. -/
theorem not_sameCounts_hit (key : Text) (n : Nat) (db : Db) :
    ¬ SameCounts db (((db.hit key).count "hits" 1).count "bytes_served_from_cache" n) := by
  intro h
  have hhits : _ = db.stats.getD "hits" 0 := h.hits
  have hne : Text.ofString "hits" ≠ "bytes_served_from_cache" := by decide
  simp only [stats, Db.count, SortedMap.getD_upsert, if_neg hne, if_pos] at hhits
  exact absurd hhits (Nat.succ_ne_self _)

/-- A failed lookup leaves every count as it was exactly when the entry it would
serve can be read, or a statement fails before it is counted as served. -/
theorem tryGet_error_unchanged_iff (c : Cache) (now : Int) (fault : GetStep → Option Text)
    (key : Text) (db : Db) :
    (∀ e, (c.tryGet now fault key db).1 = .error e →
        SameCounts db (c.tryGet now fault key db).2) ↔ Readable c now fault key db := by
  constructor
  · intro h row hrow hexp hsucceeds
    cases hjson : c.crates.fromJson row.exchangeJson with
    | some exchange => rfl
    | none =>
        rw [tryGet_of_hit hrow hexp hsucceeds] at h
        have hcounts := h (.cache (.deserializing "deserializing cached exchange")) (by
          simp [decode, hjson, Except.map, Except.mapError])
        exact absurd hcounts (not_sameCounts_hit key row.respBytes db)
  · intro h e herr
    rcases tryGet_cases c now fault key db with ⟨e', he⟩ | hmiss | ⟨row, hrow, hexp, hsucceeds⟩
    · rw [he]
      exact .refl db
    · rw [hmiss] at herr
      cases herr
    · obtain ⟨exchange, hjson⟩ := Option.isSome_iff_exists.mp (h row hrow hexp hsucceeds)
      rw [tryGet_of_hit hrow hexp hsucceeds] at herr
      simp [decode, hjson, Except.map, Except.mapError] at herr

/-- A row whose exchange was cut off behind its first byte. -/
def cutRow : EntryRow where
  key := "k"
  createdAt := "1970-01-01T00:00:00+00:00"
  status := 200
  contentType := "application/json"
  exchangeJson := "\x7b"
  provider := "openai"
  model := none
  reqBytes := 2
  respBytes := 2
  hitCount := 0

def cutDb : Db := ⟨Table.empty.replace cutRow, .empty, .empty⟩

private theorem fromJson_cutRow : sampleCrates.fromJson cutRow.exchangeJson = none := by
  apply dif_neg
  rintro ⟨e, he⟩
  have hbytes := congrArg Text.bytes he
  obtain ⟨-, hrest⟩ := List.cons.inj hbytes
  cases hrest

/-- The row is found and cannot be read, and is counted as served. -/
theorem unreadable_counted :
    ((⟨sampleCrates, 0⟩ : Cache).tryGet 0 (fun _ => none) "k" cutDb).1 =
        .error (.cache (.deserializing "deserializing cached exchange")) ∧
      ¬ SameCounts cutDb ((⟨sampleCrates, 0⟩ : Cache).tryGet 0 (fun _ => none) "k" cutDb).2 := by
  have hexp : ¬ (⟨sampleCrates, 0⟩ : Cache).expired 0 cutRow := fun h => absurd h.1 (by decide)
  have hrow : cutDb.entries.find? "k" = some cutRow := rfl
  rw [tryGet_of_hit hrow hexp fun _ _ => rfl]
  constructor
  · simp [decode, fromJson_cutRow, Except.map, Except.mapError]
  · exact not_sameCounts_hit _ _ _

end Cache

end LlmCacheProxy
