import LlmCacheProxy.CacheRefinement
import LlmCacheProxy.Foundation.Rfc3339

/-!
# Entries in the order of their puts

Listings are ordered by the text in `created_at`. It is printed with as many
digits as the clock happens to need, and still its order is that of the instants.
-/

namespace LlmCacheProxy

open Calendar ExpiringStore

/-- What `to_rfc3339` prints, for the years of four digits. -/
def PrintsRfc3339 (x : CacheCrates) : Prop :=
  ∀ u : Utc, u.date.year ≤ 9999 → x.toRfc3339 u.nanos = Rfc3339.print u

theorem PrintsRfc3339.lt {x : CacheCrates} (hx : PrintsRfc3339 x) {s t : Int} (hs : InYears s)
    (ht : InYears t) (h : s < t) : x.toRfc3339 s < x.toRfc3339 t := by
  obtain ⟨u, hu, rfl⟩ := hs
  obtain ⟨v, hv, rfl⟩ := ht
  rw [hx u hu, hx v hv]
  exact Rfc3339.print_lt h hv

theorem PrintsRfc3339.le_of_le {x : CacheCrates} (hx : PrintsRfc3339 x) {s t : Int}
    (hs : InYears s) (ht : InYears t) (h : x.toRfc3339 s ≤ x.toRfc3339 t) : s ≤ t := by
  by_contra hlt
  exact absurd h (not_le_of_gt (hx.lt ht hs (lt_of_not_ge hlt)))

namespace Cache

/-! ### When an entry was written -/

/-- The time of the put that an entry of the key is from. -/
def lastPut (hist : List (Int × Op)) (k : Text) : Option Int :=
  (latest k (history hist)).map Prod.fst

theorem lastPut_cons_of_keeps {k : Text} {call : Int × Op} (hkeep : Keeps k call.2.event)
    (hist : List (Int × Op)) : lastPut (call :: hist) k = lastPut hist k := by
  rw [lastPut, history, List.map_cons, ← List.singleton_append, latest_append_of_keeps]
  · rfl
  · simpa using hkeep

variable {c : Cache} {hist : List (Int × Op)}

/-- A row bears the time of the last put of its key, and a hit leaves it. -/
theorem createdAt_of_mem {row : EntryRow} (hrow : row ∈ (c.after hist).entries.rows) :
    ∃ t, lastPut hist row.key = some t ∧ row.createdAt = c.crates.toRfc3339 t ∧
      ∃ call ∈ hist, call.1 = t := by
  induction hist generalizing row with
  | nil => cases hrow
  | cons call earlier ih =>
      obtain ⟨now, op⟩ := call
      rcases mem_rows_exec hrow with ⟨old, hold, hsame, hkeep⟩ | ⟨key, p, model, e, rfl, rfl⟩
      · obtain ⟨t, hput, hcreated, call, hcall, htime⟩ := ih hold
        have hkey : row.key = old.key := by rcases hsame with rfl | rfl <;> rfl
        have htext : row.createdAt = old.createdAt := by rcases hsame with rfl | rfl <;> rfl
        refine ⟨t, ?_, htext.trans hcreated, call, List.mem_cons_of_mem _ hcall, htime⟩
        rw [lastPut_cons_of_keeps hkeep, hkey, hput]
      · refine ⟨now, ?_, rfl, _, List.mem_cons_self .., rfl⟩
        simp [lastPut, history, Op.event, latest, rowOf]

/-! ### Listings -/

/-- Each of the keys has an entry, and the times of their last puts are in the
order. -/
def PutInOrder (r : Int → Int → Prop) (hist : List (Int × Op)) (keys : List Text) : Prop :=
  ∃ times : List Int, keys.map (lastPut hist) = times.map some ∧ times.Pairwise r

/-- Rows in an order of their texts are in the order of their times. -/
theorem putInOrder_of_pairwise {r : Int → Int → Prop} {rows : List EntryRow}
    (hrows : ∀ row ∈ rows, row ∈ (c.after hist).entries.rows)
    (hr : rows.Pairwise fun a b => ∀ s t, (∃ call ∈ hist, call.1 = s) → (∃ call ∈ hist, call.1 = t) →
      a.createdAt = c.crates.toRfc3339 s → b.createdAt = c.crates.toRfc3339 t → r s t) :
    PutInOrder r hist (rows.map EntryRow.key) := by
  refine ⟨rows.map fun row => (lastPut hist row.key).getD 0, ?_, ?_⟩
  · rw [List.map_map, List.map_map]
    apply List.map_congr_left
    intro row hrow
    obtain ⟨t, hput, -⟩ := createdAt_of_mem (hrows row hrow)
    simp [hput]
  · rw [List.pairwise_map]
    apply hr.imp_of_mem
    intro a b ha hb hab
    obtain ⟨s, hs, hsa, hscall⟩ := createdAt_of_mem (hrows a ha)
    obtain ⟨t, ht, htb, htcall⟩ := createdAt_of_mem (hrows b hb)
    rw [hs, ht]
    exact hab s t hscall htcall hsa htb

section Listings

variable (hc : PrintsRfc3339 c.crates) (hclock : ∀ call ∈ hist, InYears call.1)
include hc hclock

theorem listEntries_inOrder :
    PutInOrder (fun s t => t ≤ s) hist ((listEntries (c.after hist)).map CacheEntry.key) := by
  have htotal : Std.Total fun a b : EntryRow => b.createdAt ≤ a.createdAt :=
    ⟨fun a b => le_total b.createdAt a.createdAt⟩
  have htrans : IsTrans EntryRow fun a b => b.createdAt ≤ a.createdAt :=
    ⟨fun _ _ _ hab hbc => hbc.trans hab⟩
  rw [listEntries, List.map_map]
  apply putInOrder_of_pairwise (c := c)
  · exact fun row hrow => List.mem_insertionSort _ |>.mp hrow
  · apply (List.pairwise_insertionSort _ _).imp
    rintro a b hab _ _ ⟨call, hcall, rfl⟩ ⟨call', hcall', rfl⟩ ha hb
    rw [ha, hb] at hab
    exact hc.le_of_le (hclock _ hcall') (hclock _ hcall) hab

theorem traceRows_inOrder (g : Text) :
    PutInOrder (· ≤ ·) hist ((traceRows g (c.after hist)).map EntryRow.key) := by
  have htotal : Std.Total fun a b : EntryRow => a.createdAt ≤ b.createdAt :=
    ⟨fun a b => le_total a.createdAt b.createdAt⟩
  have htrans : IsTrans EntryRow fun a b => a.createdAt ≤ b.createdAt :=
    ⟨fun _ _ _ hab hbc => hab.trans hbc⟩
  apply putInOrder_of_pairwise (c := c)
  · intro row hrow
    rw [traceRows, List.mem_insertionSort] at hrow
    exact List.mem_of_mem_filter hrow
  · apply (List.pairwise_insertionSort _ _).imp
    rintro a b hab _ _ ⟨call, hcall, rfl⟩ ⟨call', hcall', rfl⟩ ha hb
    rw [ha, hb] at hab
    exact hc.le_of_le (hclock _ hcall) (hclock _ hcall') hab

end Listings

private theorem map_key_of_mapM {what : Text} {rows : List EntryRow} {es : List FullEntry}
    (h : (rows.mapM fun row => (c.decode what row.exchangeJson).map row.toFullEntry) = .ok es) :
    es.map FullEntry.key = rows.map EntryRow.key := by
  induction rows generalizing es with
  | nil =>
      obtain rfl := Except.ok.inj h
      rfl
  | cons row rows ih =>
      rw [List.mapM_cons] at h
      cases hd : c.decode what row.exchangeJson with
      | error e =>
          rw [hd] at h
          cases h
      | ok exchange =>
          cases hrest : rows.mapM fun row =>
              (c.decode what row.exchangeJson).map row.toFullEntry with
          | error e =>
              rw [hd, hrest] at h
              cases h
          | ok rest =>
              rw [hd, hrest] at h
              obtain rfl := Except.ok.inj h
              rw [List.map_cons, ih hrest]
              rfl

/-- The texts in `created_at` are ordered as the instants are, so the listings of
every history stand in the order of the last puts. -/
theorem createdAt_chronological {c : Cache} (hc : PrintsRfc3339 c.crates) :
    (∀ s t, InYears s → InYears t → s ≤ t → c.crates.toRfc3339 s ≤ c.crates.toRfc3339 t ∧
      (c.crates.toRfc3339 s = c.crates.toRfc3339 t → s = t)) ∧
    ∀ hist : List (Int × Op), (∀ call ∈ hist, InYears call.1) →
      PutInOrder (fun s t => t ≤ s) hist ((listEntries (c.after hist)).map CacheEntry.key) ∧
      (∀ g, PutInOrder (· ≤ ·) hist ((getTrace g (c.after hist)).map CacheEntry.key)) ∧
      ∀ g es, c.inspectTrace g (c.after hist) = .ok es →
        PutInOrder (· ≤ ·) hist (es.map FullEntry.key) := by
  constructor
  · intro s t hs ht hle
    rcases hle.lt_or_eq with hlt | rfl
    · have htext := hc.lt hs ht hlt
      exact ⟨htext.le, fun heq => absurd heq htext.ne⟩
    · exact ⟨le_rfl, fun _ => rfl⟩
  · intro hist hclock
    refine ⟨listEntries_inOrder hc hclock, fun g => ?_, fun g es hes => ?_⟩
    · rw [getTrace, List.map_map]
      exact traceRows_inOrder hc hclock g
    · rw [map_key_of_mapM hes]
      exact traceRows_inOrder hc hclock g

/-! ### A sample -/

/-- A clock that prints as `chrono` does. -/
noncomputable def clockCrates : CacheCrates :=
  { sampleCrates with toRfc3339 := fun t => Rfc3339.print (Utc.ofNanos t) }

theorem clockCrates_prints : PrintsRfc3339 clockCrates := by
  intro u _
  exact congrArg Rfc3339.print (Utc.ofNanos_nanos u)

/-- A put at half a second, then one by a clock that was set back to zero. -/
def halfCalls : List (Int × Op) :=
  [(2, .recordTrace "t" "a"), (1, .recordTrace "t" "b"),
    (0, .put "b" "openai" none sampleExchange),
    (500000000, .put "a" "openai" none sampleExchange)]

theorem createdAt_chronological_half :
    clockCrates.toRfc3339 0 ≤ clockCrates.toRfc3339 500000000 ∧
      PutInOrder (· ≤ ·) halfCalls
        ((getTrace "t" ((⟨clockCrates, 0⟩ : Cache).after halfCalls)).map CacheEntry.key) := by
  have hyears {t : Int} (h₀ : 0 ≤ t) (h₁ : t ≤ 500000000) : InYears t :=
    inYears_iff.mpr ⟨by omega, by omega⟩
  have hchron := createdAt_chronological (c := ⟨clockCrates, 0⟩) clockCrates_prints
  constructor
  · exact (hchron.1 0 500000000 (hyears le_rfl (by decide)) (hyears (by decide) le_rfl)
      (by decide)).1
  · apply (hchron.2 _ _).2.1
    simp only [halfCalls, List.forall_mem_cons, List.not_mem_nil, false_implies, implies_true,
      and_true]
    exact ⟨hyears (by decide) (by decide), hyears (by decide) (by decide),
      hyears le_rfl (by decide), hyears (by decide) le_rfl⟩

end Cache

end LlmCacheProxy
