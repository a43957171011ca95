import LlmCacheProxy.Sse.Fields

/-!
# The sliding window of one accumulator

A non-terminal flush keeps back as many bytes as the longest fake has, and cuts
earlier where a fake may have begun before that boundary. A complete flush is
the same operation with the hold window set to zero.
-/

namespace LlmCacheProxy.Sse

/-- A fake that the upstream saw and the secret it stands for. -/
structure Entry where
  fake : Bytes
  original : Bytes
  deriving DecidableEq

/-- The functions of `serde_json` and `doppel` that the restore stream calls,
the latter under the session key of the request. -/
structure Crates extends Serde where
  /-- `doppel::restore`. -/
  restore : List Entry → Bytes → Except Text Bytes
  /-- `doppel::restore_stream` over a one-chunk stream, collected. -/
  restoreStream : List Entry → Bytes → Except Text (List Bytes)

/-- An error item of the restore stream. -/
inductive IoError where
  /-- An error of the wrapped stream, passed on. -/
  | inner (message : Text)
  | restore (message : Text)
  /-- `restore produced non-UTF8`, with the output in question. -/
  | nonUtf8 (output : Bytes)
  deriving DecidableEq

/-- How processing a frame can stop: a string slice off a character boundary,
or an I/O error. -/
inductive Fault where
  | panic
  | io (error : IoError)
  deriving DecidableEq

/-- The context passed through the processing helpers. -/
structure SseCtx where
  crates : Crates
  entries : List Entry
  provider : Provider

/-- The hold window: the length of the longest fake. -/
def maxFakeLen (entries : List Entry) : Nat :=
  (entries.map fun e => e.fake.length).foldr max 0

theorem length_le_maxFakeLen {entries : List Entry} {e : Entry} (h : e ∈ entries) :
    e.fake.length ≤ maxFakeLen entries := by
  induction entries with
  | nil => cases h
  | cons e' rest ih =>
      simp only [maxFakeLen, List.map_cons, List.foldr_cons]
      rcases List.mem_cons.mp h with rfl | h
      · exact le_max_left _ _
      · exact (ih h).trans (le_max_right _ _)

/-! ### The cut -/

/-- The length of the longest prefix of `fake`, at most `k` bytes long, that
ends at `nominal`; zero when there is none. -/
def partialLen (accum fake : Bytes) (nominal : Nat) : Nat → Nat
  | 0 => 0
  | k + 1 =>
      if (accum.take nominal).drop (nominal - (k + 1)) = fake.take (k + 1) then k + 1
      else partialLen accum fake nominal k

/-- The nominal boundary, retracted before every partial fake that ends there. -/
def safeTarget (entries : List Entry) (accum : Bytes) (nominal : Nat) : Nat :=
  entries.foldl
    (fun safe e =>
      min safe (nominal - partialLen accum e.fake nominal (min (e.fake.length - 1) nominal)))
    nominal

/-- Where the accumulator is cut under the given hold window. -/
def cutPoint (entries : List Entry) (holdWindow : Nat) (accum : Bytes) : Nat :=
  let nominal := accum.length - holdWindow
  let target := if 0 < holdWindow then safeTarget entries accum nominal else nominal
  Utf8.floorCharBoundary accum target

/-- One call of restore: the key it was made for, the segment cut off its
accumulator and the restored text. -/
structure Cut where
  key : FieldKey
  segment : Text
  restored : Text
  deriving DecidableEq

/-- Restore a segment and check that the output is UTF-8. -/
def Crates.restoreText (c : Crates) (entries : List Entry) (segment : Text) :
    Except IoError Text :=
  match c.restore entries segment.bytes with
  | .error message => .error (.restore message)
  | .ok output =>
      match Text.ofUtf8? output with
      | some restored => .ok restored
      | none => .error (.nonUtf8 output)

/-- Flush the safe prefix of one accumulator: what is left of it, and the cut. -/
def flushSafePrefix (c : Crates) (entries : List Entry) (holdWindow : Nat) (key : FieldKey)
    (accum : Text) : Except Fault (Text × List Cut) :=
  if accum.length ≤ holdWindow then .ok (accum, [])
  else
    let safeLen := cutPoint entries holdWindow accum.bytes
    if safeLen = 0 then .ok (accum, [])
    else
      match accum.splitAt? safeLen with
      | none => .error .panic
      | some (safePrefix, rest) =>
          match c.restoreText entries safePrefix with
          | .error e => .error (.io e)
          | .ok restored => .ok (rest, [⟨key, safePrefix, restored⟩])

/-! ### Partial fakes -/

/-- A nonempty proper prefix of `fake` runs from `start` to `nominal`. -/
def PartialAt (accum fake : Bytes) (nominal start : Nat) : Prop :=
  start < nominal ∧ nominal - start < fake.length ∧
    (accum.take nominal).drop start = fake.take (nominal - start)

instance (accum fake : Bytes) (nominal start : Nat) :
    Decidable (PartialAt accum fake nominal start) :=
  inferInstanceAs (Decidable (_ ∧ _ ∧ _))

/-- What is cut off in front of a partial fake does not matter. -/
theorem partialAt_drop {accum fake : Bytes} {nominal n : Nat} (hn : n ≤ nominal) (start : Nat) :
    PartialAt (accum.drop n) fake (nominal - n) start ↔
      PartialAt accum fake nominal (n + start) := by
  have hlen : nominal - n - start = nominal - (n + start) := by omega
  have hlt : start < nominal - n ↔ n + start < nominal := by omega
  rw [PartialAt, PartialAt, List.take_drop, List.drop_drop, Nat.add_sub_cancel' hn, hlen, hlt]

/-- A partial fake is one at every earlier boundary behind its start. -/
theorem PartialAt.of_append {accum later fake : Bytes} {nominal start n : Nat}
    (h : PartialAt (accum ++ later) fake nominal start) (hstart : start < n) (hn : n ≤ nominal)
    (hlen : n ≤ accum.length) : PartialAt accum fake n start := by
  obtain ⟨-, hshort, heq⟩ := h
  refine ⟨hstart, by omega, ?_⟩
  have htake := congrArg (List.take (n - start)) heq
  rw [← List.drop_take, List.take_take, Nat.min_eq_left hn, List.take_append_of_le_length hlen,
    List.take_take, Nat.min_eq_left (by omega)] at htake
  exact htake

theorem partialLen_le (accum fake : Bytes) (nominal k : Nat) :
    partialLen accum fake nominal k ≤ k := by
  induction k with
  | zero => rfl
  | succ k ih =>
      simp only [partialLen]
      split
      · exact le_rfl
      · exact ih.trans (Nat.le_succ k)

theorem partialLen_spec (accum fake : Bytes) (nominal k : Nat) :
    partialLen accum fake nominal k = 0 ∨
      (accum.take nominal).drop (nominal - partialLen accum fake nominal k) =
        fake.take (partialLen accum fake nominal k) := by
  induction k with
  | zero => exact Or.inl rfl
  | succ k ih =>
      simp only [partialLen]
      split
      · rename_i h
        exact Or.inr h
      · exact ih

theorem le_partialLen {accum fake : Bytes} {nominal k j : Nat} (hj : j ≤ k)
    (h : (accum.take nominal).drop (nominal - j) = fake.take j) :
    j ≤ partialLen accum fake nominal k := by
  induction k with
  | zero => omega
  | succ k ih =>
      simp only [partialLen]
      split
      · exact hj
      · rename_i hne
        rcases Nat.lt_or_eq_of_le hj with hlt | rfl
        · exact ih (by omega)
        · exact absurd h hne

/-- The retraction for one entry, as a bound on where its partial fakes start. -/
private theorem safeTarget_entry {accum fake : Bytes} {nominal start : Nat}
    (h : PartialAt accum fake nominal start) :
    nominal - partialLen accum fake nominal (min (fake.length - 1) nominal) ≤ start := by
  obtain ⟨hlt, hlen, heq⟩ := h
  have hstart : (accum.take nominal).drop (nominal - (nominal - start)) =
      fake.take (nominal - start) := by
    rw [show nominal - (nominal - start) = start by omega]
    exact heq
  have hle : nominal - start ≤ partialLen accum fake nominal (min (fake.length - 1) nominal) :=
    le_partialLen (by omega) hstart
  omega

private theorem foldl_min_le (entries : List Entry) (f : Entry → Nat) (a : Nat) :
    entries.foldl (fun safe e => min safe (f e)) a ≤ a ∧
      ∀ e ∈ entries, entries.foldl (fun safe e => min safe (f e)) a ≤ f e := by
  induction entries generalizing a with
  | nil => simp
  | cons e rest ih =>
      obtain ⟨h₁, h₂⟩ := ih (min a (f e))
      simp only [List.foldl_cons]
      refine ⟨h₁.trans (min_le_left _ _), fun e' he' => ?_⟩
      rcases List.mem_cons.mp he' with rfl | he'
      · exact h₁.trans (min_le_right _ _)
      · exact h₂ e' he'

private theorem foldl_min_mem (entries : List Entry) (f : Entry → Nat) (a : Nat) :
    entries.foldl (fun safe e => min safe (f e)) a = a ∨
      ∃ e ∈ entries, entries.foldl (fun safe e => min safe (f e)) a = f e := by
  induction entries generalizing a with
  | nil => exact Or.inl rfl
  | cons e rest ih =>
      simp only [List.foldl_cons]
      rcases ih (min a (f e)) with h | ⟨e', he', h⟩
      · rcases le_total a (f e) with hle | hle
        · exact Or.inl (h.trans (min_eq_left hle))
        · exact Or.inr ⟨e, by simp, h.trans (min_eq_right hle)⟩
      · exact Or.inr ⟨e', by simp [he'], h⟩

theorem safeTarget_le (entries : List Entry) (accum : Bytes) (nominal : Nat) :
    safeTarget entries accum nominal ≤ nominal :=
  (foldl_min_le _ _ _).1

/-- No partial fake that ends at the nominal boundary starts before the target. -/
theorem safeTarget_le_start {entries : List Entry} {e : Entry} (he : e ∈ entries)
    {accum : Bytes} {nominal start : Nat} (h : PartialAt accum e.fake nominal start) :
    safeTarget entries accum nominal ≤ start :=
  ((foldl_min_le _ _ _).2 e he).trans (safeTarget_entry h)

/-- A retracted target is the start of a partial fake. -/
theorem partialAt_safeTarget {entries : List Entry} {accum : Bytes} {nominal : Nat}
    (h : safeTarget entries accum nominal ≠ nominal) :
    ∃ e ∈ entries, PartialAt accum e.fake nominal (safeTarget entries accum nominal) := by
  rcases foldl_min_mem entries (fun e => nominal -
      partialLen accum e.fake nominal (min (e.fake.length - 1) nominal)) nominal with heq | ⟨e, he, heq⟩
  · exact absurd heq h
  · have hle := partialLen_le accum e.fake nominal (min (e.fake.length - 1) nominal)
    have heq : safeTarget entries accum nominal =
        nominal - partialLen accum e.fake nominal (min (e.fake.length - 1) nominal) := heq
    rcases partialLen_spec accum e.fake nominal (min (e.fake.length - 1) nominal) with hz | hp
    · omega
    · refine ⟨e, he, by omega, by omega, ?_⟩
      rw [heq, show nominal - (nominal - partialLen accum e.fake nominal
        (min (e.fake.length - 1) nominal)) =
          partialLen accum e.fake nominal (min (e.fake.length - 1) nominal) by omega]
      exact hp

/-! ### The flush -/

theorem isCharBoundary_cutPoint (entries : List Entry) (holdWindow : Nat) (accum : Bytes) :
    Utf8.isCharBoundary accum (cutPoint entries holdWindow accum) = true :=
  Utf8.isCharBoundary_floor _ _

/-- The cut leaves at least the hold window in the accumulator. -/
theorem cutPoint_le (entries : List Entry) (holdWindow : Nat) (accum : Bytes) :
    cutPoint entries holdWindow accum ≤ accum.length - holdWindow := by
  unfold cutPoint
  refine (Utf8.floorCharBoundary_le _ _).trans ?_
  split
  · exact safeTarget_le _ _ _
  · exact le_rfl

/-- A complete flush cuts at the end. -/
theorem cutPoint_zero (entries : List Entry) (accum : Text) :
    cutPoint entries 0 accum.bytes = accum.length := by
  have hb : Utf8.isCharBoundary accum.bytes accum.bytes.length = true :=
    (Utf8.isCharBoundary_iff accum.valid le_rfl).mpr (by
      rw [List.take_length]
      exact accum.valid)
  simpa [cutPoint] using Utf8.floorCharBoundary_eq_self hb

/-- What a flush does: nothing, or one cut at the cut point. -/
theorem flushSafePrefix_cases {c : Crates} {entries : List Entry} {w : Nat} {key : FieldKey}
    {accum rest : Text} {cuts : List Cut}
    (h : flushSafePrefix c entries w key accum = .ok (rest, cuts)) :
    (cutPoint entries w accum.bytes = 0 ∧ rest = accum ∧ cuts = []) ∨
      ∃ segment restored, cuts = [⟨key, segment, restored⟩] ∧ accum = segment ++ rest ∧
        segment.length = cutPoint entries w accum.bytes ∧
        cutPoint entries w accum.bytes ≠ 0 ∧ c.restoreText entries segment = .ok restored := by
  unfold flushSafePrefix at h
  split at h
  · rename_i hle
    obtain ⟨rfl, rfl⟩ := by simpa using h
    have := cutPoint_le entries w accum.bytes
    rw [Text.length_bytes] at this
    exact Or.inl ⟨by omega, rfl, rfl⟩
  simp only at h
  split at h
  · rename_i hz
    obtain ⟨rfl, rfl⟩ := by simpa using h
    exact Or.inl ⟨hz, rfl, rfl⟩
  rename_i hz
  split at h
  · cases h
  rename_i segment rest' hsplit
  split at h
  · cases h
  rename_i restored hr
  obtain ⟨rfl, rfl⟩ := by simpa using h
  obtain ⟨hb, hseg, hrest⟩ := Text.splitAt?_eq_some hsplit
  refine Or.inr ⟨segment, restored, rfl, Text.ext ?_, ?_, hz, hr⟩
  · simp [hseg, hrest]
  · rw [← Text.length_bytes, hseg, List.length_take]
    exact min_eq_left (Utf8.isCharBoundary_le hb)

/-- A flush never slices inside a character; it fails only where restore does. -/
theorem flushSafePrefix_error {c : Crates} {entries : List Entry} {w : Nat} {key : FieldKey}
    {accum : Text} {fault : Fault} (h : flushSafePrefix c entries w key accum = .error fault) :
    ∃ segment e, segment.bytes <+: accum.bytes ∧ c.restoreText entries segment = .error e ∧
      fault = .io e := by
  obtain ⟨l, r, hlr⟩ := Text.splitAt?_isSome (isCharBoundary_cutPoint entries w accum.bytes)
  simp only [flushSafePrefix, hlr] at h
  split at h
  · cases h
  split at h
  · cases h
  split at h
  · rename_i e he
    have hl : l.bytes <+: accum.bytes := by
      rw [(Text.splitAt?_eq_some hlr).2.1]
      exact List.take_prefix _ _
    exact ⟨l, e, hl, he, by simpa using h.symm⟩
  · cases h

/-- Every cut was made for the flushed key. -/
theorem flushSafePrefix_key {c : Crates} {entries : List Entry} {w : Nat} {key : FieldKey}
    {accum rest : Text} {cuts : List Cut}
    (h : flushSafePrefix c entries w key accum = .ok (rest, cuts)) :
    ∀ cut ∈ cuts, cut.key = key := by
  rcases flushSafePrefix_cases h with ⟨-, -, rfl⟩ | ⟨segment, restored, rfl, -⟩ <;> simp

/-- The segments handed to restore and the rest make up the accumulator. -/
theorem flushSafePrefix_concat {c : Crates} {entries : List Entry} {w : Nat} {key : FieldKey}
    {accum rest : Text} {cuts : List Cut}
    (h : flushSafePrefix c entries w key accum = .ok (rest, cuts)) :
    Text.concat (cuts.map Cut.segment) ++ rest = accum := by
  rcases flushSafePrefix_cases h with ⟨-, rfl, rfl⟩ | ⟨segment, restored, rfl, rfl, -⟩
  · simp
  · simp

/-- A complete flush empties the accumulator. -/
theorem flushSafePrefix_zero {c : Crates} {entries : List Entry} {key : FieldKey}
    {accum rest : Text} {cuts : List Cut}
    (h : flushSafePrefix c entries 0 key accum = .ok (rest, cuts)) : rest = Text.empty := by
  rcases flushSafePrefix_cases h with ⟨hz, rfl, -⟩ | ⟨segment, restored, -, heq, hlen, -⟩
  · rw [cutPoint_zero] at hz
    exact Text.eq_empty_iff.mpr (List.length_eq_zero_iff.mp hz)
  · rw [cutPoint_zero] at hlen
    have := congrArg (fun t : Text => t.bytes.length) heq
    simp only [Text.bytes_append, List.length_append, Text.length_bytes] at this
    exact Text.eq_empty_iff.mpr (List.length_eq_zero_iff.mp (by rw [Text.length_bytes]; omega))

/-! ### At rest -/

/-- The window flush has nothing left to cut. -/
def AtRest (entries : List Entry) (accum : Text) : Prop :=
  cutPoint entries (maxFakeLen entries) accum.bytes = 0

theorem atRest_empty (entries : List Entry) : AtRest entries Text.empty := by
  simpa [AtRest] using cutPoint_le entries (maxFakeLen entries) []

/-- Flushing at rest changes nothing. -/
theorem flushSafePrefix_of_atRest {entries : List Entry} {accum : Text}
    (h : AtRest entries accum) (c : Crates) (key : FieldKey) :
    flushSafePrefix c entries (maxFakeLen entries) key accum = .ok (accum, []) := by
  unfold flushSafePrefix
  split
  · rfl
  · exact if_pos h

/-- In front of all partial fakes a cut does not hide any: the retracted target
moves by exactly the bytes cut off. -/
private theorem safeTarget_drop {entries : List Entry} {accum : Bytes} {nominal n : Nat}
    (hn : n ≤ safeTarget entries accum nominal) :
    safeTarget entries (accum.drop n) (nominal - n) = safeTarget entries accum nominal - n := by
  have hle := safeTarget_le entries accum nominal
  apply le_antisymm
  · by_cases ht : safeTarget entries accum nominal = nominal
    · rw [ht]
      exact safeTarget_le _ _ _
    · obtain ⟨e, he, hpart⟩ := partialAt_safeTarget ht
      refine safeTarget_le_start he ((partialAt_drop (by omega) _).mpr ?_)
      rwa [Nat.add_sub_cancel' hn]
  · by_cases ht : safeTarget entries (accum.drop n) (nominal - n) = nominal - n
    · rw [ht]
      omega
    · obtain ⟨e, he, hpart⟩ := partialAt_safeTarget ht
      have := safeTarget_le_start he ((partialAt_drop (by omega) _).mp hpart)
      omega

/-- The cut of what is behind a boundary in front of all partial fakes. -/
private theorem cutPoint_drop {entries : List Entry} {holdWindow n : Nat} {accum : Bytes}
    (hb : Utf8.isCharBoundary accum n = true) (hn : n ≤ accum.length - holdWindow)
    (hsafe : 0 < holdWindow → n ≤ safeTarget entries accum (accum.length - holdWindow)) :
    cutPoint entries holdWindow (accum.drop n) = cutPoint entries holdWindow accum - n := by
  have hnominal : accum.length - n - holdWindow = accum.length - holdWindow - n := by omega
  simp only [cutPoint, List.length_drop, hnominal]
  by_cases hpos : 0 < holdWindow
  · rw [if_pos hpos, if_pos hpos, safeTarget_drop (hsafe hpos),
      Utf8.floorCharBoundary_drop hb (hsafe hpos)]
  · rw [if_neg hpos, if_neg hpos, Utf8.floorCharBoundary_drop hb hn]

theorem cutPoint_le_safeTarget {entries : List Entry} {holdWindow : Nat} {accum : Bytes}
    (hpos : 0 < holdWindow) :
    cutPoint entries holdWindow accum ≤
      safeTarget entries accum (accum.length - holdWindow) := by
  rw [cutPoint, if_pos hpos]
  exact Utf8.floorCharBoundary_le _ _

/-- The window flush leaves its accumulator at rest. -/
theorem atRest_of_flush {c : Crates} {entries : List Entry} {key : FieldKey} {accum rest : Text}
    {cuts : List Cut}
    (h : flushSafePrefix c entries (maxFakeLen entries) key accum = .ok (rest, cuts)) :
    AtRest entries rest := by
  rcases flushSafePrefix_cases h with ⟨hz, rfl, -⟩ | ⟨segment, restored, -, heq, hlen, hpos, -⟩
  · exact hz
  have hrest : rest.bytes =
      accum.bytes.drop (cutPoint entries (maxFakeLen entries) accum.bytes) := by
    rw [← hlen, heq, Text.bytes_append, ← Text.length_bytes, List.drop_left]
  rw [AtRest, hrest, cutPoint_drop (isCharBoundary_cutPoint _ _ _) (cutPoint_le _ _ _)
    cutPoint_le_safeTarget, Nat.sub_self]

/-- What has been read of a partial fake was a partial fake before. -/
private theorem PartialAt.earlier {accum fake : Bytes} {nominal nominal' start : Nat}
    (h : PartialAt accum fake nominal start) (hle : nominal' ≤ nominal) (hlt : start < nominal') :
    PartialAt accum fake nominal' start := by
  obtain ⟨-, hlen, heq⟩ := h
  refine ⟨hlt, by omega, ?_⟩
  have htake := congrArg (List.take (nominal' - start)) heq
  rwa [List.take_drop, List.take_take, List.take_take, Nat.min_eq_left (by omega),
    Nat.min_eq_left (by omega), Nat.add_sub_cancel' (by omega)] at htake

/-- More text does not uncover a partial fake in front of an earlier cut, so the
cut of the whole is the earlier cut and the cut of what was left. -/
theorem cutPoint_append (entries : List Entry) (holdWindow : Nat) (accum text : Text) :
    cutPoint entries holdWindow (accum ++ text).bytes =
      cutPoint entries holdWindow accum.bytes + cutPoint entries holdWindow
        ((accum ++ text).bytes.drop (cutPoint entries holdWindow accum.bytes)) := by
  have hle := cutPoint_le entries holdWindow accum.bytes
  have htake {i : Nat} (hi : i ≤ accum.bytes.length) :
      (accum ++ text).bytes.take i = accum.bytes.take i := by
    rw [Text.bytes_append, List.take_append_of_le_length hi]
  have hlength : (accum ++ text).bytes.length = accum.bytes.length + text.bytes.length := by
    rw [Text.bytes_append, List.length_append]
  have hb : Utf8.isCharBoundary (accum ++ text).bytes
      (cutPoint entries holdWindow accum.bytes) = true := by
    rw [Utf8.isCharBoundary_iff (accum ++ text).valid (by omega), htake (by omega),
      ← Utf8.isCharBoundary_iff accum.valid (by omega)]
    exact isCharBoundary_cutPoint _ _ _
  have hsafe (hpos : 0 < holdWindow) : cutPoint entries holdWindow accum.bytes ≤
      safeTarget entries (accum ++ text).bytes ((accum ++ text).bytes.length - holdWindow) := by
    have hbefore : cutPoint entries holdWindow accum.bytes ≤
        safeTarget entries accum.bytes (accum.bytes.length - holdWindow) :=
      cutPoint_le_safeTarget hpos
    by_cases hne : safeTarget entries (accum ++ text).bytes
        ((accum ++ text).bytes.length - holdWindow) = (accum ++ text).bytes.length - holdWindow
    · omega
    · obtain ⟨e, he, hpartial⟩ := partialAt_safeTarget hne
      by_contra hlt
      have hearlier := hpartial.earlier
        (show accum.bytes.length - holdWindow ≤ _ by omega) (by omega)
      rw [PartialAt, htake (by omega)] at hearlier
      have := safeTarget_le_start he hearlier
      omega
  have hcut : cutPoint entries holdWindow accum.bytes ≤
      cutPoint entries holdWindow (accum ++ text).bytes := by
    apply Utf8.le_floorCharBoundary hb
    split
    · exact hsafe ‹_›
    · omega
  rw [cutPoint_drop hb (by omega) hsafe]
  omega

end LlmCacheProxy.Sse
