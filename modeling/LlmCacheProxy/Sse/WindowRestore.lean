import LlmCacheProxy.Sse.KeyWindow

/-!
# Windowed restore and batch restore

The window hands restore one segment after the other. The restored segments make
up the restored whole exactly when no cut falls inside a complete fake, and that
happens exactly when a partial fake held back by the window begins inside a
complete one that is not itself held back.
-/

namespace LlmCacheProxy.Sse

open LeftmostRewrite

/-- Append each fragment and flush under the hold window, then flush completely. -/
def windowRun (ctx : SseCtx) (key : FieldKey) (fragments : List Text) :
    Except Fault (Text × List Cut) :=
  Transducer.run (keyStep ctx key) (fragments.map .content ++ [.terminal]) Text.empty

/-! ### When a cut is clean -/

/-- A partial fake at the nominal boundary that begins inside a complete fake
does no harm as long as some partial fake begins no later than the complete one. -/
def Clean (π : Policy UInt8) (entries : List Entry) (accum : Bytes) : Prop :=
  ∀ m p, HitAt π (rules entries) accum m p →
    ∀ e ∈ entries, ∀ start,
      PartialAt accum e.fake (accum.length - maxFakeLen entries) start →
      m < start → start < m + p.length →
      ∃ e' ∈ entries, ∃ start' ≤ m,
        PartialAt accum e'.fake (accum.length - maxFakeLen entries) start'

/-- Every flush after a fragment finds a clean accumulator. -/
def CleanRun (π : Policy UInt8) (entries : List Entry) : Bytes → List Text → Prop
  | _, [] => True
  | accum, t :: ts =>
      Clean π entries (accum ++ t.bytes) ∧
        CleanRun π entries ((accum ++ t.bytes).drop
          (cutPoint entries (maxFakeLen entries) (accum ++ t.bytes))) ts

/-- Whatever fragments have come, the text so far is clean. -/
def CleanSoFar (π : Policy UInt8) (entries : List Entry) (fragments : List Text) : Prop :=
  ∀ front, front <+: fragments → Clean π entries (Text.concat front).bytes

/-- A position where UTF-8 text occurs is a character boundary. -/
private theorem isCharBoundary_of_prefix {bs p : Bytes} {i : Nat} (hp : p ≠ [])
    (hv : Utf8.Valid p) {k : Nat} (hk : 0 < k) (h : p.take k <+: bs.drop i) :
    Utf8.isCharBoundary bs i = true := by
  match p, hp with
  | b :: p, _ =>
      obtain ⟨k, rfl⟩ : ∃ j, k = j + 1 := ⟨k - 1, by omega⟩
      obtain ⟨t, ht⟩ := h
      have hi : bs[i]? = some b := by
        rw [← List.head?_drop, ← ht]
        rfl
      unfold Utf8.isCharBoundary
      rw [hi]
      split
      · rfl
      · simp [not_continuation_head hv]

section Cut

variable {π : Policy UInt8} {entries : List Entry}

theorem partialAt_boundary (hf : ∀ e ∈ entries, Utf8.Valid e.fake) {e : Entry}
    (he : e ∈ entries) {accum : Bytes} {nominal start : Nat}
    (h : PartialAt accum e.fake nominal start) : Utf8.isCharBoundary accum start = true := by
  obtain ⟨hlt, hlen, heq⟩ := h
  refine isCharBoundary_of_prefix (k := nominal - start) ?_ (hf e he) (by omega) ?_
  · rintro hnil
    simp [hnil] at hlen
  · rw [← heq, List.drop_take]
    exact List.take_prefix _ _

/-- Both ends of a hit are character boundaries. -/
private theorem hit_boundaries (hf : ∀ e ∈ entries, Utf8.Valid e.fake) {accum p : Bytes}
    (hv : Utf8.Valid accum) {m : Nat} (h : HitAt π (rules entries) accum m p) :
    Utf8.isCharBoundary accum m = true ∧ Utf8.isCharBoundary accum (m + p.length) = true := by
  obtain ⟨⟨r, hr, rfl⟩, hne, hpre⟩ := h.occurs
  obtain ⟨e, he, rfl⟩ := List.mem_map.mp hr
  have hpos : 0 < e.fake.length := List.length_pos_iff.mpr hne
  have hm : Utf8.isCharBoundary accum m = true :=
    isCharBoundary_of_prefix hne (hf e he) hpos (by rwa [List.take_length])
  obtain ⟨t, ht⟩ := hpre
  have hlen : accum.length = m + e.fake.length + t.length := by
    have := congrArg List.length ht
    simp only [List.length_append, List.length_drop] at this
    omega
  refine ⟨hm, (Utf8.isCharBoundary_iff hv (by simp only; omega)).mpr ?_⟩
  rw [List.take_add, ← ht, List.take_left]
  exact (Utf8.valid_take hv hm).append (hf e he)

/-- A complete fake over the nominal boundary begins with a partial fake there. -/
private theorem hit_partialAt {accum p : Bytes} {m nominal : Nat}
    (h : HitAt π (rules entries) accum m p) (hm : m < nominal) (hp : nominal < m + p.length) :
    ∃ e ∈ entries, PartialAt accum e.fake nominal m := by
  obtain ⟨⟨r, hr, rfl⟩, hne, hpre⟩ := h.occurs
  obtain ⟨e, he, rfl⟩ := List.mem_map.mp hr
  simp only at hp hpre
  refine ⟨e, he, hm, by omega, ?_⟩
  obtain ⟨t, ht⟩ := hpre
  rw [List.drop_take, ← ht, List.take_append_of_le_length (by omega)]

/-- The cut of a clean accumulator falls inside no hit, and every other cut does. -/
theorem clean_iff_unstraddled (hf : ∀ e ∈ entries, Utf8.Valid e.fake) {accum : Bytes}
    (hv : Utf8.Valid accum) :
    Clean π entries accum ↔
      Unstraddled π (rules entries) accum (cutPoint entries (maxFakeLen entries) accum) := by
  by_cases hM : 0 < maxFakeLen entries
  · set nominal := accum.length - maxFakeLen entries with hnominal
    set target := safeTarget entries accum nominal with htarget
    have hcut : cutPoint entries (maxFakeLen entries) accum =
        Utf8.floorCharBoundary accum target := by
      simp only [cutPoint, if_pos hM, ← hnominal, ← htarget]
    have hle : target ≤ nominal := safeTarget_le _ _ _
    rw [hcut]
    constructor
    · intro hclean m p hit hm
      obtain ⟨-, hend⟩ := hit_boundaries hf hv hit
      by_contra hin
      have hfloor := Utf8.floorCharBoundary_le accum target
      by_cases ht : target = nominal
      · have hover : nominal < m + p.length := by
          by_contra hge
          have := Utf8.le_floorCharBoundary hend (show m + p.length ≤ target by omega)
          omega
        obtain ⟨e, he, hpart⟩ := hit_partialAt hit (by omega) hover
        have hts : target ≤ m := safeTarget_le_start he hpart
        omega
      · obtain ⟨e, he, hpart⟩ := partialAt_safeTarget ht
        rw [Utf8.floorCharBoundary_eq_self (partialAt_boundary hf he hpart)] at hm hin
        obtain ⟨e', he', start', hstart', hpart'⟩ :=
          hclean m p hit e he _ hpart hm (by omega)
        have hts : target ≤ start' := safeTarget_le_start he' hpart'
        omega
    · intro hun m p hit e he start hpart hm hp
      by_contra hnone
      have hts : target ≤ start := safeTarget_le_start he hpart
      have ht : target ≠ nominal := by
        have := hpart.1
        omega
      obtain ⟨e', he', hpart'⟩ := partialAt_safeTarget ht
      have hmt : m < target := by
        by_contra hge
        exact hnone ⟨e', he', target, by omega, hpart'⟩
      have := hun m p hit
      rw [Utf8.floorCharBoundary_eq_self (partialAt_boundary hf he' hpart')] at this
      have := this hmt
      omega
  · -- Without a hold window every fake is empty and occurs nowhere.
    have hnone (m : Nat) (p : Bytes) : ¬ HitAt π (rules entries) accum m p := by
      intro hit
      obtain ⟨⟨r, hr, rfl⟩, hne, -⟩ := hit.occurs
      have := length_pattern_le hr
      exact hne (List.length_eq_zero_iff.mp (by omega))
    exact ⟨fun _ m p hit => absurd hit (hnone m p), fun _ m p hit => absurd hit (hnone m p)⟩

end Cut

/-! ### What has been cut off -/

/-- Of the text `seen`, `n` bytes have been cut off: no hit is cut apart, and no
partial fake that a later flush may find begins in them. -/
structure CutOff (π : Policy UInt8) (entries : List Entry) (seen : Bytes) (n : Nat) : Prop where
  window : n = 0 ∨ n + maxFakeLen entries ≤ seen.length
  whole : Unstraddled π (rules entries) seen n
  early : ∀ e ∈ entries, ∀ later nominal start, seen.length - maxFakeLen entries ≤ nominal →
    PartialAt (seen ++ later) e.fake nominal start → n ≤ start

namespace CutOff

variable {π : Policy UInt8} {entries : List Entry} {seen : Bytes} {n : Nat}

theorem zero : CutOff π entries seen 0 where
  window := Or.inl rfl
  whole m _ _ hm := absurd hm (Nat.not_lt_zero m)
  early _ _ _ _ start _ _ := Nat.zero_le start

theorem append (h : CutOff π entries seen n) (more : Bytes) :
    CutOff π entries (seen ++ more) n := by
  constructor
  · refine h.window.imp_right fun hn => ?_
    rw [List.length_append]
    omega
  · intro m p hit hm
    have hn : n + maxFakeLen entries ≤ seen.length := h.window.resolve_left (by omega)
    exact h.whole m p (hit.of_append (fun r => length_pattern_le) (by omega)) hm
  · intro e he later nominal start hnominal hpart
    rw [List.append_assoc] at hpart
    rw [List.length_append] at hnominal
    exact h.early e he _ nominal start (by omega) hpart

/-- The accumulator is clean when the whole text is. -/
theorem clean_drop_iff (h : CutOff π entries seen n) :
    Clean π entries (seen.drop n) ↔ Clean π entries seen := by
  have hn : n ≤ seen.length - maxFakeLen entries := by
    have := h.window
    omega
  have hnominal : (seen.drop n).length - maxFakeLen entries =
      seen.length - maxFakeLen entries - n := by
    rw [List.length_drop]
    omega
  have hearly {e : Entry} (he : e ∈ entries) {start : Nat}
      (hpart : PartialAt seen e.fake (seen.length - maxFakeLen entries) start) : n ≤ start :=
    h.early e he [] _ start le_rfl (by rwa [List.append_nil])
  simp only [Clean, hnominal, hitAt_drop h.whole, partialAt_drop hn]
  constructor
  · intro hclean m p hit e he start hpart hm hp
    have hstart := hearly he hpart
    have hmn : n ≤ m := by
      by_contra hlt
      have := h.whole m p hit (by omega)
      omega
    obtain ⟨e', he', start', hstart', hpart'⟩ :=
      hclean (m - n) p (by rwa [Nat.add_sub_cancel' hmn]) e he (start - n)
        (by rwa [Nat.add_sub_cancel' hstart]) (by omega) (by omega)
    exact ⟨e', he', n + start', by omega, hpart'⟩
  · intro hclean m p hit e he start hpart hm hp
    obtain ⟨e', he', start', hstart', hpart'⟩ :=
      hclean (n + m) p hit e he (n + start) hpart (by omega) (by omega)
    have := hearly he' hpart'
    exact ⟨e', he', start' - n, by omega, by rwa [Nat.add_sub_cancel' this]⟩

/-- A flush that finds a clean accumulator cuts off more of the text. -/
theorem cut (h : CutOff π entries seen n) (hf : ∀ e ∈ entries, Utf8.Valid e.fake)
    (hv : Utf8.Valid (seen.drop n)) (hclean : Clean π entries (seen.drop n)) :
    CutOff π entries seen (n + cutPoint entries (maxFakeLen entries) (seen.drop n)) := by
  have hle := cutPoint_le entries (maxFakeLen entries) (seen.drop n)
  rw [List.length_drop] at hle
  have hun := (clean_iff_unstraddled hf hv).mp hclean
  have hsafe : 0 < maxFakeLen entries →
      cutPoint entries (maxFakeLen entries) (seen.drop n) ≤
        safeTarget entries (seen.drop n) ((seen.drop n).length - maxFakeLen entries) :=
    cutPoint_le_safeTarget
  rw [List.length_drop] at hsafe
  set c := cutPoint entries (maxFakeLen entries) (seen.drop n)
  have hwindow := h.window
  constructor
  · omega
  · intro m p hit hm
    by_cases hmn : m < n
    · exact (h.whole m p hit hmn).trans (Nat.le_add_right n c)
    · have hrest : HitAt π (rules entries) (seen.drop n) (m - n) p := by
        rw [hitAt_drop h.whole, Nat.add_sub_cancel' (by omega)]
        exact hit
      have := hun (m - n) p hrest (by omega)
      omega
  · intro e he later nominal start hnominal hpart
    have hstart := h.early e he later nominal start hnominal hpart
    have hpos : 0 < maxFakeLen entries := by
      have := hpart.1
      have := hpart.2.1
      have := length_le_maxFakeLen he
      omega
    by_contra hlt
    -- the partial fake was there at this flush, and the cut is in front of it
    have hnow : PartialAt seen e.fake (seen.length - maxFakeLen entries) start :=
      hpart.of_append (by omega) hnominal (Nat.sub_le _ _)
    have hthere : PartialAt (seen.drop n) e.fake (seen.length - maxFakeLen entries - n)
        (start - n) := by
      rw [partialAt_drop (by omega), Nat.add_sub_cancel' hstart]
      exact hnow
    have hsub : seen.length - n - maxFakeLen entries = seen.length - maxFakeLen entries - n := by
      omega
    rw [hsub] at hsafe
    have := hsafe hpos
    have := safeTarget_le_start he hthere
    omega

/-- A run that has cut `n` bytes off `seen`, with the rest as its accumulator. -/
theorem cleanRun_drop_iff (hf : ∀ e ∈ entries, Utf8.Valid e.fake) (h : CutOff π entries seen n)
    (hv : Utf8.Valid (seen.drop n)) (hclean : Clean π entries seen) (fragments : List Text) :
    CleanRun π entries (seen.drop n) fragments ↔
      ∀ front, front <+: fragments → Clean π entries (seen ++ (Text.concat front).bytes) := by
  induction fragments generalizing seen n with
  | nil =>
      refine ⟨fun _ front hfront => ?_, fun _ => trivial⟩
      rw [List.prefix_nil.mp hfront]
      simpa using hclean
  | cons t ts ih =>
      have hmore := h.append t.bytes
      have hle : n ≤ seen.length := by
        have := h.window
        omega
      have haccum : seen.drop n ++ t.bytes = (seen ++ t.bytes).drop n :=
        (List.drop_append_of_le_length hle).symm
      have hvA : Utf8.Valid ((seen ++ t.bytes).drop n) := haccum ▸ hv.append t.valid
      have hjoin (front : List Text) : seen ++ (Text.concat (t :: front)).bytes =
          seen ++ t.bytes ++ (Text.concat front).bytes := by simp
      rw [CleanRun, haccum, List.drop_drop, hmore.clean_drop_iff]
      have hrest (hclean' : Clean π entries (seen ++ t.bytes)) :=
        ih (hmore.cut hf hvA (hmore.clean_drop_iff.mpr hclean')) (by
          rw [← List.drop_drop]
          exact Utf8.valid_drop hvA (isCharBoundary_cutPoint _ _ _)) hclean'
      constructor
      · rintro ⟨hclean', hrun⟩ front hfront
        cases front with
        | nil => simpa using hclean
        | cons t' front =>
            obtain ⟨rfl, hback⟩ := List.cons_prefix_cons.mp hfront
            rw [hjoin]
            exact (hrest hclean').mp hrun front hback
      · intro hall
        have hclean' : Clean π entries (seen ++ t.bytes) := by
          simpa using hall [t] (by simp)
        refine ⟨hclean', (hrest hclean').mpr fun front hfront => ?_⟩
        rw [← hjoin]
        exact hall (t :: front) (List.cons_prefix_cons.mpr ⟨rfl, hfront⟩)

end CutOff

/-- The flushes of a run find clean accumulators when every text so far is
clean. -/
theorem cleanRun_iff_soFar {π : Policy UInt8} {entries : List Entry}
    (hf : ∀ e ∈ entries, Utf8.Valid e.fake) (fragments : List Text) :
    CleanRun π entries [] fragments ↔ CleanSoFar π entries fragments := by
  have hempty : Clean π entries [] := by
    intro m p _ e _ start hpart
    exact absurd hpart.1 (by simp)
  exact CutOff.cleanRun_drop_iff hf .zero Utf8.valid_nil hempty fragments

/-! ### What a run hands out -/

/-- The restored segments of a run from `accum`, joined. -/
def windowed (π : Policy UInt8) (entries : List Entry) : Bytes → List Text → Bytes
  | accum, [] => rewrite π (rules entries) accum
  | accum, t :: ts =>
      let n := cutPoint entries (maxFakeLen entries) (accum ++ t.bytes)
      rewrite π (rules entries) ((accum ++ t.bytes).take n) ++
        windowed π entries ((accum ++ t.bytes).drop n) ts

/-- One flush restores the bytes before the cut and keeps those behind it. -/
theorem flushSafePrefix_rewrites {c : Crates} {π : Policy UInt8} (hc : Rewrites c π)
    {entries : List Entry} (hr : RestoresText c entries) (w : Nat) (key : FieldKey)
    (accum : Text) :
    ∃ rest cuts, flushSafePrefix c entries w key accum = .ok (rest, cuts) ∧
      rest.bytes = accum.bytes.drop (cutPoint entries w accum.bytes) ∧
      (Text.concat (cuts.map Cut.restored)).bytes =
        rewrite π (rules entries) (accum.bytes.take (cutPoint entries w accum.bytes)) := by
  obtain ⟨⟨rest, cuts⟩, h⟩ := hr.flushSafePrefix w key accum
  refine ⟨rest, cuts, h, ?_⟩
  rcases flushSafePrefix_cases h with ⟨hz, rfl, rfl⟩ | ⟨segment, restored, rfl, rfl, hlen, -, hres⟩
  · rw [hz]
    exact ⟨rfl, rfl⟩
  · rw [← hlen, ← Text.length_bytes, Text.bytes_append, List.take_left, List.drop_left]
    refine ⟨rfl, ?_⟩
    simp only [Crates.restoreText, hc entries segment.bytes] at hres
    split at hres
    · rename_i t ht
      obtain rfl : t = restored := by simpa using hres
      simpa using Text.ofUtf8?_eq_some.mp ht
    · cases hres

theorem run_windowed (ctx : SseCtx) {π : Policy UInt8} (hc : Rewrites ctx.crates π)
    (hr : RestoresText ctx.crates ctx.entries) (key : FieldKey) (fragments : List Text)
    (accum : Text) :
    ∃ rest cuts,
      Transducer.run (keyStep ctx key) (fragments.map .content ++ [.terminal]) accum =
        .ok (rest, cuts) ∧
      (Text.concat (cuts.map Cut.restored)).bytes =
        windowed π ctx.entries accum.bytes fragments := by
  induction fragments generalizing accum with
  | nil =>
      by_cases he : accum = Text.empty
      · have hstep : keyStep ctx key .terminal accum = .ok (accum, []) := if_pos he
        refine ⟨accum, [], ?_, by simp [windowed, he]⟩
        rw [List.map_nil, List.nil_append, Transducer.run_cons_of_ok hstep]
        rfl
      · obtain ⟨rest, cuts, hflush, -, hcuts⟩ := flushSafePrefix_rewrites hc hr 0 key accum
        have hstep : keyStep ctx key .terminal accum = .ok (rest, cuts) := (if_neg he).trans hflush
        refine ⟨rest, cuts ++ [], ?_, ?_⟩
        · rw [List.map_nil, List.nil_append, Transducer.run_cons_of_ok hstep]
          rfl
        · rw [List.append_nil, hcuts, cutPoint_zero, ← Text.length_bytes, List.take_length]
          rfl
  | cons t ts ih =>
      obtain ⟨rest, cuts, hflush, hrest, hcuts⟩ :=
        flushSafePrefix_rewrites hc hr (maxFakeLen ctx.entries) key (accum ++ t)
      obtain ⟨rest', cuts', hrun, hcuts'⟩ := ih rest
      have hstep : keyStep ctx key (.content t) accum = .ok (rest, cuts) := hflush
      refine ⟨rest', cuts ++ cuts', ?_, ?_⟩
      · rw [List.map_cons, List.cons_append, Transducer.run_cons_of_ok hstep, hrun]
        rfl
      · rw [List.map_append, Text.concat_append, Text.bytes_append, hcuts, hcuts', hrest]
        rfl

/-! ### Comparing with the restored whole -/

/-- `entries` with other originals behind the same fakes. -/
def SameFakes (entries entries' : List Entry) : Prop :=
  entries'.map Entry.fake = entries.map Entry.fake

section SameFakes

variable {entries entries' : List Entry}

theorem SameFakes.maxFakeLen_eq (h : SameFakes entries entries') :
    maxFakeLen entries' = maxFakeLen entries := by
  have hmap (l : List Entry) : (l.map fun e => e.fake.length) =
      (l.map Entry.fake).map List.length := by
    rw [List.map_map]
    rfl
  rw [maxFakeLen, maxFakeLen, hmap, hmap, h]

theorem SameFakes.cutPoint_eq (h : SameFakes entries entries') (w : Nat) (accum : Bytes) :
    cutPoint entries' w accum = cutPoint entries w accum := by
  have hfold (l : List Entry) (nominal : Nat) : safeTarget l accum nominal =
      (l.map Entry.fake).foldl (fun safe f =>
        min safe (nominal - partialLen accum f nominal (min (f.length - 1) nominal))) nominal := by
    rw [List.foldl_map]
    rfl
  unfold SameFakes at h
  simp only [cutPoint, hfold, h]

theorem SameFakes.patterns_eq (h : SameFakes entries entries') :
    (rules entries).map RewriteRule.pattern = (rules entries').map RewriteRule.pattern := by
  have hmap (l : List Entry) : (rules l).map RewriteRule.pattern = l.map Entry.fake := by
    rw [rules, List.map_map]
    rfl
  rw [hmap, hmap, h]

theorem SameFakes.valid (h : SameFakes entries entries')
    (hf : ∀ e ∈ entries, Utf8.Valid e.fake) : ∀ e ∈ entries', Utf8.Valid e.fake := by
  intro e' he'
  have hmem : e'.fake ∈ entries.map Entry.fake := by
    rw [← h]
    exact List.mem_map_of_mem he'
  obtain ⟨e, he, heq⟩ := List.mem_map.mp hmem
  exact heq ▸ hf e he

theorem SameFakes.unstraddled (h : SameFakes entries entries') {π : Policy UInt8} {s : Bytes}
    {n : Nat} (hu : Unstraddled π (rules entries) s n) : Unstraddled π (rules entries') s n :=
  fun m p hit => hu m p (hit.of_patterns h.patterns_eq.symm)

end SameFakes

/-- Originals under which a hit of `p` shows: `x` stands for `p`, `C` for the rest. -/
private def telling (p : Bytes) (x : UInt8) (entries : List Entry) : List Entry :=
  entries.map fun e => { e with original := if e.fake = p then [x] else [0x43] }

private theorem sameFakes_telling (p : Bytes) (x : UInt8) (entries : List Entry) :
    SameFakes entries (telling p x entries) := by
  simp [SameFakes, telling, Function.comp_def]

private theorem rules_telling (p : Bytes) (x : UInt8) (entries : List Entry) :
    rules (telling p x entries) =
      assign (fun q => if q = p then [x] else [0x43]) (rules entries) := by
  simp [rules, telling, assign, Function.comp_def]

private theorem valid_telling {p : Bytes} {x : UInt8} (hx : Utf8.Valid [x]) {entries : List Entry} :
    ∀ e ∈ telling p x entries, Utf8.Valid e.original := by
  intro e he
  obtain ⟨e₀, -, rfl⟩ := List.mem_map.mp he
  simp only
  split
  · exact hx
  · decide

/-- A cut inside a complete fake is visible under some originals, whatever the
later segments are. -/
private theorem exists_telling {π : Policy UInt8} {entries : List Entry} {s : Bytes} {n : Nat}
    (hn : n + maxFakeLen entries ≤ s.length) (h : ¬ Unstraddled π (rules entries) s n)
    (t : Bytes) :
    ∃ entries', SameFakes entries entries' ∧ (∀ e ∈ entries', Utf8.Valid e.original) ∧
      ∀ u, rewrite π (rules entries') (s ++ t) ≠ rewrite π (rules entries') (s.take n) ++ u := by
  simp only [Unstraddled, not_forall] at h
  obtain ⟨m, p, hit, hm, hp⟩ := h
  have hit' : HitAt π (rules entries) (s ++ t) m p :=
    hit.append (fun r => length_pattern_le) (by omega) t
  have htake : s.take n = (s ++ t).take n := (List.take_append_of_le_length (by omega)).symm
  by_cases ha : (s ++ t)[m]? = some 0x41
  · refine ⟨telling p 0x42 entries, sameFakes_telling _ _ _, valid_telling (by decide), fun u => ?_⟩
    rw [rules_telling, htake]
    exact rewrite_ne_of_straddled hit' hm (by omega) (by decide)
      (fun a h' => by rw [ha] at h'; obtain rfl := Option.some.inj h'; decide) u
  · refine ⟨telling p 0x41 entries, sameFakes_telling _ _ _, valid_telling (by decide), fun u => ?_⟩
    rw [rules_telling, htake]
    exact rewrite_ne_of_straddled hit' hm (by omega) (by decide)
      (fun a h' heq => ha (h'.trans (congrArg some heq.symm))) u

/-- The windowed restore is the restore of the whole, for all originals behind
the given fakes, exactly when every flush finds a clean accumulator. -/
theorem cleanRun_iff {π : Policy UInt8} {entries : List Entry}
    (hf : ∀ e ∈ entries, Utf8.Valid e.fake) (fragments : List Text) {accum : Bytes}
    (hv : Utf8.Valid accum) :
    CleanRun π entries accum fragments ↔
      ∀ entries', SameFakes entries entries' → (∀ e ∈ entries', Utf8.Valid e.original) →
        windowed π entries' accum fragments =
          rewrite π (rules entries') (accum ++ (Text.concat fragments).bytes) := by
  induction fragments generalizing accum with
  | nil =>
      refine ⟨fun _ entries' _ _ => ?_, fun _ => trivial⟩
      simp [windowed]
  | cons t ts ih =>
      have hvA : Utf8.Valid (accum ++ t.bytes) := hv.append t.valid
      have hcut := isCharBoundary_cutPoint entries (maxFakeLen entries) (accum ++ t.bytes)
      have hle := cutPoint_le entries (maxFakeLen entries) (accum ++ t.bytes)
      have hclean := clean_iff_unstraddled (π := π) hf hvA
      have ih := ih (Utf8.valid_drop hvA hcut)
      set A := accum ++ t.bytes with hA
      set n := cutPoint entries (maxFakeLen entries) A with hn
      have hwhole : accum ++ (Text.concat (t :: ts)).bytes = A ++ (Text.concat ts).bytes := by
        simp [hA]
      have hwin (entries' : List Entry) (hs : SameFakes entries entries') :
          windowed π entries' accum (t :: ts) =
            rewrite π (rules entries') (A.take n) ++ windowed π entries' (A.drop n) ts := by
        simp only [windowed, ← hA, hs.maxFakeLen_eq, hs.cutPoint_eq, ← hn]
      -- A clean cut splits the restored whole in the same place.
      have hsplit (entries' : List Entry) (hs : SameFakes entries entries')
          (hu : Unstraddled π (rules entries) A n) :
          rewrite π (rules entries') (A ++ (Text.concat ts).bytes) =
            rewrite π (rules entries') (A.take n) ++
              rewrite π (rules entries') (A.drop n ++ (Text.concat ts).bytes) := by
        by_cases hz : n = 0
        · simp [hz]
        · exact rewrite_append_split (fun r => length_pattern_le)
            (by rw [hs.maxFakeLen_eq]; omega) (hs.unstraddled hu) _
      rw [CleanRun, ← hA, ← hn, hclean, ih, hwhole]
      constructor
      · rintro ⟨hu, hrest⟩ entries' hs ho
        rw [hwin entries' hs, hsplit entries' hs hu, hrest entries' hs ho]
      · intro hall
        have hu : Unstraddled π (rules entries) A n := by
          by_contra hnot
          have hpos : n ≠ 0 := by
            rintro hz
            apply hnot
            intro m p _ hm
            omega
          obtain ⟨entries', hs, ho, hne⟩ :=
            exists_telling (by omega) hnot (Text.concat ts).bytes
          have heq := hall entries' hs ho
          rw [hwin entries' hs] at heq
          exact hne _ heq.symm
        refine ⟨hu, fun entries' hs ho => ?_⟩
        have heq := hall entries' hs ho
        rw [hwin entries' hs, hsplit entries' hs hu] at heq
        exact List.append_cancel_left heq

/-- Windowed restore agrees with batch restore, whatever the originals are,
exactly where the text is clean after every fragment. -/
theorem windowRun_eq_restore_iff {ctx : SseCtx} {π : Policy UInt8} (hc : Rewrites ctx.crates π)
    (hf : ∀ e ∈ ctx.entries, Utf8.Valid e.fake) (key : FieldKey) (fragments : List Text) :
    CleanSoFar π ctx.entries fragments ↔
      ∀ entries', SameFakes ctx.entries entries' → (∀ e ∈ entries', Utf8.Valid e.original) →
        ∃ rest cuts, windowRun { ctx with entries := entries' } key fragments = .ok (rest, cuts) ∧
          ctx.crates.restore entries' (Text.concat fragments).bytes =
            .ok (Text.concat (cuts.map Cut.restored)).bytes := by
  rw [← cleanRun_iff_soFar hf, cleanRun_iff hf fragments Utf8.valid_nil]
  refine forall_congr' fun entries' => forall_congr' fun hs => forall_congr' fun ho => ?_
  have hr : RestoresText ctx.crates entries' := restoresText_of_rewrites hc (hs.valid hf) ho
  obtain ⟨rest, cuts, hrun, hcuts⟩ :=
    run_windowed { ctx with entries := entries' } hc hr key fragments Text.empty
  rw [hc entries']
  constructor
  · intro heq
    exact ⟨rest, cuts, hrun, by rw [hcuts]; exact congrArg Except.ok heq.symm⟩
  · rintro ⟨rest', cuts', hrun', heq⟩
    obtain ⟨rfl, rfl⟩ : rest = rest' ∧ cuts = cuts' := by
      simpa using hrun.symm.trans hrun'
    rw [hcuts] at heq
    exact (Except.ok.inj heq).symm

/-! ### A fake that begins and ends alike -/

/-- A request with such an entry; the JSON library is of no concern here. -/
def alikeCtx : SseCtx :=
  ⟨leftmostCrates (fun _ => none) (fun _ => Text.empty), alikeEntries, .openAi⟩

/-- A text in which no fake begins in front of a partial one is clean. -/
theorem clean_of_partial_first {π : Policy UInt8} {entries : List Entry} {accum : Bytes}
    (h : ∀ e ∈ entries, ∀ start < accum.length - maxFakeLen entries,
      PartialAt accum e.fake (accum.length - maxFakeLen entries) start →
        ∀ e' ∈ entries, ∀ m < start, ¬ e'.fake <+: accum.drop m) : Clean π entries accum := by
  intro m p hit e he start hpart hm _
  obtain ⟨⟨r, hr, rfl⟩, -, hpre⟩ := hit.occurs
  obtain ⟨e', he', rfl⟩ := List.mem_map.mp hr
  exact absurd hpre (h e he start hpart.1 hpart e' he' m hm)

/-- Two fragments in which the window cuts in front of the fake and holds its
first half back. -/
theorem windowRun_restores_alike :
    cutPoint alikeEntries (maxFakeLen alikeEntries) (lit "see sk-4") = 2 ∧
    ∃ rest cuts, windowRun alikeCtx .openAiContent ["see sk-4", "fs now"] = .ok (rest, cuts) ∧
      alikeCtx.crates.restore alikeEntries (Text.concat ["see sk-4", "fs now"]).bytes =
        .ok (Text.concat (cuts.map Cut.restored)).bytes := by
  have hf : ∀ e ∈ alikeCtx.entries, Utf8.Valid e.fake := by decide
  refine ⟨by decide, (windowRun_eq_restore_iff (leftmostCrates_rewrites _ _) hf .openAiContent
    ["see sk-4", "fs now"]).mp ?_ alikeEntries rfl (by decide)⟩
  intro front hfront
  apply clean_of_partial_first
  rcases List.prefix_cons_iff.mp hfront with rfl | ⟨later, rfl, hlater⟩
  · decide
  rcases List.prefix_cons_iff.mp hlater with rfl | ⟨last, rfl, hlast⟩
  · decide
  · rw [List.prefix_nil.mp hlast]
    decide

/-- When exactly one hold window follows the fake, its last letter is taken for
the start of another one, and the cut falls inside it. -/
theorem windowRun_leaks_alike :
    (∃ rest cuts, windowRun alikeCtx .openAiContent ["sk-4fs here."] = .ok (rest, cuts) ∧
      (Text.concat (cuts.map Cut.restored)).bytes = lit "sk-4fs here.") ∧
    alikeCtx.crates.restore alikeEntries (Text.concat ["sk-4fs here."]).bytes =
      .ok (lit "sk-9Qe here.") ∧
    lit "sk-4fs here." ≠ lit "sk-9Qe here." := by
  refine ⟨?_, by decide, by decide⟩
  have h : (windowRun alikeCtx .openAiContent ["sk-4fs here."]).toOption.map
      (fun r => (Text.concat (r.2.map Cut.restored)).bytes) = some (lit "sk-4fs here.") := by
    decide
  cases hrun : windowRun alikeCtx .openAiContent ["sk-4fs here."] with
  | error e =>
      rw [hrun] at h
      cases h
  | ok r =>
      rw [hrun] at h
      exact ⟨r.1, r.2, rfl, by simpa [Except.toOption] using h⟩

end LlmCacheProxy.Sse
