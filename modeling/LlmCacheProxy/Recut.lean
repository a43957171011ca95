import LlmCacheProxy.Proxy

/-!
# Chunks cut again at character boundaries

Before a response is stored, the bytes of a character that a chunk leaves
unfinished are carried over to the next chunk. An unfinished character has at
most three bytes, and in a text every character is finished at last.
-/

namespace LlmCacheProxy

namespace ServerConfig

/-! ### The conversion -/

/-- One chunk: what is stored for it and what is carried over, with `none` for
the panic of `expect`. -/
def carryChunk (carry : Bytes) (offset : UInt64) (raw : Bytes) : Option (ResponseChunk × Bytes) :=
  let buf := carry ++ raw
  match Text.ofUtf8? buf with
  | some data => some (⟨offset, data⟩, [])
  | none =>
      (Text.ofUtf8? (buf.take (Utf8.validUpTo buf))).map fun data =>
        (⟨offset, data⟩, buf.drop (Utf8.validUpTo buf))

/-- All chunks in turn: what is stored, and the carry behind the last one. -/
def carryChunks : Bytes → List (UInt64 × Bytes) → Option (List ResponseChunk × Bytes)
  | carry, [] => some ([], carry)
  | carry, (offset, raw) :: rest => do
      let (chunk, carry) ← carryChunk carry offset raw
      let (chunks, carry) ← carryChunks carry rest
      return (chunk :: chunks, carry)

/-- A valid prefix is found in any buffer, so the conversion never panics. -/
theorem carryChunks_eq_recut (carry : Bytes) (chunks : List (UInt64 × Bytes)) :
    ∃ left, carryChunks carry chunks = some (recut carry chunks, left) := by
  induction chunks generalizing carry with
  | nil => exact ⟨carry, rfl⟩
  | cons chunk rest ih =>
      obtain ⟨offset, raw⟩ := chunk
      cases hbuf : Text.ofUtf8? (carry ++ raw) with
      | some data =>
          obtain ⟨left, hrest⟩ := ih []
          refine ⟨left, ?_⟩
          simp [carryChunks, carryChunk, recut, hbuf, hrest]
      | none =>
          have hfront := Utf8.valid_take_validUpTo (carry ++ raw)
          have hdata : Text.ofUtf8? ((carry ++ raw).take (Utf8.validUpTo (carry ++ raw))) =
              some ⟨_, hfront⟩ := Text.ofUtf8?_eq_some.mpr rfl
          obtain ⟨left, hrest⟩ := ih ((carry ++ raw).drop (Utf8.validUpTo (carry ++ raw)))
          refine ⟨left, ?_⟩
          simp only [carryChunks, carryChunk, recut, hbuf, hdata, Option.map_some, hrest,
            Option.bind_eq_bind, Option.bind_some, Option.pure_def]

/-! ### What is carried over -/

/-- The bytes behind what is stored for a chunk are the start of a character. -/
theorem carryChunk_spec {carry raw later : Bytes} (hv : Utf8.Valid (carry ++ raw ++ later))
    {offset : UInt64} {chunk : ResponseChunk} {left : Bytes}
    (h : carryChunk carry offset raw = some (chunk, left)) :
    chunk.offsetMs = offset ∧ chunk.data.bytes ++ left = carry ++ raw ∧ left.length ≤ 3 ∧
      (later = [] → left = []) := by
  simp only [carryChunk] at h
  cases hbuf : Text.ofUtf8? (carry ++ raw) with
  | some data =>
      rw [hbuf] at h
      obtain ⟨rfl, rfl⟩ := Prod.mk.inj (Option.some.inj h)
      refine ⟨rfl, ?_, Nat.zero_le _, fun _ => rfl⟩
      rw [List.append_nil]
      exact Text.ofUtf8?_eq_some.mp hbuf
  | none =>
      rw [hbuf] at h
      obtain ⟨data, hdata, heq⟩ := Option.map_eq_some_iff.mp h
      obtain ⟨rfl, rfl⟩ := Prod.mk.inj heq
      refine ⟨rfl, ?_, ?_, ?_⟩
      · rw [Text.ofUtf8?_eq_some.mp hdata, List.take_append_drop]
      · rw [List.length_drop]
        have := hv.length_le_validUpTo
        omega
      · rintro rfl
        rw [List.append_nil] at hv
        exact absurd hv (Text.ofUtf8?_eq_none.mp hbuf)

/-- Behind every chunk the stored bytes are the received ones, but for the start
of a character. -/
theorem carryChunks_spec {chunks : List (UInt64 × Bytes)} {carry left : Bytes}
    {stored : List ResponseChunk}
    (hv : Utf8.Valid (carry ++ (chunks.map Prod.snd).flatten)) (hshort : carry.length ≤ 3)
    (hlast : (chunks.map Prod.snd).flatten = [] → carry = [])
    (h : carryChunks carry chunks = some (stored, left)) :
    left = [] ∧ stored.map ResponseChunk.offsetMs = chunks.map Prod.fst ∧
      (stored.flatMap fun c => c.data.bytes) = carry ++ (chunks.map Prod.snd).flatten ∧
      ∀ n, ∃ owed : Bytes, owed.length ≤ 3 ∧
        ((stored.take n).flatMap fun c => c.data.bytes) ++ owed =
          carry ++ ((chunks.take n).map Prod.snd).flatten := by
  induction chunks generalizing carry stored with
  | nil =>
      obtain ⟨rfl, rfl⟩ := Prod.mk.inj (Option.some.inj h)
      obtain rfl := hlast rfl
      exact ⟨rfl, rfl, rfl, fun n => ⟨[], Nat.zero_le _, by simp⟩⟩
  | cons chunk rest ih =>
      obtain ⟨offset, raw⟩ := chunk
      obtain ⟨⟨first, carry'⟩, hchunk, hmore⟩ := Option.bind_eq_some_iff.mp h
      obtain ⟨⟨later, left'⟩, hrest, hpair⟩ := Option.bind_eq_some_iff.mp hmore
      obtain ⟨rfl, rfl⟩ := Prod.mk.inj (Option.some.inj hpair)
      rw [List.map_cons, List.flatten_cons, ← List.append_assoc] at hv
      obtain ⟨hoffset, hbytes, hshort', hlast'⟩ := carryChunk_spec hv hchunk
      have hv' : Utf8.Valid (carry' ++ (rest.map Prod.snd).flatten) := by
        rwa [← first.data.valid.append_iff, ← List.append_assoc, hbytes]
      obtain ⟨hleft, hoffsets, hall, hprefix⟩ := ih hv' hshort' hlast' hrest
      refine ⟨hleft, ?_, ?_, fun n => ?_⟩
      · rw [List.map_cons, List.map_cons, hoffset, hoffsets]
      · rw [List.flatMap_cons, hall, ← List.append_assoc, hbytes, List.map_cons,
          List.flatten_cons, List.append_assoc]
      · cases n with
        | zero => exact ⟨carry, hshort, by simp⟩
        | succ n =>
            obtain ⟨owed, howed, hsplit⟩ := hprefix n
            refine ⟨owed, howed, ?_⟩
            rw [List.take_succ_cons, List.flatMap_cons, List.append_assoc, hsplit,
              ← List.append_assoc, hbytes, List.take_succ_cons, List.map_cons, List.flatten_cons,
              List.append_assoc]

/-! ### The stored chunks -/

/-- However a text was cut into chunks, the conversion does not panic and ends
with nothing carried over. The stored chunks are as many, with the same offsets
and the same bytes in all, and behind the `n`-th of them at most three bytes of
the first `n` received ones are still to come. -/
theorem recut_spec {chunks : List (UInt64 × Bytes)}
    (hv : Utf8.Valid (chunks.map Prod.snd).flatten) :
    carryChunks [] chunks = some (recut [] chunks, []) ∧
    (recut [] chunks).length = chunks.length ∧
    (recut [] chunks).map ResponseChunk.offsetMs = chunks.map Prod.fst ∧
    (∀ c ∈ recut [] chunks, Utf8.Valid c.data.bytes) ∧
    ((recut [] chunks).flatMap fun c => c.data.bytes) = (chunks.map Prod.snd).flatten ∧
    ∀ n, (((recut [] chunks).take n).flatMap fun c => c.data.bytes).length ≤
        ((chunks.take n).map Prod.snd).flatten.length ∧
      ((chunks.take n).map Prod.snd).flatten.length ≤
        (((recut [] chunks).take n).flatMap fun c => c.data.bytes).length + 3 := by
  obtain ⟨left, h⟩ := carryChunks_eq_recut [] chunks
  obtain ⟨rfl, hoffsets, hall, hprefix⟩ :=
    carryChunks_spec hv (Nat.zero_le _) (fun _ => rfl) h
  have hcount := congrArg List.length hoffsets
  rw [List.length_map, List.length_map] at hcount
  refine ⟨h, hcount, hoffsets, fun c _ => c.data.valid, hall, fun n => ?_⟩
  obtain ⟨owed, howed, hsplit⟩ := hprefix n
  have hlength := congrArg List.length hsplit
  rw [List.nil_append, List.length_append] at hlength
  omega

/-- A character of four bytes that comes in single bytes, with an empty chunk
between them. -/
theorem recut_spec_bytes :
    carryChunks [] [(0, [0xF0]), (1, [0x9F]), (2, []), (3, [0x98]), (4, [0x80, 0x61])] =
      some (recut [] [(0, [0xF0]), (1, [0x9F]), (2, []), (3, [0x98]), (4, [0x80, 0x61])], []) :=
  (recut_spec (by decide)).1

end ServerConfig

end LlmCacheProxy
