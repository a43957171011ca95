import LlmCacheProxy.Sse.Passes

/-!
# Invalid bytes

A pass reads the stored bytes as one text. A byte that is no UTF-8 stays among
them, so no later pass cuts off a frame: what is processed are the frames up to
the last chunk boundary at which all bytes received form a text.
-/

namespace LlmCacheProxy.Sse

open Framing

/-- The text up to its frame `k`, returns aside, without the newline that closes
the frame. -/
def linesUpTo (text : Bytes) (k : Nat) : Bytes :=
  (plain 0x0D ((completeFrames text).take (k + 1)).flatten).dropLast

/-- All lines of frame `k` of the text are among the processed frames. -/
def LinesIn (frames : List Bytes) (text : Bytes) (k : Nat) : Prop :=
  linesUpTo text k <+: plain 0x0D frames.flatten

/-- Between two polls of the script frame `k` has arrived, and everything that has
arrived is UTF-8. -/
def Readable (script : List Polled) (k : Nat) : Prop :=
  ∃ early, early <+: script ∧ Utf8.Valid (scriptBytes early) ∧
    k < (completeFrames (scriptBytes early)).length

/-- The same, but the newline that closes the frame may still be missing. -/
def LinesReadable (script : List Polled) (k : Nat) : Prop :=
  ∃ early, early <+: script ∧ Utf8.Valid (scriptBytes early) ∧
    linesUpTo (scriptBytes script) k <+: plain 0x0D (scriptBytes early)

/-! ### Frames and their empty lines -/

/-- Where a complete frame of a text ends. -/
theorem completeFrames_take {text : Bytes} {k : Nat} (hk : k < (completeFrames text).length) :
    ∃ u, ((completeFrames text).take (k + 1)).flatten = u ++ [0x0A, 0x0A] ∧
      EmptyLineAt 0x0D 0x0A (plain 0x0D u).length text := by
  have hmem : (completeFrames text)[k] ∈ completeFrames text := List.getElem_mem hk
  have hblock : IsBlock 0x0A (completeFrames text)[k] := isBlock_of_mem_blocks hmem
  obtain ⟨g, hg⟩ := hblock.ends
  have htake : ((completeFrames text).take (k + 1)).flatten =
      (((completeFrames text).take k).flatten ++ g) ++ [0x0A, 0x0A] := by
    rw [List.take_succ_eq_append_getElem hk, List.flatten_append, List.flatten_singleton, hg,
      List.append_assoc]
  refine ⟨_, htake, emptyLineAt_of_collapse cr_ne_nl (v :=
    ((completeFrames text).drop (k + 1)).flatten ++ (blocks 0x0A (collapse 0x0D 0x0A text)).2) ?_⟩
  have hflat := blocks_flatten (0x0A : UInt8) (collapse 0x0D 0x0A text)
  change (completeFrames text).flatten ++ _ = _ at hflat
  rw [← List.take_append_drop (k + 1) (completeFrames text), List.flatten_append, htake,
    List.append_assoc, List.append_assoc _ [0x0A, 0x0A]] at hflat
  exact hflat.symm

theorem completeFrames_prefix (s t : Bytes) : completeFrames s <+: completeFrames (s ++ t) :=
  blocks_collapse_prefix cr_ne_nl s t

theorem completeFrames_nil : completeFrames [] = [] := by
  have hcut := congrArg Prod.fst cutFrames_nil
  rwa [cutFrames_of_valid Utf8.valid_nil] at hcut

/-- The plain symbols of a text's frames are the first of the text. -/
theorem plain_completeFrames (text : Bytes) (n : Nat) :
    plain 0x0D ((completeFrames text).take n).flatten <+: plain 0x0D text := by
  have hflat := blocks_flatten (0x0A : UInt8) (collapse 0x0D 0x0A text)
  change (completeFrames text).flatten ++ _ = _ at hflat
  rw [← List.take_append_drop n (completeFrames text), List.flatten_append, List.append_assoc]
    at hflat
  rw [← (collapse_thinned 0x0D 0x0A text).plain, ← hflat, plain_append]
  exact List.prefix_append _ _

/-! ### What is processed -/

/-- Every empty line of the bytes seen was processed, but for its last newline. -/
def Covers (frames : List Bytes) (seen : Bytes) : Prop :=
  ∀ n, EmptyLineAt 0x0D 0x0A n seen → n < (plain 0x0D frames.flatten).length

theorem Covers.append {frames : List Bytes} {seen : Bytes} (h : Covers frames seen)
    (later : List Bytes) : Covers (frames ++ later) seen := by
  intro n hn
  have hlt := h n hn
  rw [List.flatten_append, plain_append, List.length_append]
  omega

theorem Covers.nil : Covers [] [] := by
  rintro n ⟨a, c, b, heq, -⟩
  simp at heq

/-- A pass over a text covers its empty lines. -/
theorem Accounts.covers {seen raw : Bytes} {done : List Bytes} (h : Accounts seen done raw)
    (hv : Utf8.Valid seen) : Covers (done ++ (cutFrames raw).1) seen := by
  intro n hn
  have hraw : Utf8.Valid raw := by
    have hvalid := (h.valid []).mpr
    rw [List.append_nil, List.append_nil] at hvalid
    exact hvalid hv
  have hlt := hn.lt_plain cr_ne_nl h.thinned
  rwa [← cutFrames_of_valid hraw, ← List.flatten_append] at hlt

/-- Wherever the bytes received form a text, its empty lines were covered. -/
def CoversTexts (script : List Polled) (frames : List Bytes) : Prop :=
  ∀ early, early <+: script → Utf8.Valid (scriptBytes early) → Covers frames (scriptBytes early)

theorem CoversTexts.append {script : List Polled} {frames : List Bytes}
    (h : CoversTexts script frames) (later : List Bytes) : CoversTexts script (frames ++ later) :=
  fun early hpre hv => (h early hpre hv).append later

theorem Passes.coversTexts {script : List Polled} {frames : List Bytes} {left : Bytes}
    (h : Passes [] script frames left) : CoversTexts script frames := by
  have hstart : CoversTexts [] [] := by
    intro early hpre _
    obtain rfl := List.prefix_nil.mp hpre
    exact Covers.nil
  have hseen : Accounts (scriptBytes []) [] [] := Accounts.refl []
  refine h.invariant (fun _ _ hcovers => hcovers.append _) ?_ ?_ hseen hstart
  · intro pre done hcovers early hpre hv
    rcases List.prefix_concat_iff.mp hpre with rfl | hpre
    · rw [scriptBytes_pending] at hv ⊢
      exact hcovers pre List.prefix_rfl hv
    · exact hcovers early hpre hv
  · intro pre bytes done raw hnow hcovers early hpre hv
    rcases List.prefix_concat_iff.mp hpre with rfl | hpre
    · exact hnow.covers hv
    · exact (hcovers early hpre hv).append _

/-- The frames so far stem from a prefix of the script whose bytes are a text;
without `cr cr nl` they are the frames of this text. -/
def UpToText (script : List Polled) (frames : List Bytes) : Prop :=
  ∃ early, early <+: script ∧ Utf8.Valid (scriptBytes early) ∧
    plain 0x0D frames.flatten <+: plain 0x0D (scriptBytes early) ∧
    (¬ [0x0D, 0x0D, 0x0A] <:+: scriptBytes early → frames = completeFrames (scriptBytes early))

theorem UpToText.append {script : List Polled} {frames : List Bytes} (h : UpToText script frames)
    (later : List Polled) : UpToText (script ++ later) frames := by
  obtain ⟨early, hpre, hearly⟩ := h
  exact ⟨early, hpre.trans (List.prefix_append _ _), hearly⟩

/-- A pass over a text cuts off all frames received so far. -/
theorem Accounts.upToText {script : List Polled} {raw : Bytes} {done : List Bytes}
    (h : Accounts (scriptBytes script) done raw) (hdone : UpToText script done) :
    UpToText script (done ++ (cutFrames raw).1) := by
  by_cases hv : Utf8.Valid raw
  · have hvalid := (h.valid []).mp
    rw [List.append_nil, List.append_nil] at hvalid
    refine ⟨script, List.prefix_rfl, hvalid hv, ?_, fun hcr => ?_⟩
    · rw [← h.cut.thinned.plain, plain_append]
      exact List.prefix_append _ _
    · have hframes := congrArg Prod.fst (h.frames [] (by rwa [List.append_nil])).2
      rw [List.append_nil, List.append_nil] at hframes
      rw [completeFrames, hframes, cutFrames_of_valid hv]
      rfl
  · rwa [cutFrames_of_not_valid hv, List.append_nil]

/-- All frames cut off stem from a point of the script where the bytes received
form a text. -/
theorem Passes.upToText {script : List Polled} {frames : List Bytes} {left : Bytes}
    (h : Passes [] script frames left) : UpToText script frames := by
  have hstart : UpToText [] [] :=
    ⟨[], List.prefix_rfl, Utf8.valid_nil, List.prefix_rfl, fun _ => completeFrames_nil.symm⟩
  have hseen : Accounts (scriptBytes []) [] [] := Accounts.refl []
  exact h.invariant (fun _ hnow hfirst => hnow.upToText hfirst) (fun _ _ hfirst => hfirst.append _)
    (fun _ _ _ _ hnow hfirst => hnow.upToText (hfirst.append _)) hseen hstart

/-! ### Frame by frame -/

section Frame

variable {script : List Polled} {frames : List Bytes} {left : Bytes} {k : Nat}

theorem Passes.linesIn (h : Passes [] script frames left) (hk : Readable script k) :
    LinesIn frames (scriptBytes script) k := by
  obtain ⟨early, ⟨late, rfl⟩, hv, hlt⟩ := hk
  have hcovers := h.coversTexts early (List.prefix_append _ _) hv
  have hthin := (h.accounts (Accounts.refl [])).thinned
  rw [List.nil_append, List.nil_append] at hthin
  -- The frame ends where it ends in the bytes received early.
  have htake : (completeFrames (scriptBytes (early ++ late))).take (k + 1) =
      (completeFrames (scriptBytes early)).take (k + 1) := by
    obtain ⟨later, hlater⟩ := completeFrames_prefix (scriptBytes early) (scriptBytes late)
    rw [scriptBytes_append, ← hlater, List.take_append_of_le_length hlt]
  obtain ⟨u, hu, hempty⟩ := completeFrames_take hlt
  have hend := hcovers _ hempty
  have hlines : plain 0x0D frames.flatten <+: plain 0x0D (scriptBytes (early ++ late)) := by
    rw [← hthin.plain, plain_append]
    exact List.prefix_append _ _
  refine List.prefix_of_prefix_length_le
    ((List.dropLast_prefix _).trans (plain_completeFrames _ _)) hlines ?_
  rw [linesUpTo, htake, hu, plain_append, List.length_dropLast, List.length_append]
  have htwo : (plain 0x0D [0x0A, 0x0A] : Bytes).length = 2 := by decide
  omega

theorem Readable.lt (hk : Readable script k) :
    k < (completeFrames (scriptBytes script)).length := by
  obtain ⟨early, ⟨late, rfl⟩, -, hlt⟩ := hk
  rw [scriptBytes_append]
  have hpre : completeFrames (scriptBytes early) <+:
      completeFrames (scriptBytes early ++ scriptBytes late) := completeFrames_prefix _ _
  exact hlt.trans_le hpre.length_le

/-- Processed lines have arrived before a point where everything received was a
text. -/
theorem Passes.linesReadable (h : Passes [] script frames left)
    (hlines : LinesIn frames (scriptBytes script) k) : LinesReadable script k := by
  obtain ⟨early, hpre, hv, hplain, -⟩ := h.upToText
  exact ⟨early, hpre, hv, hlines.trans hplain⟩

/-- The first frames of a text hold all lines of these frames only: the next one
adds two newlines. -/
theorem lt_of_linesIn {text : Bytes} (hpre : frames <+: completeFrames text)
    (hk : k < (completeFrames text).length) (hlines : LinesIn frames text k) :
    k < frames.length := by
  by_contra hge
  obtain ⟨later, hlater⟩ := hpre
  have htake : (completeFrames text).take k = frames ++ later.take (k - frames.length) := by
    rw [← hlater, List.take_append, List.take_of_length_le (by omega)]
  have hblock : IsBlock 0x0A (completeFrames text)[k] :=
    isBlock_of_mem_blocks (List.getElem_mem hk)
  obtain ⟨g, hg⟩ := hblock.ends
  have hlen := hlines.length_le
  rw [linesUpTo, List.take_succ_eq_append_getElem hk, htake, hg] at hlen
  have htwo : (plain 0x0D [0x0A, 0x0A] : Bytes).length = 2 := by decide
  simp only [List.flatten_append, List.flatten_singleton, plain_append, List.length_dropLast,
    List.length_append] at hlen
  omega

/-- Without `cr cr nl` the processed frames are the first of the text, and they
were complete at such a point. -/
theorem Passes.takes (h : Passes [] script frames left)
    (hcr : ¬ [0x0D, 0x0D, 0x0A] <:+: scriptBytes script) :
    frames <+: completeFrames (scriptBytes script) ∧
      ∀ k, k < frames.length ↔ Readable script k := by
  obtain ⟨early, ⟨late, rfl⟩, hv, -, hframes⟩ := h.upToText
  have hearly := hframes fun hi => hcr (by
    rw [scriptBytes_append]
    exact hi.trans (List.prefix_append _ _).isInfix)
  have hpre : frames <+: completeFrames (scriptBytes (early ++ late)) := by
    rw [hearly, scriptBytes_append]
    exact completeFrames_prefix _ _
  refine ⟨hpre, fun k => ⟨fun hk => ?_, fun hk => ?_⟩⟩
  · exact ⟨early, List.prefix_append _ _, hv, hearly ▸ hk⟩
  · exact lt_of_linesIn hpre hk.lt (h.linesIn hk)

end Frame

/-- What an event stream hands out is what its processed frames leave when
everything is flushed, and behind it the rest as it came. A frame is among the
processed ones if at some poll it has arrived and everything received is UTF-8,
and only then; where a `cr cr nl` makes passes differ, the newline that closes it
may be missing at that poll. Elsewhere the processed frames are the first ones of
the text. One malformed byte keeps every frame behind it in the rest. -/
theorem frame_processed_iff {ctx : SseCtx} (hr : RestoresText ctx.crates ctx.entries)
    {script : List Polled} (herr : ErrorFree script)
    (hfirst : (firstChunk script).any isSseFirstChunk = true) :
    ∃ frames st left, Finished ctx frames st ∧
      (∀ out, Drains ctx (.detecting script) out ↔
        out = (st.items ++ tailEmission left).map fun e => e.bytes ctx.crates) ∧
      (∀ key, st.handed key = received ctx key frames) ∧
      (∀ frame ∈ frames, IsBlock 0x0A frame) ∧
      Thinned 0x0D (frames.flatten ++ left) (scriptBytes script) ∧
      (¬ [0x0D, 0x0D, 0x0A] <:+: scriptBytes script →
        frames = (completeFrames (scriptBytes script)).take frames.length ∧
          ∀ k, k < frames.length ↔ Readable script k) ∧
      ∀ k, k < (completeFrames (scriptBytes script)).length →
        (Readable script k → LinesIn frames (scriptBytes script) k) ∧
        (LinesIn frames (scriptBytes script) k → LinesReadable script k ∧
          (¬ [0x0D, 0x0D, 0x0A] <:+: scriptBytes script → Readable script k)) := by
  obtain ⟨frames, st, left, hpasses, hfinished, hdelivers, -⟩ := ends_detecting hr herr hfirst
  have hthin := (hpasses.accounts (Accounts.refl [])).thinned
  rw [List.nil_append, List.nil_append] at hthin
  refine ⟨frames, st, left, hfinished, hdelivers.drains_iff, hfinished.handed_eq,
    hpasses.isBlock, hthin, fun hcr => ?_, fun k hk => ⟨hpasses.linesIn, fun hlines => ?_⟩⟩
  · obtain ⟨hpre, hreadable⟩ := hpasses.takes hcr
    exact ⟨List.prefix_iff_eq_take.mp hpre, hreadable⟩
  · refine ⟨hpasses.linesReadable hlines, fun hcr => ?_⟩
    obtain ⟨hpre, hreadable⟩ := hpasses.takes hcr
    exact (hreadable k).mp (lt_of_linesIn hpre hk hlines)

/-- A comment with a byte that is no UTF-8. -/
def malformedComment : Bytes := [0x3A, 0x20, 0xFF, 0x0A, 0x0A]

/-- A chat behind a malformed comment. -/
theorem frame_processed_iff_malformed :
    ∃ frames st left, Finished chatCtx frames st ∧
      (∀ out, Drains chatCtx (.detecting [.chunk malformedComment, .chunk chatChunk]) out ↔
        out = (st.items ++ tailEmission left).map fun e => e.bytes chatCtx.crates) ∧
      (∀ key, st.handed key = received chatCtx key frames) ∧
      (∀ frame ∈ frames, IsBlock 0x0A frame) ∧
      Thinned 0x0D (frames.flatten ++ left)
        (scriptBytes [.chunk malformedComment, .chunk chatChunk]) ∧
      (¬ [0x0D, 0x0D, 0x0A] <:+: scriptBytes [.chunk malformedComment, .chunk chatChunk] →
        frames = (completeFrames (scriptBytes [.chunk malformedComment, .chunk chatChunk])).take
            frames.length ∧
          ∀ k, k < frames.length ↔ Readable [.chunk malformedComment, .chunk chatChunk] k) ∧
      ∀ k, k < (completeFrames (scriptBytes [.chunk malformedComment, .chunk chatChunk])).length →
        (Readable [.chunk malformedComment, .chunk chatChunk] k →
          LinesIn frames (scriptBytes [.chunk malformedComment, .chunk chatChunk]) k) ∧
        (LinesIn frames (scriptBytes [.chunk malformedComment, .chunk chatChunk]) k →
          LinesReadable [.chunk malformedComment, .chunk chatChunk] k ∧
          (¬ [0x0D, 0x0D, 0x0A] <:+:
              scriptBytes [.chunk malformedComment, .chunk chatChunk] →
            Readable [.chunk malformedComment, .chunk chatChunk] k)) :=
  frame_processed_iff (leftmostCrates_restoresText _ _) (by simp [ErrorFree]) (by decide)

/-- The chat is a complete frame and a text, its fake is known, and it reaches the
client as it came. -/
theorem fake_behind_malformed :
    completeFrames (scriptBytes [.chunk malformedComment, .chunk chatChunk]) =
      [malformedComment, chatChunk] ∧
    Utf8.Valid chatChunk ∧ (extracted chatCtx chatChunk).map ExtractedField.text = ["sk-4fs"] ∧
    alikeEntries.map Entry.fake = [lit "sk-4fs"] ∧
    ∀ out, Drains chatCtx (.detecting [.chunk malformedComment, .chunk chatChunk]) out ↔
      out = [malformedComment ++ chatChunk] := by
  have hout : Drains chatCtx (.detecting [.chunk malformedComment, .chunk chatChunk])
      [malformedComment ++ chatChunk] := by
    -- No pass reads the stored bytes, so they are handed out at the end.
    have hstart : loopBody chatCtx (.detecting [.chunk malformedComment, .chunk chatChunk]) =
        .again (.streamingSse [.chunk chatChunk] .init malformedComment) := rfl
    have hchat : loopBody chatCtx (.streamingSse [.chunk chatChunk] .init malformedComment) =
        .again (.streamingSse [] .init (malformedComment ++ chatChunk)) := rfl
    have hend : loopBody chatCtx (.streamingSse [] .init (malformedComment ++ chatChunk)) =
        .again (.emitting [.raw (malformedComment ++ chatChunk)]) := rfl
    exact .again hstart (.again hchat (.again hend (drains_emitting chatCtx _)))
  refine ⟨?_, by decide, by decide, rfl, fun out => ⟨fun h => h.deterministic hout, ?_⟩⟩
  · have hbytes : scriptBytes [.chunk malformedComment, .chunk chatChunk] =
        [malformedComment, chatChunk].flatten ++ [] := by decide
    have hblocks : ∀ frame ∈ [malformedComment, chatChunk], IsBlock 0x0A frame := by
      simp only [List.forall_mem_cons, IsBlock]
      decide
    rw [completeFrames, hbytes, collapse_of_not_pair (by decide), blocks_of_isBlock hblocks,
      blocks_of_none rfl]
    rfl
  · rintro rfl
    exact hout

end LlmCacheProxy.Sse
