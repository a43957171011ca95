import LlmCacheProxy.Sse.InvalidBytes

/-!
# The unterminated tail

At the end of the stream the accumulators are flushed, the deferred frames go
out, and the stored bytes go out as they are. A last frame whose empty line is
missing is among the stored bytes, so its texts never meet the text that waits
for their keys.
-/

namespace LlmCacheProxy.Sse

open Framing

/-- Frames whose texts are all empty. -/
def Textless (ctx : SseCtx) (frames : List Bytes) : Prop :=
  ∀ frame ∈ frames, ∀ f ∈ extracted ctx frame, f.text = Text.empty

theorem textless_iff {ctx : SseCtx} {frames : List Bytes} :
    Textless ctx frames ↔ ∀ key, received ctx key frames = Text.empty := by
  simp only [received_eq_empty_iff]
  exact ⟨fun h _ frame hframe f hf _ => h frame hframe f hf,
    fun h frame hframe f hf => h f.key frame hframe f hf rfl⟩

/-- Further frames hand further text to restore, unless they hold none. -/
theorem Finished.handed_eq_iff {ctx : SseCtx} {frames last : List Bytes} {st st' : RestoreState}
    (h : Finished ctx frames st) (h' : Finished ctx (frames ++ last) st') :
    (∀ key, st.handed key = st'.handed key) ↔ Textless ctx last := by
  rw [textless_iff]
  refine forall_congr' fun key => ?_
  rw [h.handed_eq, h'.handed_eq, received_append, Text.eq_empty_iff]
  constructor
  · intro heq
    have hbytes := congrArg Text.bytes heq
    rw [Text.bytes_append] at hbytes
    exact List.self_eq_append_right.mp hbytes
  · intro hempty
    apply Text.ext
    rw [Text.bytes_append, hempty, List.append_nil]

/-- The frames that `closing` completes behind a text. -/
def closedFrames (text closing : Bytes) : List Bytes :=
  (completeFrames (text ++ closing)).drop (completeFrames text).length

/-- A stream that ends, and the same stream when `closing` arrives before its end:
both hand out what their frames leave, and behind it the rest as it came. What
restore gets for each key is the same exactly if the frames that `closing`
completes hold no text. Otherwise their text leaves with the rest, apart from
what waited for its key. -/
theorem tail_restored_iff {ctx : SseCtx} (hr : RestoresText ctx.crates ctx.entries)
    {script : List Polled} (herr : ErrorFree script)
    (hfirst : (firstChunk script).any isSseFirstChunk = true) (closing : Bytes) :
    ∃ frames st left last st' rest, Finished ctx frames st ∧
      (∀ out, Drains ctx (.detecting script) out ↔
        out = (st.items ++ tailEmission left).map fun e => e.bytes ctx.crates) ∧
      Finished ctx (frames ++ last) st' ∧
      (∀ out, Drains ctx (.detecting (script ++ [.chunk closing])) out ↔
        out = (st'.items ++ tailEmission rest).map fun e => e.bytes ctx.crates) ∧
      Thinned 0x0D (last.flatten ++ rest) (left ++ closing) ∧
      ((∀ key, st.handed key = st'.handed key) ↔ Textless ctx last) ∧
      (Utf8.Valid (scriptBytes script) → Utf8.Valid closing →
        ¬ [0x0D, 0x0D, 0x0A] <:+: scriptBytes script ++ closing →
        frames = completeFrames (scriptBytes script) ∧
          last = closedFrames (scriptBytes script) closing) := by
  obtain ⟨frames, delivered, st₀, left, hpasses, hreads⟩ := reads_detecting hr herr hfirst
  have hchunk : ErrorFree [.chunk closing] := by simp [ErrorFree]
  obtain ⟨last, delivered', st₁, rest, hlast, hclosed⟩ := hreads.script hr hchunk
  obtain ⟨st, hst, hdelivers⟩ := hreads.ends hr
  obtain ⟨st', hst', hdelivers'⟩ := hclosed.ends hr
  rw [List.append_nil] at hdelivers hdelivers'
  have hbytes : scriptBytes [.chunk closing] = closing := List.append_nil _
  have hthin := (hlast.accounts (Accounts.refl left)).thinned
  rw [List.nil_append, hbytes] at hthin
  refine ⟨frames, st, left, last, st', rest, hst, hdelivers.drains_iff, hst', hdelivers'.drains_iff,
    hthin, hst.handed_eq_iff hst', fun hv hvc hcr => ?_⟩
  have hframes : completeFrames (scriptBytes script) = frames := congrArg Prod.fst
    (hpasses.whole hv fun hi => hcr (hi.trans (List.prefix_append _ _).isInfix))
  have hwhole := (hpasses.append hlast).whole
  rw [scriptBytes_append, hbytes] at hwhole
  have hboth : completeFrames (scriptBytes script ++ closing) = frames ++ last :=
    congrArg Prod.fst (hwhole (hv.append hvc) hcr)
  refine ⟨hframes.symm, ?_⟩
  rw [closedFrames, hboth, hframes, List.drop_left]

/-- The chat completion chunk without its empty line. -/
def chatTail : Bytes := lit "data: " ++ chatData

/-- The chunk arrives without its empty line, and with it. -/
theorem tail_restored_iff_chat :
    ∃ frames st left last st' rest, Finished chatCtx frames st ∧
      (∀ out, Drains chatCtx (.detecting [.chunk chatTail]) out ↔
        out = (st.items ++ tailEmission left).map fun e => e.bytes chatCtx.crates) ∧
      Finished chatCtx (frames ++ last) st' ∧
      (∀ out, Drains chatCtx (.detecting ([.chunk chatTail] ++ [.chunk (lit "\n\n")])) out ↔
        out = (st'.items ++ tailEmission rest).map fun e => e.bytes chatCtx.crates) ∧
      Thinned 0x0D (last.flatten ++ rest) (left ++ lit "\n\n") ∧
      ((∀ key, st.handed key = st'.handed key) ↔ Textless chatCtx last) ∧
      (Utf8.Valid (scriptBytes [.chunk chatTail]) → Utf8.Valid (lit "\n\n") →
        ¬ [0x0D, 0x0D, 0x0A] <:+: scriptBytes [.chunk chatTail] ++ lit "\n\n" →
        frames = completeFrames (scriptBytes [.chunk chatTail]) ∧
          last = closedFrames (scriptBytes [.chunk chatTail]) (lit "\n\n")) :=
  tail_restored_iff (leftmostCrates_restoresText _ _) (by simp [ErrorFree]) (by decide) _

/-- A known fake lies in the tail and reaches the client as it came; behind an
empty line restore would have got it. -/
theorem fake_in_tail :
    closedFrames chatTail (lit "\n\n") = [chatChunk] ∧
    (extracted chatCtx chatChunk).map ExtractedField.text = ["sk-4fs"] ∧
    alikeEntries.map Entry.fake = [lit "sk-4fs"] ∧
    (∀ out, Drains chatCtx (.detecting [.chunk chatTail]) out ↔ out = [chatTail]) ∧
    ∃ st st', Finished chatCtx [] st ∧ Finished chatCtx [chatChunk] st' ∧
      st.handed .openAiContent = "" ∧ st'.handed .openAiContent = "sk-4fs" := by
  have hr : RestoresText chatCtx.crates chatCtx.entries := leftmostCrates_restoresText _ _
  have htail : blocks 0x0A (collapse 0x0D 0x0A chatTail) = ([], chatTail) := by
    rw [collapse_of_not_pair (by decide)]
    exact blocks_of_none (by decide)
  have hdelivers : Delivers chatCtx (.detecting [.chunk chatTail]) [.raw chatTail] := by
    have hstart : loopBody chatCtx (.detecting [.chunk chatTail]) =
        .again (.streamingSse [] .init chatTail) := rfl
    have hend : loopBody chatCtx (.streamingSse [] .init chatTail) =
        .again (.emitting [.raw chatTail]) := loopBody_settled rfl fun _ => htail
    exact .again hstart (.again hend (delivers_emitting chatCtx _))
  refine ⟨?_, by decide, rfl, hdelivers.drains_iff, ?_⟩
  · have hchunk : nextBlock 0x0A chatChunk = some (chatChunk, []) := by decide
    have hclosed : completeFrames (chatTail ++ lit "\n\n") = [chatChunk] := by
      rw [completeFrames, collapse_of_not_pair (by decide)]
      refine (congrArg Prod.fst (blocks_of_some hchunk)).trans ?_
      rw [blocks_of_none rfl]
    rw [closedFrames, hclosed, completeFrames, htail]
    rfl
  · obtain ⟨st, hst⟩ := hr.finished []
    obtain ⟨st', hst'⟩ := hr.finished [chatChunk]
    refine ⟨st, st', hst, hst', ?_, ?_⟩
    · rw [hst.handed_eq]
      decide
    · rw [hst'.handed_eq]
      decide

end LlmCacheProxy.Sse
