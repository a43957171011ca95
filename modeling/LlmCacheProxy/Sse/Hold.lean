import LlmCacheProxy.Sse.Waiting
import LlmCacheProxy.Sse.WindowRestore

/-!
# How much text the window holds

Retraction and flooring both move a cut to the left. A retracted target begins a
partial fake, so it is a character boundary already and flooring leaves it where
it is: only one of the two can move a cut.
-/

namespace LlmCacheProxy.Sse

/-- What is left uncut is shorter than a partial fake behind the hold window, or
than a character behind it. -/
theorem AtRest.length_le {entries : List Entry} (hf : ∀ e ∈ entries, Utf8.Valid e.fake)
    {accum : Text} (h : AtRest entries accum) (hpos : 1 ≤ maxFakeLen entries) :
    accum.length ≤ max (2 * maxFakeLen entries - 1) (maxFakeLen entries + 3) := by
  set nominal := accum.bytes.length - maxFakeLen entries with hnominal
  have hlen : accum.bytes.length = accum.length := Text.length_bytes accum
  have hfloor : Utf8.floorCharBoundary accum.bytes (safeTarget entries accum.bytes nominal) =
      0 := by
    have hcut := h
    rwa [AtRest, cutPoint, if_pos (show 0 < maxFakeLen entries from hpos)] at hcut
  by_cases htarget : safeTarget entries accum.bytes nominal = nominal
  · rw [htarget] at hfloor
    have := Utf8.le_floorCharBoundary_add accum.valid (show nominal ≤ accum.bytes.length by omega)
    have := le_max_right (2 * maxFakeLen entries - 1) (maxFakeLen entries + 3)
    omega
  · obtain ⟨e, he, hpartial⟩ := partialAt_safeTarget htarget
    rw [Utf8.floorCharBoundary_eq_self (partialAt_boundary hf he hpartial)] at hfloor
    obtain ⟨-, hshort, -⟩ := hpartial
    have := length_le_maxFakeLen he
    have := le_max_left (2 * maxFakeLen entries - 1) (maxFakeLen entries + 3)
    omega

/-- Without a hold window nothing is left uncut. -/
theorem AtRest.length_eq_zero {entries : List Entry} {accum : Text} (h : AtRest entries accum)
    (hzero : maxFakeLen entries = 0) : accum.length = 0 := by
  rwa [AtRest, hzero, cutPoint_zero] at h

/-- After every frame, however long or repetitive the text of a key is, its
accumulator holds less than two hold windows or less than a hold window and a
character. -/
theorem runFrames_hold {ctx : SseCtx} (hf : ∀ e ∈ ctx.entries, Utf8.Valid e.fake)
    {frames : List Bytes} {st : RestoreState}
    (h : runFrames ctx frames RestoreState.init = .ok st) (key : FieldKey) :
    (1 ≤ maxFakeLen ctx.entries → (st.accum key).length ≤
      max (2 * maxFakeLen ctx.entries - 1) (maxFakeLen ctx.entries + 3)) ∧
    (maxFakeLen ctx.entries = 0 → (st.accum key).length = 0) :=
  ⟨(runFrames_atRest h key).length_le hf, (runFrames_atRest h key).length_eq_zero⟩

theorem runFrames_hold_chat : ∃ st,
    runFrames chatCtx [chatChunk, chatChunk] RestoreState.init = .ok st ∧
    (st.accum .openAiContent).length ≤ 11 := by
  have hr : RestoresText chatCtx.crates chatCtx.entries := leftmostCrates_restoresText _ _
  obtain ⟨st, hrun⟩ := hr.runFrames [chatChunk, chatChunk] RestoreState.init
  exact ⟨st, hrun, (runFrames_hold (by decide) hrun .openAiContent).1 (by decide)⟩

end LlmCacheProxy.Sse
