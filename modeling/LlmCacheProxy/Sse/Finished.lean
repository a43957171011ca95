import LlmCacheProxy.Sse.Conservation
import LlmCacheProxy.Sse.Output
import LlmCacheProxy.Sse.Readback

/-!
# The end of a stream

At its end a stream has flushed everything. The items it leaves are the queue
and the deferred frames behind it; what they show of a key is what was received
for it, cut into segments and restored segment by segment.
-/

namespace LlmCacheProxy.Sse

/-- The state in which a stream of these frames ends. -/
def Finished (ctx : SseCtx) (frames : List Bytes) (st : RestoreState) : Prop :=
  ∃ st₀, runFrames ctx frames RestoreState.init = .ok st₀ ∧ flushAllAccumulators ctx st₀ = .ok st

/-- What has been queued when the stream ends. -/
def RestoreState.items (st : RestoreState) : List Emission :=
  st.outputQueue ++ st.deferredPassthrough

theorem RestoresText.finished {ctx : SseCtx} (hr : RestoresText ctx.crates ctx.entries)
    (frames : List Bytes) : ∃ st, Finished ctx frames st := by
  obtain ⟨st₀, hrun⟩ := hr.runFrames frames RestoreState.init
  obtain ⟨st, hflush⟩ := hr.flushAllAccumulators st₀
  exact ⟨st, st₀, hrun, hflush⟩

/-! ### Queue and cuts grow -/

theorem processOneFrame_appends {ctx : SseCtx} {frame : Bytes} {st st' : RestoreState}
    (h : processOneFrame ctx frame st = .ok st') :
    st.outputQueue <+: st'.outputQueue ∧ st.cuts <+: st'.cuts := by
  rcases processOneFrame_cases h with ⟨-, -, rfl⟩ | ⟨scope, r, -, -, -, rfl⟩ | ⟨r, -, -, -, rfl⟩
  · exact ⟨List.prefix_append _ _, List.prefix_rfl⟩
  · unfold beforeTerminal
    split <;> simp [RestoreState.push, RestoreState.drainDeferred, RestoreState.flushed]
  · exact ⟨List.prefix_append _ _, List.prefix_append _ _⟩

theorem runFrames_appends {ctx : SseCtx} {frames : List Bytes} {st st' : RestoreState}
    (h : runFrames ctx frames st = .ok st') :
    st.outputQueue <+: st'.outputQueue ∧ st.cuts <+: st'.cuts := by
  apply runFrames_invariant _ _ h
  · exact ⟨List.prefix_rfl, List.prefix_rfl⟩
  · rintro front frame st₁ st₂ ⟨hqueue, hcuts⟩ hframe
    obtain ⟨hqueue', hcuts'⟩ := processOneFrame_appends hframe
    exact ⟨hqueue.trans hqueue', hcuts.trans hcuts'⟩

/-- The flush at the end shows its cuts and changes nothing else. -/
theorem flushAllAccumulators_cases {ctx : SseCtx} {st st' : RestoreState}
    (h : flushAllAccumulators ctx st = .ok st') :
    ∃ r, st.accumulators.visit (scopeFlush ctx .stream) = .ok r ∧ st' = st.flushed r := by
  rw [scopeFlush_stream] at h
  cases hv : st.accumulators.visit (scopeFlush ctx .stream) with
  | error e =>
      rw [hv] at h
      cases h
  | ok r =>
      rw [hv] at h
      exact ⟨r, rfl, (Except.ok.inj h).symm⟩

/-! ### Sound cuts -/

/-- A cut holds some text, and restore gave what is recorded. -/
def Cut.Sound (ctx : SseCtx) (cut : Cut) : Prop :=
  cut.segment ≠ Text.empty ∧ ctx.crates.restoreText ctx.entries cut.segment = .ok cut.restored

theorem flushSafePrefix_sound {ctx : SseCtx} {w : Nat} {key : FieldKey} {accum rest : Text}
    {cuts : List Cut} (h : flushSafePrefix ctx.crates ctx.entries w key accum = .ok (rest, cuts)) :
    ∀ cut ∈ cuts, cut.Sound ctx := by
  intro cut hcut
  rcases flushSafePrefix_cases h with ⟨-, -, rfl⟩ | ⟨segment, restored, rfl, -, hlen, hne, hr⟩
  · cases hcut
  · obtain rfl := List.mem_singleton.mp hcut
    refine ⟨?_, hr⟩
    rintro rfl
    exact hne hlen.symm

theorem keyStep_sound {ctx : SseCtx} {key : FieldKey} {input : KeyInput} {accum rest : Text}
    {cuts : List Cut} (h : keyStep ctx key input accum = .ok (rest, cuts)) :
    ∀ cut ∈ cuts, cut.Sound ctx := by
  cases input with
  | content text => exact flushSafePrefix_sound h
  | terminal =>
      simp only [keyStep] at h
      split at h
      · obtain ⟨-, rfl⟩ := by simpa using h
        exact fun _ hcut => absurd hcut List.not_mem_nil
      · exact flushSafePrefix_sound h
  | other =>
      obtain ⟨-, rfl⟩ := by simpa [keyStep] using h
      exact fun _ hcut => absurd hcut List.not_mem_nil

/-- Each key's new cuts are sound, so all cuts stay sound. -/
private theorem sound_of_keys {ctx : SseCtx} {st st' : RestoreState}
    (hst : ∀ cut ∈ st.cuts, cut.Sound ctx)
    (hkey : ∀ key, ∃ cuts, (∀ cut ∈ cuts, cut.Sound ctx) ∧
      st'.cutsFor key = st.cutsFor key ++ cuts) :
    ∀ cut ∈ st'.cuts, cut.Sound ctx := by
  intro cut hcut
  obtain ⟨cuts, hsound, heq⟩ := hkey cut.key
  have hmem : cut ∈ st'.cutsFor cut.key := List.mem_filter.mpr ⟨hcut, by simp⟩
  rw [heq] at hmem
  rcases List.mem_append.mp hmem with hmem | hmem
  · exact hst cut (List.mem_of_mem_filter hmem)
  · exact hsound cut hmem

theorem processOneFrame_sound {ctx : SseCtx} {frame : Bytes} {st st' : RestoreState}
    (h : processOneFrame ctx frame st = .ok st') (hst : ∀ cut ∈ st.cuts, cut.Sound ctx) :
    ∀ cut ∈ st'.cuts, cut.Sound ctx := by
  apply sound_of_keys hst
  intro key
  obtain ⟨cuts, hstep, heq⟩ := processOneFrame_key h key
  exact ⟨cuts, keyStep_sound hstep, heq⟩

theorem runFrames_sound {ctx : SseCtx} {frames : List Bytes} {st st' : RestoreState}
    (h : runFrames ctx frames st = .ok st') (hst : ∀ cut ∈ st.cuts, cut.Sound ctx) :
    ∀ cut ∈ st'.cuts, cut.Sound ctx :=
  runFrames_invariant hst (fun _ _ _ _ hst₁ hframe => processOneFrame_sound hframe hst₁) h

/-! ### What is shown of a text -/

/-- `text` was cut into segments, each of them was restored, and what did not
vanish is shown. -/
def RestoredTo (ctx : SseCtx) (text : Text) (shown : List Text) : Prop :=
  ∃ cuts : List Cut, (∀ cut ∈ cuts, cut.Sound ctx) ∧
    Text.concat (cuts.map Cut.segment) = text ∧ shown = cuts.filterMap Cut.shown

/-- In every reachable state the queue shows what has been handed to restore. -/
theorem runFrames_restoredTo {ctx : SseCtx} {frames : List Bytes} {st : RestoreState}
    (h : runFrames ctx frames RestoreState.init = .ok st) (key : FieldKey) :
    RestoredTo ctx (st.handed key) (emittedTexts key st.outputQueue) := by
  have hsound := runFrames_sound h fun _ hcut => absurd hcut List.not_mem_nil
  refine ⟨st.cutsFor key, fun cut hcut => ?_, rfl, (runFrames_outputInOrder h).emitted key⟩
  exact hsound cut (List.mem_of_mem_filter hcut)

namespace Finished

variable {ctx : SseCtx} {frames : List Bytes} {st : RestoreState}

theorem sound (h : Finished ctx frames st) : ∀ cut ∈ st.cuts, cut.Sound ctx := by
  obtain ⟨st₀, hrun, hflush⟩ := h
  apply sound_of_keys (runFrames_sound hrun fun _ hcut => absurd hcut List.not_mem_nil)
  intro key
  obtain ⟨cuts, hstep, heq⟩ := flushAllAccumulators_key hflush key
  exact ⟨cuts, keyStep_sound hstep, heq⟩

/-- The flush at the end keeps the queue in order. -/
theorem outputInOrder (h : Finished ctx frames st) : OutputInOrder ctx frames st := by
  obtain ⟨st₀, hrun, hflush⟩ := h
  obtain ⟨r, -, rfl⟩ := flushAllAccumulators_cases hflush
  have hst := runFrames_outputInOrder hrun
  constructor
  · exact hst.waiting
  · rw [← hst.deferred]
    simp [RestoreState.flushed, filter_deferred_cuts]
  · exact hst.flushed_emitted r
  · simp only [RestoreState.flushed, passedFrames_append, hst.passed, passedFrames_cuts,
      List.append_nil]

theorem handed_eq (h : Finished ctx frames st) (key : FieldKey) :
    st.handed key = received ctx key frames := by
  obtain ⟨st₀, hrun, hflush⟩ := h
  rw [(flushAll_conserves hflush key).2, runFrames_conserves hrun]

/-- Deferred frames show no restored text. -/
theorem emittedTexts_items (h : Finished ctx frames st) (key : FieldKey) :
    emittedTexts key st.items = (st.cutsFor key).filterMap Cut.shown := by
  have hout := h.outputInOrder
  rw [RestoreState.items, emittedTexts_append, hout.emitted,
    emittedTexts_of_deferred hout.waiting, List.append_nil]

/-- The upstream frames among the items are those without content. -/
theorem passedFrames_items (h : Finished ctx frames st) :
    passedFrames st.items = frames.filter fun frame => (extracted ctx frame).isEmpty := by
  have hout := h.outputInOrder
  rw [RestoreState.items, passedFrames_append, hout.passed,
    passedFrames_of_deferred hout.waiting, List.append_nil]

/-- The deferred frames among the items are all that arose. -/
theorem deferred_items (h : Finished ctx frames st) :
    st.items.filter Emission.isDeferred = collected ctx frames := by
  have hout := h.outputInOrder
  rw [RestoreState.items, List.filter_append, List.filter_eq_self.mpr hout.waiting, hout.deferred]

/-- A deferred frame holds what a frame could not pass on at once. -/
theorem deferred_eq (h : Finished ctx frames st) {extra : Json} (he : .deferred extra ∈ st.items) :
    ∃ json, extra = geminiExtra json := by
  have hmem : Emission.deferred extra ∈ st.items.filter Emission.isDeferred :=
    List.mem_filter.mpr ⟨he, rfl⟩
  rw [h.deferred_items] at hmem
  obtain ⟨frame, -, hframe⟩ := List.mem_flatMap.mp hmem
  split at hframe
  · cases hframe
  unfold deferredFor at hframe
  split at hframe
  · rename_i json _
    unfold deferredOf at hframe
    split at hframe
    · split at hframe
      · cases hframe
      · exact ⟨json, Emission.deferred.inj (List.mem_singleton.mp hframe)⟩
    · cases hframe
  · cases hframe

/-- A restored text was received under its key. -/
theorem received_of_cut (h : Finished ctx frames st) {cut : Cut} (hcut : cut ∈ st.cuts) :
    ∃ frame ∈ frames, ∃ f ∈ extracted ctx frame, f.key = cut.key := by
  by_contra hnone
  simp only [not_exists, not_and] at hnone
  have hreceived : received ctx cut.key frames = Text.empty :=
    received_eq_empty_iff.mpr fun frame hframe f hf hkey => absurd hkey (hnone frame hframe f hf)
  have hhanded := h.handed_eq cut.key
  rw [hreceived, RestoreState.handed, Text.concat_eq_empty_iff] at hhanded
  have hmem : cut ∈ st.cutsFor cut.key := List.mem_filter.mpr ⟨hcut, by simp⟩
  exact (h.sound cut hcut).1 (hhanded _ (List.mem_map_of_mem hmem))

/-- The keys of synthetic frames are keys of the provider. -/
theorem ofProvider (h : Finished ctx frames st) {cut : Cut} (hcut : cut ∈ st.cuts) :
    cut.key.OfProvider ctx.provider := by
  obtain ⟨frame, -, f, hf, heq⟩ := h.received_of_cut hcut
  rw [← heq]
  exact extracted_ofProvider hf

/-- A synthetic frame shows a cut. -/
theorem synthetic_mem (h : Finished ctx frames st) {key : FieldKey} {text : Text}
    (he : .synthetic key text ∈ st.items) :
    text ≠ Text.empty ∧ ∃ cut ∈ st.cuts, cut.key = key ∧ cut.restored = text := by
  have hmem : text ∈ emittedTexts key st.items :=
    List.mem_filterMap.mpr ⟨_, he, by simp⟩
  rw [h.emittedTexts_items, List.mem_filterMap] at hmem
  obtain ⟨cut, hcut, hshown⟩ := hmem
  unfold Cut.shown at hshown
  split at hshown
  · cases hshown
  · rename_i hne
    obtain rfl := Option.some.inj hshown
    obtain ⟨hcut, hkey⟩ := List.mem_filter.mp hcut
    exact ⟨hne, cut, hcut, by simpa using hkey, rfl⟩

/-- What the items show of a key is what was received for it. -/
theorem restoredTo (h : Finished ctx frames st) (key : FieldKey) :
    RestoredTo ctx (received ctx key frames) (emittedTexts key st.items) := by
  refine ⟨st.cutsFor key, fun cut hcut => ?_, h.handed_eq key, h.emittedTexts_items key⟩
  exact h.sound cut (List.mem_of_mem_filter hcut)

/-- The stream up to a frame, and what the frame adds, are found in the items. -/
theorem split {front back : List Bytes} {frame : Bytes}
    (h : Finished ctx (front ++ frame :: back) st) :
    ∃ st₀ st₁ after, runFrames ctx front RestoreState.init = .ok st₀ ∧
      processOneFrame ctx frame st₀ = .ok st₁ ∧ st.items = st₁.outputQueue ++ after := by
  obtain ⟨stₙ, hrun, hflush⟩ := h
  obtain ⟨st₀, hfront, hrest⟩ := runFrames_split hrun
  obtain ⟨st₁, hframe, hback⟩ := runFrames_cons hrest
  obtain ⟨after, hafter⟩ := (runFrames_appends hback).1
  obtain ⟨r, -, rfl⟩ := flushAllAccumulators_cases hflush
  refine ⟨st₀, st₁, after ++ r.2.flatMap Cut.emission ++ stₙ.deferredPassthrough, hfront,
    hframe, ?_⟩
  simp [RestoreState.items, RestoreState.flushed, ← hafter]

end Finished

end LlmCacheProxy.Sse
