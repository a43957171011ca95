import LlmCacheProxy.Sse.Order
import LlmCacheProxy.Sse.Waiting

/-!
# Done events of the Responses API

A done event repeats the whole text of an output part. Its text goes through an
accumulator of its own, which the window cuts like any other, and comes out
with the next done event or terminal. The deltas before it wait in a second
accumulator meanwhile, as long as the window has them.
-/

namespace LlmCacheProxy.Sse

/-- The key of a `response.output_text.done` event. -/
def doneKey : FieldKey := .responsesApiDone "response.output_text.done"

/-- A done event with some text in it. -/
def DoneFrame (ctx : SseCtx) (frame : Bytes) (text : Text) : Prop :=
  (∃ f ∈ extracted ctx frame, f.key = doneKey ∧ f.text = text) ∧ text ≠ Text.empty

theorem delta_lt_doneKey (eventType : Text) : FieldKey.responsesApiDelta eventType < doneKey := by
  apply Prod.Lex.toLex_lt_toLex.mpr
  exact Or.inl (show 6 < 7 by decide)

private theorem chat_ne_doneKey {json : Json} :
    ∀ f ∈ extractChatCompletion json, f.key ≠ doneKey := by
  intro f hf
  rcases extractChatCompletion_cases hf with hkey | hkey | ⟨index, hkey⟩ | hkey | hkey
  all_goals
    rw [hkey]
    exact FieldKey.noConfusion

/-- A frame has one done text at most. -/
theorem extracted_done (ctx : SseCtx) (frame : Bytes) :
    ((extracted ctx frame).filter fun f => f.key = doneKey).length ≤ 1 := by
  have hnone {fields : List ExtractedField} (h : ∀ f ∈ fields, f.key ≠ doneKey) :
      (fields.filter fun f => f.key = doneKey).length ≤ 1 := by
    have hnil : (fields.filter fun f => f.key = doneKey) = [] := by
      rw [List.filter_eq_nil_iff]
      intro f hf
      simpa using h f hf
    rw [hnil]
    exact Nat.zero_le 1
  have hone (key : FieldKey) (json : Json) (name : Text) :
      ((stringField key json name).filter fun f => f.key = doneKey).length ≤ 1 := by
    refine (List.length_filter_le _ _).trans ?_
    unfold stringField
    split
    · exact le_rfl
    · exact Nat.zero_le 1
  by_cases hp : OpenAiFamily ctx.provider
  · have hfields (json : Json) (et : Option Bytes) :
        ((extractFields json .openAi et).filter fun f => f.key = doneKey).length ≤ 1 := by
      simp only [extractFields]
      split
      · split
        · unfold extractResponsesApi
          split
          · exact hone _ _ _
          split
          · exact hone _ _ _
          split
          · exact hone _ _ _
          · exact Nat.zero_le 1
        · exact hnone chat_ne_doneKey
      · exact hnone chat_ne_doneKey
    unfold extracted
    split
    · rename_i json _
      rcases hp with hp | hp <;> rw [hp] <;> exact hfields json _
    · exact Nat.zero_le 1
  · apply hnone
    intro f hf hkey
    have hofProvider := extracted_ofProvider hf
    rw [hkey] at hofProvider
    exact hp hofProvider.1

theorem keyInput_done {ctx : SseCtx} {frame : Bytes} {text : Text}
    (h : DoneFrame ctx frame text) : keyInput ctx doneKey frame = .content text := by
  obtain ⟨⟨f, hf, hkey, rfl⟩, -⟩ := h
  have hone := extracted_done ctx frame
  have hmem : f ∈ (extracted ctx frame).filter fun f => f.key = doneKey :=
    List.mem_filter.mpr ⟨hf, decide_eq_true hkey⟩
  have htext : textFor doneKey (extracted ctx frame) = f.text := by
    rw [textFor]
    rcases eq_nil_or_singleton hone with hnil | ⟨g, hg⟩
    · rw [hnil] at hmem
      cases hmem
    · rw [hg] at hmem ⊢
      obtain rfl := List.mem_singleton.mp hmem
      simp
  unfold keyInput
  split
  · rename_i hnil
    rw [hnil] at hf
    cases hf
  · rw [htext]

theorem doneFrame_of_keyInput {ctx : SseCtx} {frame : Bytes} {text : Text}
    (h : keyInput ctx doneKey frame = .content text) (ht : text ≠ Text.empty) :
    DoneFrame ctx frame text := by
  have htext : textFor doneKey (extracted ctx frame) = text := by
    rw [← keyInput_text, h]
    rfl
  have hone := extracted_done ctx frame
  rw [textFor] at htext
  rcases eq_nil_or_singleton hone with hnil | ⟨f, hsingle⟩
  · rw [hnil] at htext
    exact absurd htext.symm ht
  · have hf : f ∈ (extracted ctx frame).filter fun f => f.key = doneKey := by
      rw [hsingle]
      exact List.mem_singleton_self f
    obtain ⟨hf, hkey⟩ := List.mem_filter.mp hf
    rw [hsingle] at htext
    refine ⟨⟨f, hf, of_decide_eq_true hkey, ?_⟩, ht⟩
    simpa using htext

theorem arrivals_done (ctx : SseCtx) (frames : List Bytes) :
    arrivals ctx doneKey frames = valuesOf ctx doneKey frames :=
  arrivals_eq fun frame _ => extracted_done ctx frame

/-- A terminal of the Responses API ends deltas and done texts alike. -/
private theorem terminal_iff (ctx : SseCtx) (eventType : Text) (frame : Bytes) :
    keyInput ctx (.responsesApiDelta eventType) frame = .terminal ↔
      keyInput ctx doneKey frame = .terminal := by
  unfold keyInput
  split
  · split
    · rename_i scope _
      cases scope <;> rfl
    · exact Iff.rfl
  · simp

/-! ### Where a done text comes out -/

/-- Restore was called for `earlier` before it was called for `text`, the text
of the done event behind `front`; the client reads `before` ahead of the result. -/
structure DoneAt (ctx : SseCtx) (st : RestoreState) (front : List Bytes) (text : Text)
    (earlier : List Cut) (before : List Emission) : Prop where
  called : ∃ restored, earlier ++ [⟨doneKey, text, restored⟩] <+: st.cuts ∧
    before ++ [.synthetic doneKey restored] <+: st.items
  nth : (earlier.filter fun cut => cut.key = doneKey).length =
    (valuesOf ctx doneKey front).length
  shown : before.filter Emission.isSynthetic = earlier.flatMap Cut.emission

/-- The text of a key among the segments of some cuts. -/
def segmentsOf (key : FieldKey) (cuts : List Cut) : Text :=
  Text.concat ((cuts.filter fun cut => cut.key = key).map Cut.segment)

/-- Each done text was restored as a whole and is shown once; in front of it the
deltas of `eventType` are shown that had arrived before it. -/
structure DoneKept (ctx : SseCtx) (eventType : Text) (frames : List Bytes) (st : RestoreState) :
    Prop where
  segments : (st.cutsFor doneKey).map Cut.segment = valuesOf ctx doneKey frames
  texts : (emittedTexts doneKey st.items).map Except.ok =
    (valuesOf ctx doneKey frames).map (ctx.crates.restoreText ctx.entries)
  behind : ∀ front frame back text, frames = front ++ frame :: back → DoneFrame ctx frame text →
    ∃ earlier before, DoneAt ctx st front text earlier before ∧
      (received ctx (.responsesApiDelta eventType) front).bytes <+:
        (segmentsOf (.responsesApiDelta eventType) earlier).bytes

/-- Where another done event comes next, enough text of `delta` has arrived since
`frame` for the window to let go what came in front of it. -/
def CaughtUp (ctx : SseCtx) (delta : FieldKey) (front : List Bytes) (frame : Bytes)
    (back : List Bytes) : Prop :=
  ∀ mid next rest text, back = mid ++ next :: rest →
    (∀ frame ∈ mid, (keyInput ctx doneKey frame).loud = false) → DoneFrame ctx next text →
      LetsGo ctx (sinceTerminal ctx delta front) (received ctx delta (frame :: (mid ++ [next])))

/-- The window hands on whole done texts, none of which restores to nothing,
and each of them behind the deltas that came before it. -/
structure DoneApart (ctx : SseCtx) (eventType : Text) (frames : List Bytes) : Prop where
  whole : Whole ctx Text.empty (frames.map (keyInput ctx doneKey))
  lasting : ∀ text ∈ valuesOf ctx doneKey frames,
    ctx.crates.restoreText ctx.entries text ≠ .ok Text.empty
  caughtUp : ∀ front frame back text, frames = front ++ frame :: back →
    DoneFrame ctx frame text → CaughtUp ctx (.responsesApiDelta eventType) front frame back

/-- The cut for a done text at a flush, and where it stands among all cuts. -/
private theorem exists_earlier {st₀ st₁ st : RestoreState}
    (hcuts : ∃ cuts, st₁.cuts = st₀.cuts ++ cuts ∧ Ordered cuts) (hpre : st₁.cuts <+: st.cuts)
    {cuts : List Cut} (hdone : st₁.cutsFor doneKey = st₀.cutsFor doneKey ++ cuts) {text : Text}
    (htext : cuts.map Cut.segment = [text]) (eventType : Text) :
    ∃ earlier cut, earlier ++ [cut] <+: st.cuts ∧ cut.key = doneKey ∧
      (earlier.filter fun c => c.key = doneKey) = st₀.cutsFor doneKey ∧
      segmentsOf (.responsesApiDelta eventType) earlier =
        st₁.handed (.responsesApiDelta eventType) := by
  obtain ⟨all, hall, hordered⟩ := hcuts
  obtain ⟨cut, rfl, -⟩ := List.map_eq_singleton_iff.mp htext
  have hfor (key : FieldKey) :
      st₁.cutsFor key = st₀.cutsFor key ++ all.filter fun c => c.key = key := by
    rw [RestoreState.cutsFor, hall, List.filter_append]
    rfl
  have hcut : (all.filter fun c => c.key = doneKey) = [cut] :=
    List.append_cancel_left ((hfor doneKey).symm.trans hdone)
  obtain ⟨front, ⟨back, rfl⟩, hnone, hdelta⟩ := hordered.split hcut (delta_lt_doneKey eventType)
  have hkey : cut.key = doneKey := by
    have hmem : cut ∈ (front ++ [cut] ++ back).filter fun c => c.key = doneKey := by
      rw [hcut]
      exact List.mem_singleton_self cut
    exact of_decide_eq_true (List.mem_filter.mp hmem).2
  refine ⟨st₀.cuts ++ front, cut, ?_, hkey, ?_, ?_⟩
  · refine List.IsPrefix.trans ⟨back, ?_⟩ hpre
    rw [hall]
    simp
  · rw [List.filter_append, hnone, List.append_nil]
    rfl
  · rw [segmentsOf, List.filter_append, hdelta, RestoreState.handed, hfor]
    rfl

private theorem first_loud_unique {α : Type} {loud : α → Bool} {xs ys us vs : List α} {a b : α}
    (h : xs ++ a :: us = ys ++ b :: vs) (hxs : ∀ x ∈ xs, loud x = false)
    (hys : ∀ y ∈ ys, loud y = false) (ha : loud a = true) (hb : loud b = true) :
    xs = ys ∧ a = b := by
  induction xs generalizing ys with
  | nil =>
      cases ys with
      | nil => exact ⟨rfl, (List.cons.inj h).1⟩
      | cons y ys =>
          obtain rfl : a = y := (List.cons.inj h).1
          rw [hys a (by simp)] at ha
          cases ha
  | cons x xs ih =>
      cases ys with
      | nil =>
          obtain rfl : x = b := (List.cons.inj h).1
          rw [hxs x (by simp)] at hb
          cases hb
      | cons y ys =>
          obtain ⟨rfl, htail⟩ := List.cons.inj h
          obtain ⟨hsame, hab⟩ := ih htail (fun z hz => hxs z (List.mem_cons_of_mem _ hz))
            fun z hz => hys z (List.mem_cons_of_mem _ hz)
          exact ⟨congrArg _ hsame, hab⟩

section Emergence

variable {ctx : SseCtx} {frames : List Bytes} {st : RestoreState}

/-- As long as done texts are handed on whole, those of any part of the stream
are its cuts and what waits. -/
private theorem runFrames_whole {front back : List Bytes}
    (hwhole : Whole ctx Text.empty ((front ++ back).map (keyInput ctx doneKey)))
    (h : runFrames ctx front RestoreState.init = .ok st) :
    arrivals ctx doneKey front =
        (st.cutsFor doneKey).map Cut.segment ++ waiting (st.accum doneKey) ∧
      Whole ctx (st.accum doneKey) (back.map (keyInput ctx doneKey)) := by
  obtain ⟨cuts, hrun, hcuts⟩ := runFrames_key h doneKey
  rw [List.map_append] at hwhole
  have hfront := run_whole (atRest_empty ctx.entries) hwhole hrun
  have hinit : RestoreState.init.cutsFor doneKey = [] := rfl
  rw [hcuts, hinit, List.nil_append]
  exact hfront

/-- The flush of a terminal leaves no delta behind. -/
private theorem handed_of_terminal {front : List Bytes} {frame : Bytes}
    (h : runFrames ctx (front ++ [frame]) RestoreState.init = .ok st)
    (hterminal : keyInput ctx doneKey frame = .terminal) (eventType : Text) :
    st.handed (.responsesApiDelta eventType) =
      received ctx (.responsesApiDelta eventType) (front ++ [frame]) := by
  obtain ⟨st₀, hfront, hstep⟩ := runFrames_unsnoc h
  obtain ⟨cuts, hkey, -⟩ := processOneFrame_key hstep (.responsesApiDelta eventType)
  rw [(terminal_iff ctx eventType frame).mpr hterminal] at hkey
  rw [← runFrames_conserves h, keyStep_terminal hkey, Text.append_empty]

/-- Up to the next done event nothing ends the stream's deltas. -/
private theorem not_terminal {frame next : Bytes} {text text' : Text}
    (hframe : DoneFrame ctx frame text) (mid : List Bytes)
    (hmid : ∀ g ∈ mid, (keyInput ctx doneKey g).loud = false) (hnext : DoneFrame ctx next text')
    (eventType : Text) :
    ∀ g ∈ frame :: (mid ++ [next]),
      keyInput ctx (.responsesApiDelta eventType) g ≠ .terminal := by
  intro g hg hterminal
  have hterminal := (terminal_iff ctx eventType g).mp hterminal
  simp only [List.mem_cons, List.mem_append, List.not_mem_nil, or_false] at hg
  rcases hg with rfl | hg | rfl
  · rw [keyInput_done hframe] at hterminal
    cases hterminal
  · have hquiet := hmid g hg
    rw [hterminal] at hquiet
    cases hquiet
  · rw [keyInput_done hnext] at hterminal
    cases hterminal

/-- The first frame behind that is a terminal or brings a done text. -/
private theorem next_unique {mid mid' rest rest' : List Bytes} {next next' : Bytes} {text : Text}
    (hsplit : mid ++ next :: rest = mid' ++ next' :: rest')
    (hmid : ∀ g ∈ mid, (keyInput ctx doneKey g).loud = false)
    (hmid' : ∀ g ∈ mid', (keyInput ctx doneKey g).loud = false)
    (hloud : (keyInput ctx doneKey next).loud = true) (hnext : DoneFrame ctx next' text) :
    mid = mid' ∧ next = next' := by
  apply first_loud_unique hsplit hmid hmid' hloud
  rw [keyInput_done hnext]
  exact decide_eq_true hnext.2

private theorem caughtUp_of_quiet {back : List Bytes}
    (hquiet : ∀ g ∈ back, (keyInput ctx doneKey g).loud = false) (delta : FieldKey)
    (front : List Bytes) (frame : Bytes) : CaughtUp ctx delta front frame back := by
  intro mid next rest text hsplit _ hnext
  have hloud := hquiet next (by simp [hsplit])
  rw [keyInput_done hnext, KeyInput.loud, decide_eq_false_iff_not] at hloud
  exact absurd hnext.2 hloud

private theorem caughtUp_of_terminal {mid : List Bytes} {next : Bytes}
    (hmid : ∀ g ∈ mid, (keyInput ctx doneKey g).loud = false)
    (hterminal : keyInput ctx doneKey next = .terminal) (delta : FieldKey)
    (front rest : List Bytes) (frame : Bytes) :
    CaughtUp ctx delta front frame (mid ++ next :: rest) := by
  intro mid' next' rest' text hsplit hmid' hnext'
  have hloud : (keyInput ctx doneKey next).loud = true := by
    rw [hterminal]
    rfl
  obtain ⟨-, rfl⟩ := next_unique hsplit hmid hmid' hloud hnext'
  rw [keyInput_done hnext'] at hterminal
  cases hterminal

private theorem caughtUp_iff {mid : List Bytes} {next : Bytes} {text : Text}
    (hmid : ∀ g ∈ mid, (keyInput ctx doneKey g).loud = false) (hnext : DoneFrame ctx next text)
    (delta : FieldKey) (front rest : List Bytes) (frame : Bytes) :
    CaughtUp ctx delta front frame (mid ++ next :: rest) ↔
      LetsGo ctx (sinceTerminal ctx delta front)
        (received ctx delta (frame :: (mid ++ [next]))) := by
  constructor
  · intro hcaught
    exact hcaught mid next rest text rfl hmid hnext
  · intro hle mid' next' rest' text' hsplit hmid' hnext'
    have hloud : (keyInput ctx doneKey next).loud = true := by
      rw [keyInput_done hnext]
      exact decide_eq_true hnext.2
    obtain ⟨rfl, rfl⟩ := next_unique hsplit hmid hmid' hloud hnext'
    exact hle

/-- Behind quiet frames the same text waits. -/
private theorem still_waits {mid : List Bytes} {st₁ st₂ : RestoreState}
    (hrest : AtRest ctx.entries (st₁.accum doneKey))
    (hmid : ∀ g ∈ mid, (keyInput ctx doneKey g).loud = false)
    (hrun : runFrames ctx mid st₁ = .ok st₂) :
    st₂.accum doneKey = st₁.accum doneKey ∧ st₂.cutsFor doneKey = st₁.cutsFor doneKey := by
  obtain ⟨cuts, hkey, hcuts⟩ := runFrames_key hrun doneKey
  rw [run_quiet hrest (by simpa using hmid)] at hkey
  obtain ⟨haccum, rfl⟩ := Prod.mk.inj (Except.ok.inj hkey)
  exact ⟨haccum.symm, hcuts.trans (List.append_nil _)⟩

/-- A terminal or the next done text pushes the one that waits out as a whole. -/
private theorem waiting_cut {next : Bytes} {back : List KeyInput} {text : Text}
    {st₂ st₃ : RestoreState} (ht : text ≠ Text.empty) (hwaits : st₂.accum doneKey = text)
    (hwhole : Whole ctx text (keyInput ctx doneKey next :: back))
    (hloud : (keyInput ctx doneKey next).loud = true)
    (hnext : processOneFrame ctx next st₂ = .ok st₃) :
    ∃ cuts, st₃.cutsFor doneKey = st₂.cutsFor doneKey ++ cuts ∧ cuts.map Cut.segment = [text] := by
  obtain ⟨cuts, hstep, hcuts⟩ := processOneFrame_key hnext doneKey
  have hwait : waiting text = [text] := if_neg ht
  refine ⟨cuts, hcuts, ?_⟩
  rw [hwaits] at hstep
  cases hinput : keyInput ctx doneKey next with
  | terminal =>
      rw [hinput] at hstep
      exact (terminal_cases hstep).2.trans hwait
  | content text' =>
      rw [hinput] at hstep hwhole hloud
      rcases whole_content (of_decide_eq_true hloud) hwhole hstep with
        ⟨hempty, -⟩ | ⟨-, htext, -⟩
      · exact absurd hempty ht
      · exact htext.trans hwait
  | other =>
      rw [hinput] at hloud
      cases hloud

/-- There is a cut for a done text behind those for `emitted`, and the deltas of
`front` are cut off before it exactly when they are caught up. -/
private def Emerges (ctx : SseCtx) (st : RestoreState) (eventType : Text) (emitted : List Cut)
    (front : List Bytes) (frame : Bytes) (back : List Bytes) : Prop :=
  ∃ earlier cut, earlier ++ [cut] <+: st.cuts ∧ cut.key = doneKey ∧
    (earlier.filter fun c => c.key = doneKey) = emitted ∧
    ((received ctx (.responsesApiDelta eventType) front).bytes <+:
        (segmentsOf (.responsesApiDelta eventType) earlier).bytes ↔
      CaughtUp ctx (.responsesApiDelta eventType) front frame back)

/-- Without a fake to wait for, the text comes off with the frame that brings it. -/
private theorem emerges_now {front back : List Bytes} {frame : Bytes} {text : Text}
    (hzero : maxFakeLen ctx.entries = 0) (hdone : DoneFrame ctx frame text)
    {st₀ st₁ : RestoreState} (hfront : runFrames ctx front RestoreState.init = .ok st₀)
    (hframe : processOneFrame ctx frame st₀ = .ok st₁) (hlater : st₁.cuts <+: st.cuts)
    {cuts : List Cut} (hcuts : st₁.cutsFor doneKey = st₀.cutsFor doneKey ++ cuts)
    (htext : cuts.map Cut.segment = [text]) (eventType : Text) :
    Emerges ctx st eventType (st₀.cutsFor doneKey) front frame back := by
  obtain ⟨earlier, cut, hpre, hkey, hfilter, hdelta⟩ := exists_earlier
    (processOneFrame_ordered hframe) hlater hcuts htext eventType
  refine ⟨earlier, cut, hpre, hkey, hfilter, ?_⟩
  have hterminal :
      ∀ g ∈ [frame], keyInput ctx (.responsesApiDelta eventType) g ≠ .terminal := by
    intro g hg
    exact not_terminal hdone [] (by simp) hdone eventType g
      (List.mem_cons.mpr (Or.inl (List.mem_singleton.mp hg)))
  apply iff_of_true
  · rw [hdelta, handed_iff (runFrames_snoc hfront hframe) hterminal]
    exact letsGo_of_no_fake hzero _ _
  · intro mid next rest text' _ _ _
    exact letsGo_of_no_fake hzero _ _

/-- A done text that waits comes off at the end, if nothing comes before that. -/
private theorem emerges_last {front back : List Bytes} {frame : Bytes} {text : Text}
    (ht : text ≠ Text.empty)
    (hquiet : ∀ g ∈ back, (keyInput ctx doneKey g).loud = false) {st₁ st₂ : RestoreState}
    (hsnoc : runFrames ctx (front ++ [frame]) RestoreState.init = .ok st₁)
    (hwaits : st₁.accum doneKey = text) (hback : runFrames ctx back st₁ = .ok st₂)
    (hflush : flushAllAccumulators ctx st₂ = .ok st) (eventType : Text) :
    Emerges ctx st eventType (st₁.cutsFor doneKey) front frame back := by
  have hrun := runFrames_append hsnoc hback
  have hend := Finished.handed_eq ⟨st₂, hrun, hflush⟩ (.responsesApiDelta eventType)
  obtain ⟨haccum, hcuts⟩ := still_waits (runFrames_atRest hsnoc doneKey) hquiet hback
  obtain ⟨cuts, hstep, hcuts'⟩ := flushAllAccumulators_key hflush doneKey
  obtain ⟨-, htext⟩ := terminal_cases hstep
  rw [haccum, hwaits, waiting, if_neg ht] at htext
  obtain ⟨earlier, cut, hpre, hkey, hfilter, hdelta⟩ := exists_earlier
    (flushAllAccumulators_ordered hflush) List.prefix_rfl hcuts' htext eventType
  refine ⟨earlier, cut, hpre, hkey, hfilter.trans hcuts, ?_⟩
  apply iff_of_true
  · rw [hdelta, hend, List.append_assoc]
    exact received_grows ctx _ front ([frame] ++ back)
  · exact caughtUp_of_quiet hquiet _ front frame

/-- A done text that waits comes off with the terminal or done event that comes
next. -/
private theorem emerges_next {front mid rest : List Bytes} {frame next : Bytes} {text : Text}
    (hwhole : Whole ctx Text.empty
      ((front ++ [frame] ++ (mid ++ next :: rest)).map (keyInput ctx doneKey)))
    (hdone : DoneFrame ctx frame text)
    (hmid : ∀ g ∈ mid, (keyInput ctx doneKey g).loud = false)
    (hloud : (keyInput ctx doneKey next).loud = true) {st₁ st₂ st₃ : RestoreState}
    (hsnoc : runFrames ctx (front ++ [frame]) RestoreState.init = .ok st₁)
    (hwaits : st₁.accum doneKey = text) (hrun : runFrames ctx mid st₁ = .ok st₂)
    (hnext : processOneFrame ctx next st₂ = .ok st₃) (hlater : st₃.cuts <+: st.cuts)
    (eventType : Text) :
    Emerges ctx st eventType (st₁.cutsFor doneKey) front frame (mid ++ next :: rest) := by
  have hmiddle := runFrames_append hsnoc hrun
  have hthrough : runFrames ctx (front ++ frame :: (mid ++ [next])) RestoreState.init =
      .ok st₃ := by
    have hlong := runFrames_snoc hmiddle hnext
    rwa [List.append_assoc, List.append_assoc] at hlong
  obtain ⟨haccum, hcuts⟩ := still_waits (runFrames_atRest hsnoc doneKey) hmid hrun
  rw [← List.append_assoc] at hwhole
  have hwhole₂ := (runFrames_whole hwhole hmiddle).2
  rw [haccum, hwaits] at hwhole₂
  obtain ⟨cuts, hcuts', htext⟩ := waiting_cut hdone.2 (haccum.trans hwaits) hwhole₂ hloud hnext
  obtain ⟨earlier, cut, hpre, hkey, hfilter, hdelta⟩ :=
    exists_earlier (processOneFrame_ordered hnext) hlater hcuts' htext eventType
  refine ⟨earlier, cut, hpre, hkey, hfilter.trans hcuts, ?_⟩
  cases hinput : keyInput ctx doneKey next with
  | terminal =>
      have hhanded := handed_of_terminal (runFrames_snoc hmiddle hnext) hinput eventType
      apply iff_of_true
      · rw [hdelta, hhanded, List.append_assoc, List.append_assoc]
        exact received_grows ctx _ front _
      · exact caughtUp_of_terminal hmid hinput _ front rest frame
  | content text' =>
      rw [hinput] at hloud
      have hnextDone := doneFrame_of_keyInput hinput (of_decide_eq_true hloud)
      rw [caughtUp_iff hmid hnextDone, hdelta]
      exact handed_iff hthrough (not_terminal hdone mid hmid hnextDone eventType)
  | other =>
      rw [hinput] at hloud
      cases hloud

/-- As long as done texts are handed on whole, each comes out by itself, behind
the done texts of the frames before it. -/
private theorem done_emerges (h : Finished ctx frames st)
    (hwhole : Whole ctx Text.empty (frames.map (keyInput ctx doneKey))) (eventType : Text)
    {front back : List Bytes} {frame : Bytes} {text : Text}
    (hframes : frames = front ++ frame :: back) (hdone : DoneFrame ctx frame text) :
    ∃ emitted : List Cut, emitted.map Cut.segment = arrivals ctx doneKey front ∧
      Emerges ctx st eventType emitted front frame back := by
  subst hframes
  obtain ⟨st₃, hrun, hflush⟩ := h
  obtain ⟨st₀, hfront, hrest⟩ := runFrames_split hrun
  obtain ⟨st₁, hframe, hback⟩ := runFrames_cons hrest
  have hsnoc : runFrames ctx (front ++ [frame]) RestoreState.init = .ok st₁ :=
    runFrames_snoc hfront hframe
  have hend : st₃.cuts <+: st.cuts := by
    obtain ⟨all, hall, -⟩ := flushAllAccumulators_ordered hflush
    rw [hall]
    exact List.prefix_append _ _
  obtain ⟨harrivals, hwhole₀⟩ := runFrames_whole hwhole hfront
  obtain ⟨cuts, hstep, hcuts⟩ := processOneFrame_key hframe doneKey
  rw [keyInput_done hdone] at hstep
  rw [List.map_cons, keyInput_done hdone] at hwhole₀
  rcases whole_content hdone.2 hwhole₀ hstep with ⟨hempty, -, htext, hzero, -⟩ |
    ⟨hwaits, htext, -⟩
  · refine ⟨st₀.cutsFor doneKey, ?_, ?_⟩
    · rw [harrivals, hempty, waiting, if_pos rfl, List.append_nil]
    · exact emerges_now hzero hdone hfront hframe ((runFrames_appends hback).2.trans hend) hcuts
        htext eventType
  · refine ⟨st₁.cutsFor doneKey, ?_, ?_⟩
    · rw [hcuts, List.map_append, htext, harrivals]
    cases hfind : back.find? fun g => (keyInput ctx doneKey g).loud with
    | none =>
        have hquiet : ∀ g ∈ back, (keyInput ctx doneKey g).loud = false := by
          intro g hg
          simpa using List.find?_eq_none.mp hfind g hg
        exact emerges_last hdone.2 hquiet hsnoc hwaits hback hflush eventType
    | some next =>
        obtain ⟨hloud, mid, rest, rfl, hmid⟩ := List.find?_eq_some_iff_append.mp hfind
        have hmid : ∀ g ∈ mid, (keyInput ctx doneKey g).loud = false := by simpa using hmid
        obtain ⟨st₂, hrun₂, hlater⟩ := runFrames_split hback
        obtain ⟨st₂', hnext, hlast⟩ := runFrames_cons hlater
        rw [← List.singleton_append, ← List.append_assoc] at hwhole
        exact emerges_next hwhole hdone hmid hloud hsnoc hwaits hrun₂ hnext
          ((runFrames_appends hlast).2.trans hend) eventType

private theorem arrivals_split {front back : List Bytes} {frame : Bytes} {text : Text}
    (hdone : DoneFrame ctx frame text) :
    arrivals ctx doneKey (front ++ frame :: back) =
      arrivals ctx doneKey front ++ text :: arrivals ctx doneKey back := by
  have hloud : (KeyInput.content text).loudText = some text := if_neg hdone.2
  rw [arrivals, List.map_append, List.map_cons, keyInput_done hdone, loudTexts,
    List.filterMap_append, List.filterMap_cons, hloud]
  rfl

/-- Done events are answered as they should be exactly when the window keeps
their texts apart and lets the deltas before them go in time. -/
theorem doneKept_iff (hr : RestoresText ctx.crates ctx.entries) (eventType : Text)
    (frames : List Bytes) :
    ∃ st, Finished ctx frames st ∧
      (DoneKept ctx eventType frames st ↔ DoneApart ctx eventType frames) := by
  obtain ⟨st, h⟩ := hr.finished frames
  refine ⟨st, h, ?_⟩
  have hkey := h.keyWhole_iff doneKey
  rw [arrivals_done] at hkey
  constructor
  · rintro ⟨hsegments, htexts, hbehind⟩
    rw [← arrivals_done] at hsegments htexts
    obtain ⟨hwhole, hlasting⟩ := hkey.mp ⟨hsegments, htexts⟩
    refine ⟨hwhole, hlasting, fun front frame back text hframes hdone => ?_⟩
    obtain ⟨emitted, hemitted, earlier, cut, hpre, hcut, hfilter, hiff⟩ :=
      done_emerges h hwhole eventType hframes hdone
    obtain ⟨earlier', before, ⟨⟨restored, hcalled, -⟩, hnth', -⟩, hreceived⟩ :=
      hbehind front frame back text hframes hdone
    have hnth := congrArg List.length hemitted
    rw [List.length_map, arrivals_done, ← hfilter] at hnth
    obtain rfl := earlier_unique hcalled hpre rfl hcut (hnth'.trans hnth.symm)
    exact hiff.mp hreceived
  · rintro ⟨hwhole, hlasting, hcaught⟩
    obtain ⟨hsegments, htexts⟩ := hkey.mpr ⟨hwhole, hlasting⟩
    refine ⟨by rwa [← arrivals_done], by rwa [← arrivals_done], ?_⟩
    intro front frame back text hframes hdone
    obtain ⟨emitted, hemitted, earlier, ⟨key, segment, restored⟩, hpre, rfl, rfl, hiff⟩ :=
      done_emerges h hwhole eventType hframes hdone
    obtain ⟨later, hlater⟩ := id hpre
    obtain rfl : segment = text := by
      have hself : ([⟨doneKey, segment, restored⟩].filter fun c : Cut => c.key = doneKey) =
          [⟨doneKey, segment, restored⟩] := by simp
      rw [hframes, arrivals_split hdone, RestoreState.cutsFor, ← hlater, List.filter_append,
        List.filter_append, hself, List.map_append, List.map_append, List.append_assoc] at hsegments
      rw [hemitted] at hsegments
      exact (List.cons.inj (List.append_cancel_left hsegments)).1
    have hsound : Cut.Sound ctx ⟨doneKey, segment, restored⟩ := by
      apply h.sound
      rw [← hlater]
      simp
    have hne : restored ≠ Text.empty := by
      rintro rfl
      apply hlasting segment _ hsound.2
      rw [← arrivals_done, hframes, arrivals_split hdone]
      simp
    obtain ⟨before, hbefore, hshown⟩ := h.items_at hpre hne
    have hnth := congrArg List.length hemitted
    rw [List.length_map, arrivals_done] at hnth
    exact ⟨earlier, before, ⟨⟨restored, hpre, hbefore⟩, hnth, hshown⟩,
      hiff.mpr (hcaught front frame back segment hframes hdone)⟩

end Emergence

/-! ### A short response -/

def outputDelta (text : Text) : Json := .ofMembers [("delta", .string text)]

def outputDone (text : Text) : Json := .ofMembers [("text", .string text)]

def responseValues : List Json :=
  [outputDelta "sk-4fs", outputDone "sk-4fs", outputDone "abcdefgh"]

def responseCtx : SseCtx := sampleCtx .openAi responseValues

def responseDelta (text : Text) : Bytes :=
  sampleEvent "response.output_text.delta" (outputDelta text)

def responseDone (text : Text) : Bytes :=
  sampleEvent "response.output_text.done" (outputDone text)

private theorem responseCtx_restoresText : RestoresText responseCtx.crates responseCtx.entries :=
  sampleCtx_restoresText _ _

private theorem extracted_responseDelta {text : Text} (hv : outputDelta text ∈ responseValues) :
    extracted responseCtx (responseDelta text) =
      [⟨.responsesApiDelta "response.output_text.delta", text⟩] :=
  sampleEvent_extracted (by decide) (by decide) hv

private theorem extracted_responseDone {text : Text} (hv : outputDone text ∈ responseValues) :
    extracted responseCtx (responseDone text) = [⟨doneKey, text⟩] :=
  sampleEvent_extracted (by decide) (by decide) hv

private theorem doneFrame_responseDone {text : Text} (ht : text ≠ Text.empty)
    (hv : outputDone text ∈ responseValues) : DoneFrame responseCtx (responseDone text) text := by
  refine ⟨⟨⟨doneKey, text⟩, ?_, rfl, rfl⟩, ht⟩
  rw [extracted_responseDone hv]
  exact List.mem_singleton_self _

private theorem keyInput_responseDelta :
    keyInput responseCtx doneKey (responseDelta "sk-4fs") = .content Text.empty := by
  rw [keyInput, extracted_responseDelta (by simp [responseValues])]
  rfl

/-- A delta and the done event behind it, which comes out at the end. -/
theorem doneKept_response :
    ∃ st, Finished responseCtx [responseDelta "sk-4fs", responseDone "sk-4fs"] st ∧
      DoneKept responseCtx "response.output_text.delta"
        [responseDelta "sk-4fs", responseDone "sk-4fs"] st := by
  obtain ⟨st, hst, hiff⟩ := doneKept_iff responseCtx_restoresText "response.output_text.delta"
    [responseDelta "sk-4fs", responseDone "sk-4fs"]
  have hdone : DoneFrame responseCtx (responseDone "sk-4fs") "sk-4fs" :=
    doneFrame_responseDone (by decide) (by simp [responseValues])
  refine ⟨st, hst, hiff.mpr ⟨?_, ?_, ?_⟩⟩
  · rw [List.map_cons, List.map_singleton, keyInput_responseDelta, keyInput_done hdone]
    exact Or.inr ⟨cutBetween_of_le (by decide), trivial⟩
  · intro text htext
    rw [valuesOf, List.flatMap_cons, List.flatMap_singleton,
      extracted_responseDelta (by simp [responseValues]),
      extracted_responseDone (by simp [responseValues])] at htext
    obtain rfl : text = "sk-4fs" := List.mem_singleton.mp htext
    decide +kernel
  · -- a done event with another one behind it would be the delta
    rintro front frame back text hsplit hframe mid next rest text' rfl - hnext
    cases front with
    | nil =>
        rw [← (List.cons.inj hsplit).1] at hframe
        have hinput := keyInput_done hframe
        rw [keyInput_responseDelta] at hinput
        exact absurd (KeyInput.content.inj hinput).symm hframe.2
    | cons x xs =>
        have hlen := congrArg List.length hsplit
        simp only [List.length_append, List.length_cons, List.length_nil] at hlen
        omega

/-- A long done text comes out in two parts. -/
theorem done_split : ∃ st, Finished responseCtx [responseDone "abcdefgh"] st ∧
    emittedTexts doneKey st.items = ["ab", "cdefgh"] ∧
    ¬ DoneKept responseCtx "response.output_text.delta" [responseDone "abcdefgh"] st := by
  obtain ⟨st, hst⟩ := responseCtx_restoresText.finished [responseDone "abcdefgh"]
  have hdone : DoneFrame responseCtx (responseDone "abcdefgh") "abcdefgh" :=
    doneFrame_responseDone (by decide) (by simp [responseValues])
  have hcuts : st.cutsFor doneKey = [⟨doneKey, "ab", "ab"⟩, ⟨doneKey, "cdefgh", "cdefgh"⟩] := by
    have hinputs : [responseDone "abcdefgh"].map (keyInput responseCtx doneKey) =
        [.content "abcdefgh"] := by
      rw [List.map_singleton, keyInput_done hdone]
    apply hst.cutsFor_of_run hinputs
    decide +kernel
  refine ⟨st, hst, ?_, ?_⟩
  · rw [hst.emittedTexts_items, hcuts]
    decide
  · rintro ⟨hsegments, -, -⟩
    have hlen := congrArg List.length hsegments
    rw [hcuts, valuesOf, List.flatMap_singleton, extracted_responseDone (by simp [responseValues])]
      at hlen
    exact absurd hlen (by decide)

end LlmCacheProxy.Sse
