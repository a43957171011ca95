import LlmCacheProxy.Sse.Output
import LlmCacheProxy.Sse.Readback

/-!
# Keys do not interfere

Every content frame flushes every accumulator again. An accumulator that got
nothing new is at rest, so this changes nothing: what a key emits, segment by
segment, depends on its own content and terminals only.
-/

namespace LlmCacheProxy.Sse

/-- What a frame means for a key, if anything: text that was extracted for it,
or a terminal whose scope contains it. -/
def keyRelevant (ctx : SseCtx) (key : FieldKey) (frame : Bytes) : Option KeyInput :=
  if (extracted ctx frame).any fun f => f.key = key then
    some (.content (textFor key (extracted ctx frame)))
  else
    match terminalScope ctx frame with
    | some scope => if scope.contains key then some .terminal else none
    | none => none

/-- Inputs that can change a window at rest. -/
def KeyInput.loud : KeyInput → Bool
  | .content text => text ≠ Text.empty
  | .terminal => true
  | .other => false

theorem textFor_eq_empty {key : FieldKey} {fields : List ExtractedField}
    (h : (fields.any fun f => f.key = key) = false) : textFor key fields = Text.empty := by
  have hnil : (fields.filter fun f => f.key = key) = [] := by
    rw [List.filter_eq_nil_iff]
    simpa using h
  rw [textFor, hnil]
  rfl

/-- The loud inputs of a frame are those that are relevant to the key. -/
private theorem loud_keyInput (ctx : SseCtx) (key : FieldKey) (frame : Bytes) :
    [keyInput ctx key frame].filter KeyInput.loud =
      (keyRelevant ctx key frame).toList.filter KeyInput.loud := by
  unfold keyInput keyRelevant
  cases hext : extracted ctx frame with
  | nil =>
      cases terminalScope ctx frame with
      | none => rfl
      | some scope =>
          cases hc : scope.contains key with
          | true => simp [hc]
          | false => simp [KeyInput.loud, hc]
  | cons field fields =>
      have hscope : terminalScope ctx frame = none := by
        unfold extracted at hext
        unfold terminalScope
        split at hext
        · rename_i json hjson
          obtain ⟨dataStr, hdata, hparse⟩ := Option.bind_eq_some_iff.mp hjson
          simp only [hdata, hparse, hext]
        · cases hext
      rw [hscope]
      cases hany : ((field :: fields).any fun f => f.key = key) with
      | true => rfl
      | false => simp [textFor_eq_empty hany, KeyInput.loud]

private theorem loud_inputs (ctx : SseCtx) (key : FieldKey) (frames : List Bytes) :
    (frames.map (keyInput ctx key)).filter KeyInput.loud =
      (frames.filterMap (keyRelevant ctx key)).filter KeyInput.loud := by
  induction frames with
  | nil => rfl
  | cons frame frames ih =>
      have hhead := loud_keyInput ctx key frame
      calc
        ((frame :: frames).map (keyInput ctx key)).filter KeyInput.loud =
            [keyInput ctx key frame].filter KeyInput.loud ++
              (frames.map (keyInput ctx key)).filter KeyInput.loud := by
          rw [List.map_cons, ← List.singleton_append, List.filter_append]
        _ = (keyRelevant ctx key frame).toList.filter KeyInput.loud ++
              (frames.filterMap (keyRelevant ctx key)).filter KeyInput.loud := by rw [hhead, ih]
        _ = ((frame :: frames).filterMap (keyRelevant ctx key)).filter KeyInput.loud := by
          rw [List.filterMap_cons, ← List.filter_append]
          cases keyRelevant ctx key frame <;> rfl

/-- Each input leaves the window at rest. -/
theorem keyStep_atRest {ctx : SseCtx} {key : FieldKey} {input : KeyInput} {accum rest : Text}
    {cuts : List Cut} (hrest : AtRest ctx.entries accum)
    (h : keyStep ctx key input accum = .ok (rest, cuts)) : AtRest ctx.entries rest := by
  cases input with
  | content text => exact atRest_of_flush h
  | terminal =>
      rw [keyStep_terminal h]
      exact atRest_empty ctx.entries
  | other =>
      obtain ⟨rfl, -⟩ := by simpa [keyStep] using h
      exact hrest

/-- At rest the other inputs do nothing. -/
theorem keyStep_quiet {ctx : SseCtx} {key : FieldKey} {input : KeyInput} {accum : Text}
    (hrest : AtRest ctx.entries accum) (hquiet : input.loud = false) :
    keyStep ctx key input accum = .ok (accum, []) := by
  cases input with
  | content text =>
      obtain rfl : text = Text.empty := by simpa [KeyInput.loud] using hquiet
      simp only [keyStep, Text.append_empty]
      exact flushSafePrefix_of_atRest hrest ctx.crates key
  | terminal => cases hquiet
  | other => rfl

/-- A key's window depends on the relevant frames only. -/
theorem run_relevant (ctx : SseCtx) (key : FieldKey) (frames : List Bytes) :
    Transducer.run (keyStep ctx key) (frames.map (keyInput ctx key)) Text.empty =
      Transducer.run (keyStep ctx key)
        ((frames.filterMap (keyRelevant ctx key)).filter KeyInput.loud) Text.empty := by
  rw [← loud_inputs]
  exact (Transducer.run_filter (fun _ _ _ _ => keyStep_atRest) (fun _ _ => keyStep_quiet) _
    (atRest_empty ctx.entries)).symm

/-- Two runs with the same frames relevant to a key emit the same restored
texts for it, one by one. -/
theorem emittedTexts_noninterference {ctx : SseCtx} {key : FieldKey} {frames₁ frames₂ : List Bytes}
    (hrel : frames₁.filterMap (keyRelevant ctx key) = frames₂.filterMap (keyRelevant ctx key))
    {st₁ st₂ : RestoreState} (h₁ : runFrames ctx frames₁ RestoreState.init = .ok st₁)
    (h₂ : runFrames ctx frames₂ RestoreState.init = .ok st₂) :
    emittedTexts key st₁.outputQueue = emittedTexts key st₂.outputQueue ∧
      st₁.accum key = st₂.accum key := by
  obtain ⟨cuts₁, hrun₁, hcuts₁⟩ := runFrames_key h₁ key
  obtain ⟨cuts₂, hrun₂, hcuts₂⟩ := runFrames_key h₂ key
  have hempty : RestoreState.init.accum key = Text.empty := rfl
  rw [hempty, run_relevant, hrel] at hrun₁
  rw [hempty, run_relevant] at hrun₂
  obtain ⟨haccum, rfl⟩ : st₁.accum key = st₂.accum key ∧ cuts₁ = cuts₂ := by
    simpa using hrun₁.symm.trans hrun₂
  rw [(runFrames_outputInOrder h₁).emitted, (runFrames_outputInOrder h₂).emitted, hcuts₁, hcuts₂]
  exact ⟨rfl, haccum⟩

/-- Whatever is interleaved for other keys, both runs complete and emit the same
restored texts for this one. -/
theorem runFrames_noninterference {ctx : SseCtx} (hr : RestoresText ctx.crates ctx.entries)
    (key : FieldKey) (frames₁ frames₂ : List Bytes)
    (hrel : frames₁.filterMap (keyRelevant ctx key) = frames₂.filterMap (keyRelevant ctx key)) :
    ∃ st₁ st₂, runFrames ctx frames₁ RestoreState.init = .ok st₁ ∧
      runFrames ctx frames₂ RestoreState.init = .ok st₂ ∧
      emittedTexts key st₁.outputQueue = emittedTexts key st₂.outputQueue := by
  obtain ⟨st₁, h₁⟩ := hr.runFrames frames₁ RestoreState.init
  obtain ⟨st₂, h₂⟩ := hr.runFrames frames₂ RestoreState.init
  exact ⟨st₁, st₂, h₁, h₂, (emittedTexts_noninterference hrel h₁ h₂).1⟩

/-! ### A refusal between the pieces of a fake -/

def contentEvent (text : Text) : Json := chatDelta (.ofMembers [("content", .string text)])

def refusalEvent (text : Text) : Json := chatDelta (.ofMembers [("refusal", .string text)])

/-- The events of a chat in which the model also refuses something. -/
def refusalEvents : List Json :=
  [contentEvent "see sk-4", contentEvent "fs", refusalEvent "no sk-4fs!"]

/-- The content with and without a refusal, which has a fake of its own, and a
ping in between. -/
theorem runFrames_noninterference_refusal :
    ∃ st₁ st₂,
      runFrames (sampleCtx .openAi refusalEvents)
        [sampleFrame (contentEvent "see sk-4"), sampleFrame (refusalEvent "no sk-4fs!"),
          lit ": ping\n\n", sampleFrame (contentEvent "fs"), chatDone] RestoreState.init =
            .ok st₁ ∧
      runFrames (sampleCtx .openAi refusalEvents)
        [sampleFrame (contentEvent "see sk-4"), sampleFrame (contentEvent "fs"), chatDone]
          RestoreState.init = .ok st₂ ∧
      emittedTexts .openAiContent st₁.outputQueue =
        emittedTexts .openAiContent st₂.outputQueue :=
  runFrames_noninterference (sampleCtx_restoresText _ _) .openAiContent
    [sampleFrame (contentEvent "see sk-4"), sampleFrame (refusalEvent "no sk-4fs!"),
      lit ": ping\n\n", sampleFrame (contentEvent "fs"), chatDone]
    [sampleFrame (contentEvent "see sk-4"), sampleFrame (contentEvent "fs"), chatDone]
    (by decide)

end LlmCacheProxy.Sse
