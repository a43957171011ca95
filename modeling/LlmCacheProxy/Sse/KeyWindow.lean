import LlmCacheProxy.Foundation.Transducer
import LlmCacheProxy.Sse.Frame
import LlmCacheProxy.Sse.Restore

/-!
# The window of one key

Seen from one key, a frame is content, a terminal or nothing. The window of the
key is a transducer over these inputs, and every run of frames projects onto a
run of it: keys do not see each other.
-/

namespace LlmCacheProxy.Sse

/-! ### What one frame does -/

private theorem map_eq_ok {ε α β : Type} {f : α → β} {x : Except ε α} {b : β}
    (h : x.map f = .ok b) : ∃ a, x = .ok a ∧ f a = b := by
  cases x with
  | error e => cases h
  | ok a => exact ⟨a, rfl, Except.ok.inj h⟩

private theorem map_eq_error {ε α β : Type} {f : α → β} {x : Except ε α} {e : ε}
    (h : x.map f = .error e) : x = .error e := by
  cases x with
  | error e' => exact congrArg Except.error (Except.error.inj h)
  | ok a => cases h

/-- The complete flush of one accumulator, if it is in scope and not empty. -/
def scopeFlush (ctx : SseCtx) (scope : TerminalScope) (key : FieldKey) (accum : Text) :
    Except Fault (Text × List Cut) :=
  if accum = Text.empty ∨ scope.contains key = false then .ok (accum, [])
  else flushSafePrefix ctx.crates ctx.entries 0 key accum

/-- The flush of one accumulator after a content frame. -/
def windowFlush (ctx : SseCtx) (key : FieldKey) (accum : Text) : Except Fault (Text × List Cut) :=
  flushSafePrefix ctx.crates ctx.entries (maxFakeLen ctx.entries) key accum

theorem scopeFlush_stream (ctx : SseCtx) (st : RestoreState) :
    flushAllAccumulators ctx st =
      (st.accumulators.visit (scopeFlush ctx .stream)).map st.flushed := by
  rfl

/-- Only Gemini has deferred frames to drain before a terminal. -/
def beforeTerminal (ctx : SseCtx) (st : RestoreState) : RestoreState :=
  if ctx.provider = .gemini then st.drainDeferred else st

private theorem classifyTerminal_block {json : Json} {et : Option Bytes} {p : Provider}
    {n : UInt64} (h : classifyTerminal json et p = some (.block n)) : p ≠ .gemini := by
  rintro rfl
  simp only [classifyTerminal] at h
  split at h <;> simp at h

/-- A frame is passed through, is a terminal behind a flush of its scope, or is
content behind which every accumulator is flushed under the hold window. -/
theorem processOneFrame_cases {ctx : SseCtx} {frame : Bytes} {st st' : RestoreState}
    (h : processOneFrame ctx frame st = .ok st') :
    (extracted ctx frame = [] ∧ terminalScope ctx frame = none ∧
      st' = st.push (.passthrough frame)) ∨
    (∃ scope r, extracted ctx frame = [] ∧ terminalScope ctx frame = some scope ∧
      st.accumulators.visit (scopeFlush ctx scope) = .ok r ∧
      st' = (beforeTerminal ctx (st.flushed r)).push (.passthrough frame)) ∨
    (∃ r, extracted ctx frame ≠ [] ∧ terminalScope ctx frame = none ∧
      (accumulate (extracted ctx frame) st.accumulators).visit (windowFlush ctx) = .ok r ∧
      st' = RestoreState.flushed
        { st with deferredPassthrough := st.deferredPassthrough ++ deferredFor ctx frame } r) := by
  unfold processOneFrame at h
  split at h
  · rename_i hdata
    exact Or.inl ⟨by simp [extracted, hdata], by simp [terminalScope, hdata], by simpa using h.symm⟩
  rename_i dataStr hdata
  split at h
  · rename_i hparse
    have hext : extracted ctx frame = [] := by simp [extracted, hdata, hparse]
    split at h
    · rename_i hdone
      rw [scopeFlush_stream] at h
      obtain ⟨st₁, h₁, rfl⟩ := map_eq_ok h
      obtain ⟨r, hr, rfl⟩ := map_eq_ok h₁
      refine Or.inr (Or.inl ⟨.stream, r, hext, ?_, hr, ?_⟩)
      · simp only [terminalScope, hdata, hparse]
        exact if_pos hdone
      · have hp : ctx.provider ≠ .gemini := by
          rcases hdone.2 with hp | hp <;> simp [hp]
        rw [beforeTerminal, if_neg hp]
    · rename_i hdone
      refine Or.inl ⟨hext, ?_, by simpa using h.symm⟩
      simp only [terminalScope, hdata, hparse]
      exact if_neg hdone
  rename_i json hparse
  have hext : extracted ctx frame = extractFields json ctx.provider (eventType frame) := by
    simp [extracted, hdata, hparse]
  split at h
  · rename_i hfields
    have hscope : terminalScope ctx frame =
        classifyTerminal json (eventType frame) ctx.provider := by
      simp only [terminalScope, hdata, hparse, hfields]
    split at h
    · rename_i n hblock
      obtain ⟨st₁, h₁, rfl⟩ := map_eq_ok h
      obtain ⟨r, hr, rfl⟩ := map_eq_ok h₁
      refine Or.inr (Or.inl ⟨.block n, r, hext.trans hfields, hscope.trans hblock, hr, ?_⟩)
      rw [beforeTerminal, if_neg (classifyTerminal_block hblock)]
    · rename_i hstream
      rw [scopeFlush_stream] at h
      obtain ⟨st₁, h₁, rfl⟩ := map_eq_ok h
      obtain ⟨r, hr, rfl⟩ := map_eq_ok h₁
      exact Or.inr (Or.inl ⟨.stream, r, hext.trans hfields, hscope.trans hstream, hr, rfl⟩)
    · rename_i hnone
      exact Or.inl ⟨hext.trans hfields, hscope.trans hnone, by simpa using h.symm⟩
  · rename_i field fields hfields
    obtain ⟨r, hr, rfl⟩ := map_eq_ok h
    refine Or.inr (Or.inr ⟨r, by simp [hext, hfields], ?_, ?_, ?_⟩)
    · simp only [terminalScope, hdata, hparse, hfields]
    · rw [hext, hfields]
      exact hr
    · simp only [deferredFor, hdata, hparse, Option.bind_some]
      rfl

/-! ### Inputs of one key -/

/-- A frame as one key sees it. -/
inductive KeyInput where
  | content (text : Text)
  | terminal
  | other
  deriving DecidableEq

/-- The text that a list of fields carries for a key. -/
def textFor (key : FieldKey) (fields : List ExtractedField) : Text :=
  Text.concat ((fields.filter fun f => f.key = key).map ExtractedField.text)

def keyInput (ctx : SseCtx) (key : FieldKey) (frame : Bytes) : KeyInput :=
  match extracted ctx frame with
  | [] =>
      match terminalScope ctx frame with
      | some scope => if scope.contains key then .terminal else .other
      | none => .other
  | fields => .content (textFor key fields)

/-- The window of one key. -/
def keyStep (ctx : SseCtx) (key : FieldKey) (input : KeyInput) (accum : Text) :
    Except Fault (Text × List Cut) :=
  match input with
  | .content text => windowFlush ctx key (accum ++ text)
  | .terminal =>
      if accum = Text.empty then .ok (accum, [])
      else flushSafePrefix ctx.crates ctx.entries 0 key accum
  | .other => .ok (accum, [])

/-- The text an input brings. -/
def KeyInput.text : KeyInput → Text
  | .content text => text
  | .terminal => Text.empty
  | .other => Text.empty

/-- What an input cuts off and what it leaves make up what was there and arrived. -/
theorem keyStep_concat {ctx : SseCtx} {key : FieldKey} {input : KeyInput} {accum rest : Text}
    {cuts : List Cut} (h : keyStep ctx key input accum = .ok (rest, cuts)) :
    Text.concat (cuts.map Cut.segment) ++ rest = accum ++ input.text := by
  cases input with
  | content text => exact flushSafePrefix_concat h
  | terminal =>
      simp only [keyStep] at h
      split at h
      · obtain ⟨rfl, rfl⟩ := by simpa using h
        simp [KeyInput.text]
      · simpa [KeyInput.text] using flushSafePrefix_concat h
  | other =>
      obtain ⟨rfl, rfl⟩ := by simpa [keyStep] using h
      simp [KeyInput.text]

/-- A terminal leaves nothing behind. -/
theorem keyStep_terminal {ctx : SseCtx} {key : FieldKey} {accum rest : Text} {cuts : List Cut}
    (h : keyStep ctx key .terminal accum = .ok (rest, cuts)) : rest = Text.empty := by
  simp only [keyStep] at h
  split at h
  · rename_i he
    obtain ⟨rfl, -⟩ := by simpa using h
    exact he
  · exact flushSafePrefix_zero h

theorem textFor_cons (key : FieldKey) (field : ExtractedField) (fields : List ExtractedField) :
    textFor key (field :: fields) =
      if field.key = key then field.text ++ textFor key fields else textFor key fields := by
  by_cases h : field.key = key <;> simp [textFor, h]

/-- Accumulation appends to each key its own text. -/
theorem getD_accumulate (fields : List ExtractedField) (m : SortedMap FieldKey Text)
    (key : FieldKey) :
    (accumulate fields m).getD key Text.empty = m.getD key Text.empty ++ textFor key fields := by
  induction fields generalizing m with
  | nil => simp [accumulate, textFor]
  | cons field fields ih =>
      have hfold : accumulate (field :: fields) m =
          accumulate fields (m.upsert field.key Text.empty fun accum => accum ++ field.text) := rfl
      rw [hfold, ih, SortedMap.getD_upsert, textFor_cons]
      by_cases h : key = field.key
      · rw [if_pos h, if_pos h.symm, h, Text.append_assoc]
      · rw [if_neg h, if_neg (Ne.symm h)]

/-- A frame stops the stream only with an I/O error out of restore, on a segment
of the text that is there for a key or comes with the frame. -/
theorem processOneFrame_error {ctx : SseCtx} {frame : Bytes} {st : RestoreState} {fault : Fault}
    (h : processOneFrame ctx frame st = .error fault) :
    ∃ key segment e, segment.bytes <:+: (st.accum key ++ textFor key (extracted ctx frame)).bytes ∧
      ctx.crates.restoreText ctx.entries segment = .error e ∧ fault = .io e := by
  have hwhere {pred : FieldKey → Bool} (hf : flushAccumulatorsWhere ctx pred st = .error fault) :
      ∃ key segment e,
        segment.bytes <:+: (st.accum key ++ textFor key (extracted ctx frame)).bytes ∧
          ctx.crates.restoreText ctx.entries segment = .error e ∧ fault = .io e := by
    obtain ⟨p, hp, hv⟩ := SortedMap.visit_error (map_eq_error hf)
    split at hv
    · cases hv
    · obtain ⟨segment, e, hpre, he, hfault⟩ := flushSafePrefix_error hv
      refine ⟨p.1, segment, e, ?_, he, hfault⟩
      rw [RestoreState.accum, SortedMap.getD_of_mem hp, Text.bytes_append]
      exact (hpre.trans (List.prefix_append _ _)).isInfix
  unfold processOneFrame at h
  split at h
  · cases h
  rename_i dataStr hdata
  split at h
  · split at h
    · exact hwhere (map_eq_error h)
    · cases h
  rename_i json hparse
  split at h
  · split at h
    · exact hwhere (map_eq_error h)
    · exact hwhere (map_eq_error h)
    · cases h
  · rename_i field fields hfields
    have hext : extracted ctx frame = field :: fields := by
      simp [extracted, hdata, hparse, hfields]
    obtain ⟨p, hp, hv⟩ := SortedMap.visit_error (map_eq_error h)
    obtain ⟨segment, e, hpre, he, hfault⟩ := flushSafePrefix_error hv
    refine ⟨p.1, segment, e, ?_, he, hfault⟩
    rw [RestoreState.accum, hext, ← getD_accumulate, SortedMap.getD_of_mem hp]
    exact hpre.isInfix

/-- A scope's flush is the terminal input for its keys and nothing for the others. -/
private theorem scopeFlush_eq_keyStep (ctx : SseCtx) (scope : TerminalScope) (key : FieldKey)
    (accum : Text) :
    scopeFlush ctx scope key accum =
      keyStep ctx key (if scope.contains key then .terminal else .other) accum := by
  cases hc : scope.contains key with
  | false => simp [scopeFlush, keyStep, hc]
  | true =>
      by_cases he : accum = Text.empty
      · simp [scopeFlush, keyStep, he]
      · simp [scopeFlush, keyStep, he, hc]

theorem scopeFlush_key {ctx : SseCtx} {scope : TerminalScope} {key : FieldKey}
    {accum rest : Text} {cuts : List Cut} (h : scopeFlush ctx scope key accum = .ok (rest, cuts)) :
    ∀ cut ∈ cuts, cut.key = key := by
  unfold scopeFlush at h
  split at h
  · obtain ⟨-, rfl⟩ := by simpa using h
    simp
  · exact flushSafePrefix_key h

/-- The calls of restore for one key, in order. -/
def RestoreState.cutsFor (st : RestoreState) (key : FieldKey) : List Cut :=
  st.cuts.filter fun cut => cut.key = key

/-- Each key's accumulator and cuts change as the window of that key alone. -/
theorem processOneFrame_key {ctx : SseCtx} {frame : Bytes} {st st' : RestoreState}
    (h : processOneFrame ctx frame st = .ok st') (key : FieldKey) :
    ∃ cuts, keyStep ctx key (keyInput ctx key frame) (st.accum key) = .ok (st'.accum key, cuts) ∧
      st'.cutsFor key = st.cutsFor key ++ cuts := by
  rcases processOneFrame_cases h with ⟨hext, hscope, rfl⟩ | ⟨scope, r, hext, hscope, hvisit, rfl⟩ |
    ⟨r, hext, hscope, hvisit, rfl⟩
  · refine ⟨[], ?_, by simp [RestoreState.cutsFor, RestoreState.push]⟩
    simp only [keyInput, hext, hscope, keyStep]
    rfl
  · have hkey := SortedMap.visit_key (f := scopeFlush ctx scope) (fun _ _ _ _ => scopeFlush_key)
      (fun _ => if_pos (Or.inl rfl)) hvisit key
    refine ⟨r.2.filter fun cut => cut.key = key, ?_, ?_⟩
    · have hst : ((beforeTerminal ctx (st.flushed r)).push (.passthrough frame)).accum key =
          r.1.getD key Text.empty := by
        unfold beforeTerminal
        split <;> rfl
      rw [hst, ← hkey]
      simp only [keyInput, hext, hscope]
      exact (scopeFlush_eq_keyStep ctx scope key _).symm
    · unfold beforeTerminal
      split <;> simp [RestoreState.cutsFor, RestoreState.push, RestoreState.flushed,
        RestoreState.drainDeferred]
  · have hkey := SortedMap.visit_key (f := windowFlush ctx) (fun _ _ _ _ => flushSafePrefix_key)
      (flushSafePrefix_of_atRest (atRest_empty _) _) hvisit key
    refine ⟨r.2.filter fun cut => cut.key = key, ?_, by
      simp [RestoreState.cutsFor, RestoreState.flushed]⟩
    have hinput : keyInput ctx key frame = .content (textFor key (extracted ctx frame)) := by
      unfold keyInput
      split
      · contradiction
      · rfl
    rw [hinput]
    rw [getD_accumulate] at hkey
    exact hkey

/-- A flush of everything is the terminal input of every key. -/
theorem flushAllAccumulators_key {ctx : SseCtx} {st st' : RestoreState}
    (h : flushAllAccumulators ctx st = .ok st') (key : FieldKey) :
    ∃ cuts, keyStep ctx key .terminal (st.accum key) = .ok (st'.accum key, cuts) ∧
      st'.cutsFor key = st.cutsFor key ++ cuts := by
  rw [scopeFlush_stream] at h
  obtain ⟨r, hvisit, rfl⟩ := map_eq_ok h
  have hkey := SortedMap.visit_key (f := scopeFlush ctx .stream) (fun _ _ _ _ => scopeFlush_key)
    (fun _ => if_pos (Or.inl rfl)) hvisit key
  rw [scopeFlush_eq_keyStep] at hkey
  exact ⟨_, hkey, by simp [RestoreState.cutsFor, RestoreState.flushed]⟩

theorem keyInput_text (ctx : SseCtx) (key : FieldKey) (frame : Bytes) :
    (keyInput ctx key frame).text = textFor key (extracted ctx frame) := by
  unfold keyInput
  split
  · rename_i hnil
    rw [hnil]
    split
    · split <;> rfl
    · rfl
  · rfl

/-! ### Runs -/

theorem runFrames_nil {ctx : SseCtx} {st st' : RestoreState}
    (h : runFrames ctx [] st = .ok st') : st = st' :=
  Except.ok.inj h

theorem runFrames_cons {ctx : SseCtx} {frame : Bytes} {frames : List Bytes}
    {st st' : RestoreState} (h : runFrames ctx (frame :: frames) st = .ok st') :
    ∃ st₁, processOneFrame ctx frame st = .ok st₁ ∧ runFrames ctx frames st₁ = .ok st' := by
  simp only [runFrames] at h
  split at h
  · cases h
  · rename_i st₁ h₁
    exact ⟨st₁, h₁, h⟩

theorem runFrames_append {ctx : SseCtx} {frames frames' : List Bytes}
    {st st₁ st₂ : RestoreState} (h : runFrames ctx frames st = .ok st₁)
    (h' : runFrames ctx frames' st₁ = .ok st₂) :
    runFrames ctx (frames ++ frames') st = .ok st₂ := by
  induction frames generalizing st with
  | nil =>
      obtain rfl := runFrames_nil h
      exact h'
  | cons frame frames ih =>
      obtain ⟨st', hstep, hrest⟩ := runFrames_cons h
      simp only [List.cons_append, runFrames, hstep]
      exact ih hrest

theorem runFrames_snoc {ctx : SseCtx} {frames : List Bytes} {frame : Bytes}
    {st st₁ st₂ : RestoreState} (h : runFrames ctx frames st = .ok st₁)
    (hstep : processOneFrame ctx frame st₁ = .ok st₂) :
    runFrames ctx (frames ++ [frame]) st = .ok st₂ := by
  apply runFrames_append h
  simp only [runFrames, hstep]

theorem runFrames_split {ctx : SseCtx} {front back : List Bytes} {st st' : RestoreState}
    (h : runFrames ctx (front ++ back) st = .ok st') :
    ∃ st₁, runFrames ctx front st = .ok st₁ ∧ runFrames ctx back st₁ = .ok st' := by
  induction front generalizing st with
  | nil => exact ⟨st, rfl, h⟩
  | cons frame front ih =>
      obtain ⟨st₀, h₀, hrest⟩ := runFrames_cons h
      obtain ⟨st₁, hfront, hback⟩ := ih hrest
      refine ⟨st₁, ?_, hback⟩
      simp only [runFrames, h₀]
      exact hfront

theorem runFrames_unsnoc {ctx : SseCtx} {frames : List Bytes} {frame : Bytes}
    {st st' : RestoreState} (h : runFrames ctx (frames ++ [frame]) st = .ok st') :
    ∃ st₁, runFrames ctx frames st = .ok st₁ ∧ processOneFrame ctx frame st₁ = .ok st' := by
  obtain ⟨st₁, hfront, hlast⟩ := runFrames_split h
  obtain ⟨st₂, hstep, hnil⟩ := runFrames_cons hlast
  obtain rfl := runFrames_nil hnil
  exact ⟨st₁, hfront, hstep⟩

/-- What holds at first and is kept by every frame holds behind a run. It may
speak of the frames that came before. -/
theorem runFrames_invariant {ctx : SseCtx} {Inv : List Bytes → RestoreState → Prop}
    {st : RestoreState} (hfirst : Inv [] st)
    (hstep : ∀ front frame st₁ st₂, Inv front st₁ → processOneFrame ctx frame st₁ = .ok st₂ →
      Inv (front ++ [frame]) st₂)
    {frames : List Bytes} {st' : RestoreState} (h : runFrames ctx frames st = .ok st') :
    Inv frames st' := by
  have hlater (back : List Bytes) : ∀ front st₁, Inv front st₁ →
      runFrames ctx back st₁ = .ok st' → Inv (front ++ back) st' := by
    induction back with
    | nil =>
        intro front st₁ hfront hrun
        obtain rfl := runFrames_nil hrun
        rw [List.append_nil]
        exact hfront
    | cons frame back ih =>
        intro front st₁ hfront hrun
        obtain ⟨st₂, hframe, hrest⟩ := runFrames_cons hrun
        have hback := ih _ st₂ (hstep front frame st₁ st₂ hfront hframe) hrest
        rwa [List.append_assoc] at hback
  exact hlater frames [] st hfirst h

/-- A failed run has a failing frame, behind frames that are processed. -/
theorem runFrames_error {ctx : SseCtx} {frames : List Bytes} {st : RestoreState} {fault : Fault}
    (h : runFrames ctx frames st = .error fault) :
    ∃ front frame back st', frames = front ++ frame :: back ∧
      runFrames ctx front st = .ok st' ∧ processOneFrame ctx frame st' = .error fault := by
  induction frames generalizing st with
  | nil => cases h
  | cons frame frames ih =>
      simp only [runFrames] at h
      split at h
      · rename_i e he
        exact ⟨[], frame, frames, st, rfl, rfl, he.trans (by simpa using h)⟩
      · rename_i st₁ hstep
        obtain ⟨front, failing, back, st', rfl, hfront, hfails⟩ := ih h
        refine ⟨frame :: front, failing, back, st', rfl, ?_, hfails⟩
        simp only [runFrames, hstep]
        exact hfront

/-- A run of frames projects onto a run of each key's window. -/
theorem runFrames_key {ctx : SseCtx} {frames : List Bytes} {st st' : RestoreState}
    (h : runFrames ctx frames st = .ok st') (key : FieldKey) :
    ∃ cuts, Transducer.run (keyStep ctx key) (frames.map (keyInput ctx key)) (st.accum key) =
        .ok (st'.accum key, cuts) ∧
      st'.cutsFor key = st.cutsFor key ++ cuts := by
  induction frames generalizing st with
  | nil =>
      obtain rfl := runFrames_nil h
      exact ⟨[], rfl, by simp⟩
  | cons frame frames ih =>
      obtain ⟨st₁, h₁, hrest⟩ := runFrames_cons h
      obtain ⟨cuts₁, hstep, hcuts₁⟩ := processOneFrame_key h₁ key
      obtain ⟨cuts₂, hrun, hcuts₂⟩ := ih hrest
      refine ⟨cuts₁ ++ cuts₂, ?_, by rw [hcuts₂, hcuts₁, List.append_assoc]⟩
      rw [List.map_cons, Transducer.run_cons_of_ok hstep, hrun]
      rfl

/-! ### Running to completion -/

theorem RestoresText.processOneFrame {ctx : SseCtx} (hr : RestoresText ctx.crates ctx.entries)
    (frame : Bytes) (st : RestoreState) : ∃ st', processOneFrame ctx frame st = .ok st' := by
  cases h : Sse.processOneFrame ctx frame st with
  | ok st' => exact ⟨st', rfl⟩
  | error fault =>
      obtain ⟨key, segment, e, -, he, -⟩ := processOneFrame_error h
      obtain ⟨restored, hok⟩ := hr.restoreText segment
      rw [hok] at he
      cases he

theorem RestoresText.runFrames {ctx : SseCtx} (hr : RestoresText ctx.crates ctx.entries)
    (frames : List Bytes) (st : RestoreState) : ∃ st', runFrames ctx frames st = .ok st' := by
  cases h : Sse.runFrames ctx frames st with
  | ok st' => exact ⟨st', rfl⟩
  | error fault =>
      obtain ⟨front, frame, back, st', -, -, he⟩ := runFrames_error h
      obtain ⟨st'', hok⟩ := hr.processOneFrame frame st'
      rw [hok] at he
      cases he

theorem RestoresText.flushAllAccumulators {ctx : SseCtx}
    (hr : RestoresText ctx.crates ctx.entries) (st : RestoreState) :
    ∃ st', flushAllAccumulators ctx st = .ok st' := by
  obtain ⟨m, out, hv⟩ := SortedMap.visit_ok (m := st.accumulators) (f := scopeFlush ctx .stream) (by
    intro key accum
    unfold scopeFlush
    split
    · exact ⟨_, rfl⟩
    · exact hr.flushSafePrefix 0 key accum)
  refine ⟨st.flushed (m, out), ?_⟩
  rw [scopeFlush_stream, hv]
  rfl

/-! ### A short chat -/

/-- The data of a chat completion chunk, and the value it parses to. -/
def chatData : Bytes :=
  lit "\x7b\"choices\":[\x7b\"delta\":\x7b\"content\":\"sk-4fs\"\x7d\x7d]\x7d"

def chatValue : Json := chatDelta (.ofMembers [("content", .string "sk-4fs")])

def chatChunk : Bytes := lit "data: " ++ chatData ++ lit "\n\n"

def chatDone : Bytes := lit "data: [DONE]\n\n"

/-- An OpenAI request whose only JSON event is `chatChunk`. -/
def chatCtx : SseCtx :=
  ⟨leftmostCrates (fun s => if s = chatData then some chatValue else none) (fun _ => Text.empty),
    alikeEntries, .openAi⟩

example : (extracted chatCtx chatChunk).map ExtractedField.text = ["sk-4fs"] := by decide

end LlmCacheProxy.Sse
