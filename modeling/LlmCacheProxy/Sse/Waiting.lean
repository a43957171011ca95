import LlmCacheProxy.Sse.Whole

/-!
# What waits under a key

How much text the window holds back depends on the text since the last terminal
and not on the pieces in which it came. So it can be told from the frames when
a text has been handed to restore.
-/

namespace LlmCacheProxy.Sse

/-! ### The text since the last terminal -/

/-- What an input makes of the text since the last terminal. -/
def KeyInput.since (accum : Text) : KeyInput → Text
  | .content text => accum ++ text
  | .terminal => Text.empty
  | .other => accum

/-- The text of a key that has arrived since its last terminal. -/
def sinceTerminal (ctx : SseCtx) (key : FieldKey) (frames : List Bytes) : Text :=
  (frames.map (keyInput ctx key)).foldl KeyInput.since Text.empty

section Windows

variable {ctx : SseCtx} {key : FieldKey}

/-- With `text` since the last terminal, the window holds what is behind its cut. -/
private def Held (ctx : SseCtx) (text accum : Text) : Prop :=
  accum.bytes = text.bytes.drop (windowCut ctx text)

private theorem Held.step {text accum rest : Text} (h : Held ctx text accum) {input : KeyInput}
    {cuts : List Cut} (hstep : keyStep ctx key input accum = .ok (rest, cuts)) :
    Held ctx (input.since text) rest := by
  cases input with
  | terminal =>
      rw [keyStep_terminal hstep]
      exact List.drop_nil.symm
  | other =>
      obtain ⟨rfl, -⟩ := Prod.mk.inj (Except.ok.inj hstep)
      exact h
  | content more =>
      have hwhole : (accum ++ more).bytes = (text ++ more).bytes.drop (windowCut ctx text) := by
        rw [Text.bytes_append, Text.bytes_append, h,
          List.drop_append_of_le_length (windowCut_le ctx text)]
      have hcut : windowCut ctx (text ++ more) =
          windowCut ctx text + windowCut ctx (accum ++ more) := by
        unfold windowCut at hwhole ⊢
        rw [hwhole]
        exact cutPoint_append _ _ _ _
      rw [Held, KeyInput.since, hcut, ← List.drop_drop, ← hwhole]
      rcases flushSafePrefix_cases hstep with ⟨hz, rfl, -⟩ | ⟨segment, restored, -, heq, hlen, -⟩
      · rw [windowCut, hz, List.drop_zero]
      · rw [windowCut, ← hlen, heq, Text.bytes_append, ← Text.length_bytes, List.drop_left]

private theorem run_held {inputs : List KeyInput} {text accum rest : Text} {cuts : List Cut}
    (h : Held ctx text accum)
    (hrun : Transducer.run (keyStep ctx key) inputs accum = .ok (rest, cuts)) :
    Held ctx (inputs.foldl KeyInput.since text) rest := by
  induction inputs generalizing text accum cuts with
  | nil =>
      obtain ⟨rfl, -⟩ : accum = rest ∧ [] = cuts := by simpa using hrun
      exact h
  | cons input inputs ih =>
      obtain ⟨s, cuts₁, cuts₂, hstep, hrest, -⟩ := Transducer.run_cons hrun
      exact ih (h.step hstep) hrest

/-- How much of its text a key holds back does not depend on how it arrived. -/
theorem runFrames_held {frames : List Bytes} {st : RestoreState}
    (h : runFrames ctx frames RestoreState.init = .ok st) (key : FieldKey) :
    (st.accum key).length =
      (sinceTerminal ctx key frames).length - windowCut ctx (sinceTerminal ctx key frames) := by
  obtain ⟨cuts, hrun, -⟩ := runFrames_key h key
  have hempty : Held ctx Text.empty (RestoreState.init.accum key) := List.drop_nil.symm
  have hheld := run_held hempty hrun
  rw [← Text.length_bytes, hheld, List.length_drop, Text.length_bytes]
  rfl

theorem runFrames_atRest {frames : List Bytes} {st : RestoreState}
    (h : runFrames ctx frames RestoreState.init = .ok st) (key : FieldKey) :
    AtRest ctx.entries (st.accum key) := by
  obtain ⟨cuts, hrun, -⟩ := runFrames_key h key
  exact Transducer.run_invariant (fun _ _ _ _ => keyStep_atRest) (atRest_empty ctx.entries) hrun

/-- Quiet inputs leave a window at rest as it is. -/
theorem run_quiet {accum : Text} (hrest : AtRest ctx.entries accum) {inputs : List KeyInput}
    (hquiet : ∀ input ∈ inputs, input.loud = false) :
    Transducer.run (keyStep ctx key) inputs accum = .ok (accum, []) := by
  have hnone : inputs.filter KeyInput.loud = [] := by
    rw [List.filter_eq_nil_iff]
    intro input hinput
    simp [hquiet input hinput]
  rw [← Transducer.run_filter (fun _ _ _ _ => keyStep_atRest) (fun _ _ => keyStep_quiet) inputs
    hrest, hnone]
  rfl

end Windows

/-! ### What has been handed on -/

theorem received_grows (ctx : SseCtx) (key : FieldKey) (front back : List Bytes) :
    (received ctx key front).bytes <+: (received ctx key (front ++ back)).bytes := by
  rw [received_append, Text.bytes_append]
  exact List.prefix_append _ _

theorem sinceTerminal_append {ctx : SseCtx} {key : FieldKey} (front : List Bytes)
    {back : List Bytes} (h : ∀ frame ∈ back, keyInput ctx key frame ≠ .terminal) :
    sinceTerminal ctx key (front ++ back) =
      sinceTerminal ctx key front ++ received ctx key back := by
  rw [sinceTerminal, List.map_append, List.foldl_append, ← sinceTerminal]
  generalize sinceTerminal ctx key front = text
  induction back generalizing text with
  | nil => exact (Text.append_empty text).symm
  | cons frame back ih =>
      obtain ⟨hframe, hback⟩ := List.forall_mem_cons.mp h
      have hsince : (keyInput ctx key frame).since text =
          text ++ textFor key (extracted ctx frame) := by
        rw [← keyInput_text]
        cases hinput : keyInput ctx key frame with
        | terminal => exact absurd hinput hframe
        | _ => simp [KeyInput.since, KeyInput.text]
      rw [List.map_cons, List.foldl_cons, ih hback, hsince, Text.append_assoc]
      rfl

/-- The text of `front` has been handed to restore once the window lets go what
of it is behind the last terminal. -/
theorem handed_iff {ctx : SseCtx} {key : FieldKey} {front back : List Bytes}
    {st : RestoreState}
    (h : runFrames ctx (front ++ back) RestoreState.init = .ok st)
    (hback : ∀ frame ∈ back, keyInput ctx key frame ≠ .terminal) :
    (received ctx key front).bytes <+: (st.handed key).bytes ↔
      LetsGo ctx (sinceTerminal ctx key front) (received ctx key back) := by
  have hconserved := runFrames_conserves h key
  rw [received_append] at hconserved
  have hheld := runFrames_held h key
  have hle := windowCut_le ctx (sinceTerminal ctx key (front ++ back))
  have hsum := congrArg (fun t : Text => t.bytes.length) hconserved
  have hsince := congrArg (fun t : Text => t.bytes.length) (sinceTerminal_append front hback)
  simp only [Text.bytes_append, List.length_append, Text.length_bytes] at hsum hsince
  have hpre : (received ctx key front).bytes <+: (st.handed key).bytes ↔
      (received ctx key front).length ≤ (st.handed key).length := by
    constructor
    · exact List.IsPrefix.length_le
    · intro hlen
      have hwhole := congrArg Text.bytes hconserved
      rw [Text.bytes_append, Text.bytes_append] at hwhole
      have hfront : (received ctx key front).bytes <+:
          (st.handed key).bytes ++ (st.accum key).bytes := by
        rw [hwhole]
        exact List.prefix_append _ _
      exact List.prefix_of_prefix_length_le hfront (List.prefix_append _ _) hlen
  rw [hpre, letsGo_iff, ← sinceTerminal_append front hback]
  omega

/-- Without a fake to wait for, the window lets everything go. -/
theorem letsGo_of_no_fake {ctx : SseCtx} (hzero : maxFakeLen ctx.entries = 0)
    (front back : Text) : LetsGo ctx front back := by
  rw [letsGo_iff, windowCut, hzero, cutPoint_zero, ← Text.length_bytes, ← Text.length_bytes,
    Text.bytes_append, List.length_append]
  exact Nat.le_add_right _ _

end LlmCacheProxy.Sse
