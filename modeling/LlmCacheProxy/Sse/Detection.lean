import LlmCacheProxy.Sse.KeyWindow
import LlmCacheProxy.Sse.Stream

/-!
# Detection of event streams

The choice between the two paths is made once, on the first nonempty chunk. It
agrees with what the whole response looks like exactly when that chunk holds the
marker the response begins with.
-/

namespace LlmCacheProxy.Sse

/-- The state after a turn, whether the loop goes on or returns. -/
def LoopStep.state : LoopStep → SseState
  | .again s => s
  | .ret _ s => s

/-- A state the stream is in some turns later. -/
inductive Reaches (ctx : SseCtx) : SseState → SseState → Prop
  | refl {s : SseState} : Reaches ctx s s
  | turn {s t : SseState} (tail : Reaches ctx (loopBody ctx s).state t) : Reaches ctx s t

theorem Reaches.snoc {ctx : SseCtx} {s t : SseState} (run : Reaches ctx s t) :
    Reaches ctx s (loopBody ctx t).state := by
  induction run with
  | refl => exact .turn .refl
  | turn tail ih => exact .turn ih

/-- The response is restored frame by frame. -/
def TakesSsePath (ctx : SseCtx) (script : List Polled) : Prop :=
  ∃ inner st rawFragment,
    Reaches ctx (.detecting script) (.streamingSse inner st rawFragment)

/-- States from which frames are no longer looked for. -/
def SseState.past : SseState → Bool
  | .detecting _ => false
  | .streamingSse _ _ _ => false
  | _ => true

private theorem loopBody_past {ctx : SseCtx} {s : SseState} (hs : s.past = true) :
    (loopBody ctx s).state.past = true := by
  cases s with
  | detecting inner => cases hs
  | collectingNonSse inner rawBuf =>
      cases inner with
      | nil => rfl
      | cons p rest => cases p <;> rfl
  | processing rawBuf =>
      simp only [loopBody]
      split <;> rfl
  | streamingSse inner st rawFragment => cases hs
  | emitting queue =>
      cases queue with
      | nil => rfl
      | cons e queue => cases queue <;> rfl
  | done => rfl

/-- The other path never comes back. -/
theorem Reaches.past {ctx : SseCtx} {s t : SseState} (run : Reaches ctx s t)
    (hs : s.past = true) : t.past = true := by
  induction run with
  | refl => exact hs
  | turn tail ih => exact ih (loopBody_past hs)

/-- A detecting stream decides in its next turn or later. -/
private theorem takesSsePath_turn (ctx : SseCtx) (script : List Polled) :
    TakesSsePath ctx script ↔ ∃ inner st rawFragment,
      Reaches ctx (loopBody ctx (.detecting script)).state
        (.streamingSse inner st rawFragment) := by
  constructor
  · rintro ⟨inner, st, raw, run⟩
    cases run with
    | turn tail => exact ⟨inner, st, raw, tail⟩
  · rintro ⟨inner, st, raw, run⟩
    exact ⟨inner, st, raw, Reaches.turn run⟩

/-- A detecting stream that leaves for the other path never restores frames. -/
private theorem not_takesSsePath {ctx : SseCtx} {script : List Polled}
    (h : (loopBody ctx (.detecting script)).state.past = true) : ¬ TakesSsePath ctx script := by
  rw [takesSsePath_turn]
  rintro ⟨inner, st, raw, run⟩
  cases run.past h

/-- The first nonempty chunk alone decides. -/
theorem takesSsePath_iff_first (ctx : SseCtx) (script : List Polled) :
    TakesSsePath ctx script ↔ (firstChunk script).any isSseFirstChunk = true := by
  induction script with
  | nil =>
      have hnot : ¬ TakesSsePath ctx [] := not_takesSsePath rfl
      simp [hnot, firstChunk]
  | cons p rest ih =>
      cases p with
      | pending =>
          rw [takesSsePath_turn]
          exact ih
      | failed message =>
          have hnot : ¬ TakesSsePath ctx (.failed message :: rest) := not_takesSsePath rfl
          simp [hnot, firstChunk]
      | chunk bytes =>
          by_cases hb : bytes.isEmpty = true
          · have hstep : loopBody ctx (.detecting (.chunk bytes :: rest)) =
                .again (.detecting rest) := if_pos hb
            rw [takesSsePath_turn, hstep, firstChunk, if_pos hb]
            exact ih
          · rw [firstChunk, if_neg hb, Option.any_some]
            by_cases hsse : isSseFirstChunk bytes = true
            · have hstep : loopBody ctx (.detecting (.chunk bytes :: rest)) =
                  .again (.streamingSse rest .init bytes) := (if_neg hb).trans (if_pos hsse)
              rw [takesSsePath_turn, hstep]
              exact ⟨fun _ => hsse, fun _ => ⟨_, _, _, Reaches.refl⟩⟩
            · have hstep : loopBody ctx (.detecting (.chunk bytes :: rest)) =
                  .again (.collectingNonSse rest bytes) := (if_neg hb).trans (if_neg hsse)
              have hnot : ¬ TakesSsePath ctx (.chunk bytes :: rest) := by
                apply not_takesSsePath
                rw [hstep]
                rfl
              exact ⟨fun h => absurd h hnot, fun h => absurd h hsse⟩

/-! ### Markers -/

/-- How many bytes of an accepted response show that it is an event stream. -/
def markerLength (bytes : Bytes) : Nat :=
  if (lit "data:").isPrefixOf bytes then 5
  else if (lit "event:").isPrefixOf bytes then 6
  else 2

theorem firstChunk_begins {script : List Polled} {first : Bytes}
    (h : firstChunk script = some first) : first <+: scriptBytes script := by
  induction script with
  | nil => cases h
  | cons p rest ih =>
      cases p with
      | pending => exact ih h
      | failed message => cases h
      | chunk bytes =>
          simp only [firstChunk] at h
          split at h
          · rename_i hb
            obtain rfl : bytes = [] := by simpa using hb
            exact ih h
          · obtain rfl := Option.some.inj h
            exact List.prefix_append _ _

/-- A prefix of an accepted response is accepted when it holds the marker, and
only then. -/
theorem isSseFirstChunk_of_begins {first text : Bytes} (h : first <+: text) :
    isSseFirstChunk first = true ↔
      isSseFirstChunk text = true ∧ markerLength text ≤ first.length := by
  have hpre (marker : Bytes) : marker <+: first ↔ marker <+: text ∧ marker.length ≤ first.length :=
    ⟨fun hm => ⟨hm.trans h, hm.length_le⟩,
      fun hm => List.prefix_of_prefix_length_le hm.1 h hm.2⟩
  have hexcl (m m' : Bytes) (hne : ¬ m <+: m') (hne' : ¬ m' <+: m) (hm : m <+: text) :
      ¬ m' <+: text := by
    intro hm'
    rcases List.prefix_or_prefix_of_prefix hm hm' with hp | hp
    · exact hne hp
    · exact hne' hp
  have hd : (lit "data:").length = 5 := by decide
  have he : (lit "event:").length = 6 := by decide
  have hs : (lit ": ").length = 2 := by decide
  have hn : (lit ":\n").length = 2 := by decide
  simp only [isSseFirstChunk, markerLength, Bool.or_eq_true, List.isPrefixOf_iff_prefix, hpre, hd,
    he, hs, hn]
  by_cases hdata : lit "data:" <+: text
  · have h₁ := hexcl (lit "data:") (lit "event:") (by decide) (by decide) hdata
    have h₂ := hexcl (lit "data:") (lit ": ") (by decide) (by decide) hdata
    have h₃ := hexcl (lit "data:") (lit ":\n") (by decide) (by decide) hdata
    simp [hdata, h₁, h₂, h₃]
  · by_cases hevent : lit "event:" <+: text
    · have h₂ := hexcl (lit "event:") (lit ": ") (by decide) (by decide) hevent
      have h₃ := hexcl (lit "event:") (lit ":\n") (by decide) (by decide) hevent
      simp [hdata, hevent, h₂, h₃]
    · simp only [hdata, hevent, false_and, false_or, if_false]
      tauto

/-- The path is the one the whole response calls for exactly when an accepted
response shows its marker in the first nonempty chunk. -/
theorem takesSsePath_eq_accepted_iff (ctx : SseCtx) (script : List Polled) :
    (TakesSsePath ctx script ↔ isSseFirstChunk (scriptBytes script) = true) ↔
      (isSseFirstChunk (scriptBytes script) = true →
        ∃ first, firstChunk script = some first ∧
          markerLength (scriptBytes script) ≤ first.length) := by
  rw [takesSsePath_iff_first]
  cases hf : firstChunk script with
  | none => simp
  | some first =>
      have hiff := isSseFirstChunk_of_begins (firstChunk_begins hf)
      simp only [Option.any_some, hiff, Option.some.injEq, exists_eq_left']
      tauto

/-- One byte in the first chunk is enough to miss an event stream. -/
theorem takesSsePath_depends_on_chunking :
    isSseFirstChunk (scriptBytes [.chunk (lit "d"), .chunk (lit "ata: x\n\n")]) = true ∧
    ¬ TakesSsePath chatCtx [.chunk (lit "d"), .chunk (lit "ata: x\n\n")] ∧
    scriptBytes [.chunk (lit "data: x\n\n")] =
      scriptBytes [.chunk (lit "d"), .chunk (lit "ata: x\n\n")] ∧
    TakesSsePath chatCtx [.chunk (lit "data: x\n\n")] := by
  simp only [takesSsePath_iff_first]
  decide

end LlmCacheProxy.Sse
