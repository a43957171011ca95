import LlmCacheProxy.Sse.Finished
import LlmCacheProxy.Sse.NonInterference

/-!
# Texts that are complete when they arrive

Some fields hold a complete value and not a piece of one. Their accumulators
treat them as pieces nevertheless: what waits under a key is joined with what
arrives, and the window cuts the whole. The texts come out as they arrived
exactly when every cut of the window falls between two of them.
-/

namespace LlmCacheProxy.Sse

/-- A text that arrives, unless it is empty. -/
def KeyInput.loudText : KeyInput → Option Text
  | .content text => if text = Text.empty then none else some text
  | _ => none

def loudTexts (inputs : List KeyInput) : List Text := inputs.filterMap KeyInput.loudText

/-- The window lets all of `front` go when `back` stands behind it: as many bytes
as the longest fake has are left in `back`, and no fake that may have begun before
these bytes began in `front`. -/
def LetsGo (ctx : SseCtx) (front back : Text) : Prop :=
  front.length ≤ (front ++ back).length - maxFakeLen ctx.entries ∧
    ∀ e ∈ ctx.entries, ∀ start,
      PartialAt (front ++ back).bytes e.fake ((front ++ back).length - maxFakeLen ctx.entries)
          start →
        front.length ≤ start

/-- The window lets `pending` go when `text` comes behind it, and nothing of
`text`. -/
def CutBetween (ctx : SseCtx) (pending text : Text) : Prop :=
  LetsGo ctx pending text ∧
    ∀ front back, text = front ++ back → front ≠ Text.empty → ¬ LetsGo ctx (pending ++ front) back

/-- With `pending` in the accumulator, every text is cut off as it arrived: at
once if there are no fakes, or when the next text or a terminal follows. -/
def Whole (ctx : SseCtx) : Text → List KeyInput → Prop
  | _, [] => True
  | _, .terminal :: rest => Whole ctx Text.empty rest
  | pending, .other :: rest => Whole ctx pending rest
  | pending, .content text :: rest =>
      if text = Text.empty then Whole ctx pending rest
      else
        (pending = Text.empty ∧ maxFakeLen ctx.entries = 0 ∧ Whole ctx Text.empty rest) ∨
          (CutBetween ctx pending text ∧ Whole ctx text rest)

/-! ### Where the window cuts -/

/-- How much of an accumulator a window flush cuts off. -/
def windowCut (ctx : SseCtx) (accum : Text) : Nat :=
  cutPoint ctx.entries (maxFakeLen ctx.entries) accum.bytes

theorem windowCut_le (ctx : SseCtx) (text : Text) : windowCut ctx text ≤ text.length :=
  (cutPoint_le _ _ _).trans (Nat.sub_le _ _)

private theorem length_eq_zero_iff {t : Text} : t.length = 0 ↔ t = Text.empty :=
  List.length_eq_zero_iff.trans Text.eq_empty_iff.symm

private theorem length_append (s t : Text) : (s ++ t).length = s.length + t.length :=
  List.length_append

/-- A cut behind `front` means that the window lets `front` go. -/
theorem letsGo_iff (ctx : SseCtx) (front back : Text) :
    LetsGo ctx front back ↔ front.length ≤ windowCut ctx (front ++ back) := by
  constructor
  · rintro ⟨hnominal, hstart⟩
    have hboundary : Utf8.isCharBoundary (front ++ back).bytes front.length = true := by
      have hle : front.length ≤ (front ++ back).bytes.length := by
        rw [Text.length_bytes]
        exact hnominal.trans (Nat.sub_le _ _)
      rw [Utf8.isCharBoundary_iff (front ++ back).valid hle, Text.bytes_append,
        ← Text.length_bytes, List.take_left]
      exact front.valid
    apply Utf8.le_floorCharBoundary hboundary
    split
    · by_cases htarget : safeTarget ctx.entries (front ++ back).bytes
          ((front ++ back).bytes.length - maxFakeLen ctx.entries) =
            (front ++ back).bytes.length - maxFakeLen ctx.entries
      · rw [htarget]
        exact hnominal
      · obtain ⟨e, he, hpartial⟩ := partialAt_safeTarget htarget
        exact hstart e he _ hpartial
    · exact hnominal
  · intro hcut
    refine ⟨hcut.trans (cutPoint_le _ _ _), ?_⟩
    rintro e he start ⟨hlt, hlen, heq⟩
    have hpos : 0 < maxFakeLen ctx.entries := by
      have := length_le_maxFakeLen he
      omega
    calc
      front.length ≤ windowCut ctx (front ++ back) := hcut
      _ ≤ safeTarget ctx.entries (front ++ back).bytes
          ((front ++ back).length - maxFakeLen ctx.entries) := cutPoint_le_safeTarget hpos
      _ ≤ start := safeTarget_le_start he ⟨hlt, hlen, heq⟩

/-- The cut falls where two texts meet when it lets go the first one alone. -/
private theorem cutBetween_iff (ctx : SseCtx) (pending text : Text) :
    CutBetween ctx pending text ↔ windowCut ctx (pending ++ text) = pending.length := by
  constructor
  · rintro ⟨hfront, hmore⟩
    rw [letsGo_iff] at hfront
    by_contra hne
    -- the cut lies behind a part of `text` that the window lets go, too
    have hlt : pending.length < windowCut ctx (pending ++ text) := by omega
    have hle := windowCut_le ctx (pending ++ text)
    have hboundary : Utf8.isCharBoundary text.bytes
        (windowCut ctx (pending ++ text) - pending.length) = true := by
      have hdrop : text.bytes = (pending ++ text).bytes.drop pending.length := by
        rw [Text.bytes_append, ← Text.length_bytes, List.drop_left]
      rw [hdrop, Utf8.isCharBoundary_drop (by omega) (by rw [Text.length_bytes]; omega),
        Nat.add_sub_cancel' hfront]
      exact isCharBoundary_cutPoint _ _ _
    obtain ⟨front, back, hsplit⟩ := Text.splitAt?_isSome hboundary
    obtain ⟨-, htake, hdrop⟩ := Text.splitAt?_eq_some hsplit
    have htext : text = front ++ back := by
      apply Text.ext
      rw [Text.bytes_append, htake, hdrop, List.take_append_drop]
    have hlen : (pending ++ front).length = windowCut ctx (pending ++ text) := by
      have hfrontLen := congrArg List.length htake
      rw [List.length_take_of_le (Utf8.isCharBoundary_le hboundary), Text.length_bytes] at hfrontLen
      rw [length_append, hfrontLen, Nat.add_sub_cancel' hfront]
    apply hmore front back htext
    · rintro rfl
      have hzero : (pending ++ Text.empty).length = pending.length := by rw [Text.append_empty]
      omega
    · rw [letsGo_iff, Text.append_assoc, ← htext, hlen]
  · intro hcut
    refine ⟨(letsGo_iff ctx pending text).mpr hcut.ge, ?_⟩
    rintro front back rfl hfront hgo
    rw [letsGo_iff, Text.append_assoc, hcut, length_append] at hgo
    exact hfront (length_eq_zero_iff.mp (by omega))

/-- What the window can hold waits as a whole. -/
theorem cutBetween_of_le {ctx : SseCtx} {text : Text} (hle : text.length ≤ maxFakeLen ctx.entries) :
    CutBetween ctx Text.empty text := by
  refine ⟨⟨Nat.zero_le _, fun _ _ _ _ => Nat.zero_le _⟩, ?_⟩
  rintro front back rfl hfront ⟨hnominal, -⟩
  rw [Text.empty_append] at hnominal
  exact hfront (length_eq_zero_iff.mp (by omega))

/-- A text that is cut off by itself was not waited for. -/
theorem windowCut_eq_length_iff {ctx : SseCtx} {text : Text} (ht : text ≠ Text.empty) :
    windowCut ctx text = text.length ↔ maxFakeLen ctx.entries = 0 := by
  constructor
  · intro hfull
    have hle := cutPoint_le ctx.entries (maxFakeLen ctx.entries) text.bytes
    have hpos : text.length ≠ 0 := fun hz => ht (length_eq_zero_iff.mp hz)
    rw [windowCut] at hfull
    rw [Text.length_bytes] at hle
    omega
  · intro hzero
    rw [windowCut, hzero, cutPoint_zero]

/-! ### One text at a time -/

/-- In terms of the cut: a nonempty text comes off at once, or what waited does. -/
private theorem whole_content_iff {ctx : SseCtx} {pending text : Text} (ht : text ≠ Text.empty)
    {rest : List KeyInput} :
    Whole ctx pending (.content text :: rest) ↔
      (pending = Text.empty ∧ windowCut ctx text = text.length ∧ Whole ctx Text.empty rest) ∨
        (windowCut ctx (pending ++ text) = pending.length ∧ Whole ctx text rest) := by
  rw [Whole, if_neg ht, cutBetween_iff, windowCut_eq_length_iff ht]

private theorem append_inj {s t u v : Text} (h : s ++ t = u ++ v) (hlen : s.length = u.length) :
    s = u ∧ t = v := by
  obtain ⟨hfront, hback⟩ := List.append_inj (congrArg Text.bytes h) hlen
  exact ⟨Text.ext hfront, Text.ext hback⟩

private theorem append_ne_left {s t : Text} (ht : t ≠ Text.empty) : s ++ t ≠ s := by
  intro h
  have hlen := congrArg (fun u : Text => u.bytes.length) h
  simp only [Text.bytes_append, List.length_append] at hlen
  exact ht (Text.eq_empty_iff.mpr (List.length_eq_zero_iff.mp (by omega)))

section Runs

variable {ctx : SseCtx} {key : FieldKey}

private theorem content_cases {accum text rest : Text} {cuts : List Cut}
    (h : keyStep ctx key (.content text) accum = .ok (rest, cuts)) :
    (windowCut ctx (accum ++ text) = 0 ∧ rest = accum ++ text ∧ cuts = []) ∨
      ∃ cut, cuts = [cut] ∧ accum ++ text = cut.segment ++ rest ∧
        cut.segment.length = windowCut ctx (accum ++ text) ∧ cut.segment ≠ Text.empty := by
  rcases flushSafePrefix_cases h with hnone | ⟨segment, restored, rfl, heq, hlen, hne, -⟩
  · exact Or.inl hnone
  · refine Or.inr ⟨_, rfl, heq, hlen, ?_⟩
    rintro rfl
    exact hne hlen.symm

/-- What waits is a list of at most one text. -/
def waiting (accum : Text) : List Text := if accum = Text.empty then [] else [accum]

theorem terminal_cases {accum rest : Text} {cuts : List Cut}
    (h : keyStep ctx key .terminal accum = .ok (rest, cuts)) :
    rest = Text.empty ∧ cuts.map Cut.segment = waiting accum := by
  have hrest := keyStep_terminal h
  subst hrest
  refine ⟨rfl, ?_⟩
  by_cases ha : accum = Text.empty
  · subst ha
    obtain rfl : cuts = [] := by simpa [keyStep] using h
    rfl
  · rw [waiting, if_neg ha]
    simp only [keyStep, if_neg ha] at h
    rcases flushSafePrefix_cases h with ⟨-, heq, -⟩ | ⟨segment, restored, rfl, heq, -⟩
    · exact absurd heq.symm ha
    · rw [heq]
      simp

private theorem loudTexts_content {text : Text} (ht : text ≠ Text.empty) (inputs : List KeyInput) :
    loudTexts (.content text :: inputs) = text :: loudTexts inputs := by
  simp [loudTexts, KeyInput.loudText, ht]

private theorem loudTexts_empty (inputs : List KeyInput) :
    loudTexts (.content Text.empty :: inputs) = loudTexts inputs := by
  simp [loudTexts, KeyInput.loudText]

private theorem content_empty {accum rest : Text} {cuts : List Cut}
    (hrest : AtRest ctx.entries accum)
    (h : keyStep ctx key (.content Text.empty) accum = .ok (rest, cuts)) :
    rest = accum ∧ cuts = [] := by
  rw [keyStep_quiet hrest (by simp [KeyInput.loud])] at h
  simpa [eq_comm] using h

private theorem concat_cons_ne_empty {p : Text} {ps : List Text} (hp : p ≠ Text.empty) :
    Text.concat (p :: ps) ≠ Text.empty := by
  intro h
  exact hp (Text.concat_eq_empty_iff.mp h p (List.mem_cons_self ..))

/-- Two texts that wait together never come apart again: each input brings one
text at most and cuts off one at most, and the last flush cuts off all. -/
private theorem run_joined {p q : Text} {ps : List Text}
    (hne : ∀ t ∈ p :: q :: ps, t ≠ Text.empty)
    (hrest : AtRest ctx.entries (Text.concat (p :: q :: ps)))
    {inputs : List KeyInput} {rest : Text} {cuts : List Cut}
    (h : Transducer.run (keyStep ctx key) (inputs ++ [.terminal]) (Text.concat (p :: q :: ps)) =
      .ok (rest, cuts)) :
    cuts.map Cut.segment ≠ p :: q :: ps ++ loudTexts inputs := by
  have hflushed {p q : Text} {ps ts us : List Text} (hp : p ≠ Text.empty) (hq : q ≠ Text.empty) :
      waiting (Text.concat (p :: q :: ps)) ++ ts ≠ p :: q :: ps ++ us := by
    rw [waiting, if_neg (concat_cons_ne_empty hp)]
    intro heq
    apply append_ne_left (concat_cons_ne_empty hq)
    rw [← Text.concat_cons]
    exact (List.cons.inj heq).1
  induction inputs generalizing p q ps cuts with
  | nil =>
      obtain ⟨s, cuts₁, cuts₂, hstep, hrun, rfl⟩ := Transducer.run_cons h
      obtain ⟨-, hcuts⟩ := terminal_cases hstep
      rw [List.map_append, hcuts]
      exact hflushed (hne p (by simp)) (hne q (by simp))
  | cons input inputs ih =>
      obtain ⟨s, cuts₁, cuts₂, hstep, hrun, rfl⟩ := Transducer.run_cons h
      have hs := keyStep_atRest hrest hstep
      cases input with
      | terminal =>
          obtain ⟨-, hcuts⟩ := terminal_cases hstep
          rw [List.map_append, hcuts]
          exact hflushed (hne p (by simp)) (hne q (by simp))
      | other =>
          obtain ⟨rfl, rfl⟩ := Prod.mk.inj (Except.ok.inj hstep)
          exact ih hne hrest hrun
      | content text =>
          by_cases ht : text = Text.empty
          · subst ht
            obtain ⟨rfl, rfl⟩ := content_empty hrest hstep
            rw [loudTexts_empty]
            exact ih hne hrest hrun
          rw [loudTexts_content ht]
          have hjoin : Text.concat (p :: q :: ps) ++ text =
              Text.concat (p :: q :: (ps ++ [text])) := by
            simp [Text.append_assoc]
          have hne' : ∀ t ∈ p :: q :: (ps ++ [text]), t ≠ Text.empty := by
            intro t htm
            simp only [List.mem_cons, List.mem_append, List.not_mem_nil, or_false] at htm
            rcases htm with rfl | rfl | htm | rfl
            · exact hne _ (by simp)
            · exact hne _ (by simp)
            · exact hne t (by simp [htm])
            · exact ht
          rcases content_cases hstep with ⟨-, rfl, rfl⟩ | ⟨cut, rfl, heq, -, -⟩
          · rw [hjoin] at hs hrun
            simpa using ih hne' hs hrun
          · -- the text that comes off is `p`; `text` now waits with what is left
            intro hsegments
            obtain ⟨hcut, hlater⟩ := List.cons.inj hsegments
            obtain ⟨r, rs, hrs⟩ := List.exists_cons_of_ne_nil (List.concat_ne_nil text ps)
            have hleft : s = Text.concat (q :: r :: rs) := by
              rw [hjoin, hcut, Text.concat_cons, hrs] at heq
              exact ((append_inj heq rfl).2).symm
            rw [hleft] at hs hrun
            apply ih (fun t htm => hne' t (by rw [hrs]; exact List.mem_cons_of_mem p htm)) hs hrun
            refine hlater.trans ?_
            rw [← hrs]
            show q :: ps ++ text :: loudTexts inputs = _
            simp

/-- A nonempty text is cut off at once, or takes the place of what waited. -/
theorem whole_content {pending text rest : Text} {cuts : List Cut} {back : List KeyInput}
    (ht : text ≠ Text.empty) (hwhole : Whole ctx pending (.content text :: back))
    (h : keyStep ctx key (.content text) pending = .ok (rest, cuts)) :
    (pending = Text.empty ∧ rest = Text.empty ∧ cuts.map Cut.segment = [text] ∧
        maxFakeLen ctx.entries = 0 ∧ Whole ctx Text.empty back) ∨
      (rest = text ∧ cuts.map Cut.segment = waiting pending ∧ Whole ctx text back) := by
  rw [whole_content_iff ht] at hwhole
  rcases hwhole with ⟨rfl, hfull, hback⟩ | ⟨hfull, hback⟩
  · left
    rw [← Text.empty_append text] at hfull
    rcases content_cases h with ⟨hcut, -, -⟩ | ⟨cut, rfl, heq, hlen, -⟩
    · rw [hcut, Text.empty_append] at hfull
      exact absurd (length_eq_zero_iff.mp hfull.symm) ht
    · rw [hfull] at hlen
      have hsame : Text.empty ++ text ++ Text.empty = cut.segment ++ rest := by
        rw [Text.append_empty]
        exact heq
      obtain ⟨hsegment, rfl⟩ := append_inj hsame hlen.symm
      rw [Text.empty_append] at hfull hsegment
      exact ⟨rfl, rfl, congrArg (fun t => [t]) hsegment.symm,
        (windowCut_eq_length_iff ht).mp hfull, hback⟩
  · right
    rcases content_cases h with ⟨hcut, rfl, rfl⟩ | ⟨cut, rfl, heq, hlen, hne⟩
    · obtain rfl := length_eq_zero_iff.mp (hfull.symm.trans hcut)
      exact ⟨Text.empty_append text, rfl, hback⟩
    · obtain ⟨rfl, rfl⟩ := append_inj heq (hfull.symm.trans hlen.symm)
      exact ⟨rfl, (if_neg hne).symm, hback⟩

private theorem whole_step {pending rest : Text} {cuts : List Cut} {input : KeyInput}
    {back : List KeyInput} (hrest : AtRest ctx.entries pending)
    (hwhole : Whole ctx pending (input :: back))
    (h : keyStep ctx key input pending = .ok (rest, cuts)) :
    waiting pending ++ loudTexts [input] = cuts.map Cut.segment ++ waiting rest ∧
      Whole ctx rest back := by
  have hempty : waiting Text.empty = [] := if_pos rfl
  cases input with
  | terminal =>
      obtain ⟨rfl, hcuts⟩ := terminal_cases h
      rw [hcuts, hempty]
      exact ⟨rfl, hwhole⟩
  | other =>
      obtain ⟨rfl, rfl⟩ := Prod.mk.inj (Except.ok.inj h)
      exact ⟨List.append_nil _, hwhole⟩
  | content text =>
      by_cases ht : text = Text.empty
      · subst ht
        obtain ⟨rfl, rfl⟩ := content_empty hrest h
        rw [Whole, if_pos rfl] at hwhole
        exact ⟨List.append_nil _, hwhole⟩
      · have hloud : loudTexts [.content text] = [text] := loudTexts_content ht []
        rcases whole_content ht hwhole h with ⟨rfl, rfl, hcuts, -, hback⟩ | ⟨rfl, hcuts, hback⟩
        · rw [hloud, hcuts, hempty]
          exact ⟨rfl, hback⟩
        · rw [hloud, hcuts, waiting, waiting, if_neg ht]
          exact ⟨rfl, hback⟩

/-- Handed on whole, the texts of any part of a stream are its segments and
what waits. -/
theorem run_whole {pending rest : Text} {cuts : List Cut} {front back : List KeyInput}
    (hrest : AtRest ctx.entries pending) (hwhole : Whole ctx pending (front ++ back))
    (h : Transducer.run (keyStep ctx key) front pending = .ok (rest, cuts)) :
    waiting pending ++ loudTexts front = cuts.map Cut.segment ++ waiting rest ∧
      Whole ctx rest back := by
  induction front generalizing pending cuts with
  | nil =>
      obtain ⟨rfl, rfl⟩ : pending = rest ∧ [] = cuts := by simpa using h
      exact ⟨List.append_nil _, hwhole⟩
  | cons input front ih =>
      obtain ⟨s, cuts₁, cuts₂, hstep, hrun, rfl⟩ := Transducer.run_cons h
      obtain ⟨hfirst, hlater⟩ := whole_step hrest hwhole hstep
      obtain ⟨hrun, hback⟩ := ih (keyStep_atRest hrest hstep) hlater hrun
      refine ⟨?_, hback⟩
      calc
        waiting pending ++ loudTexts (input :: front) =
            waiting pending ++ loudTexts [input] ++ loudTexts front := by
          rw [List.append_assoc, loudTexts, loudTexts, loudTexts, ← List.filterMap_append,
            List.singleton_append]
        _ = cuts₁.map Cut.segment ++ (waiting s ++ loudTexts front) := by
          rw [hfirst, List.append_assoc]
        _ = (cuts₁ ++ cuts₂).map Cut.segment ++ waiting rest := by
          rw [hrun, List.map_append, List.append_assoc]

/-- Only whole texts come off where the segments are the texts that arrived. -/
private theorem whole_of_segments {pending : Text} (hrest : AtRest ctx.entries pending)
    {inputs : List KeyInput} {rest : Text} {cuts : List Cut}
    (h : Transducer.run (keyStep ctx key) (inputs ++ [.terminal]) pending = .ok (rest, cuts))
    (hsegments : cuts.map Cut.segment = waiting pending ++ loudTexts inputs) :
    Whole ctx pending inputs := by
  induction inputs generalizing pending cuts with
  | nil => trivial
  | cons input inputs ih =>
      obtain ⟨s, cuts₁, cuts₂, hstep, hrun, rfl⟩ := Transducer.run_cons h
      have hs := keyStep_atRest hrest hstep
      have hempty : waiting Text.empty = [] := if_pos rfl
      cases input with
      | terminal =>
          obtain ⟨rfl, hcuts⟩ := terminal_cases hstep
          rw [List.map_append, hcuts] at hsegments
          rw [Whole]
          apply ih hs hrun
          rw [hempty]
          exact List.append_cancel_left hsegments
      | other =>
          obtain ⟨rfl, rfl⟩ := Prod.mk.inj (Except.ok.inj hstep)
          exact ih hrest hrun hsegments
      | content text =>
          by_cases ht : text = Text.empty
          · subst ht
            obtain ⟨rfl, rfl⟩ := content_empty hrest hstep
            rw [Whole, if_pos rfl]
            exact ih hrest hrun hsegments
          rw [loudTexts_content ht] at hsegments
          rw [whole_content_iff ht]
          by_cases hp : pending = Text.empty
          · subst hp
            rw [hempty, List.nil_append] at hsegments
            rw [Text.empty_append]
            rcases content_cases hstep with ⟨hcut, rfl, rfl⟩ | ⟨cut, rfl, heq, hlen, -⟩
            · -- `text` waits
              rw [Text.empty_append] at hcut hs hrun
              refine Or.inr ⟨hcut, ih hs hrun ?_⟩
              rw [waiting, if_neg ht]
              exact hsegments
            · -- the front of `text` comes off, and that is all of it
              rw [Text.empty_append] at heq hlen
              obtain ⟨hcut, hlater⟩ := List.cons.inj hsegments
              have hsame : text ++ Text.empty = cut.segment ++ s := by
                rw [Text.append_empty]
                exact heq
              obtain rfl : Text.empty = s := (append_inj hsame (congrArg Text.length hcut.symm)).2
              refine Or.inl ⟨rfl, ?_, ih hs hrun ?_⟩
              · rw [← hlen, hcut]
              · rw [hempty]
                exact hlater
          · have hwait : waiting pending = [pending] := if_neg hp
            rw [hwait, List.singleton_append] at hsegments
            rcases content_cases hstep with ⟨-, rfl, rfl⟩ | ⟨cut, rfl, heq, hlen, -⟩
            · -- two texts wait together
              have hjoin : pending ++ text = Text.concat [pending, text] := by simp
              rw [hjoin] at hs hrun
              exact absurd hsegments (run_joined (by simp [hp, ht]) hs hrun)
            · -- what waits comes off, and `text` waits in its place
              obtain ⟨hcut, hlater⟩ := List.cons.inj hsegments
              obtain rfl := (append_inj heq (congrArg Text.length hcut.symm)).2
              refine Or.inr ⟨?_, ih hs hrun ?_⟩
              · rw [← hlen, hcut]
              · rw [waiting, if_neg ht]
                exact hlater

/-- The segments are the texts that arrived exactly when the window hands on
whole texts. -/
theorem run_segments_iff {pending : Text} (hrest : AtRest ctx.entries pending)
    {inputs : List KeyInput} {rest : Text} {cuts : List Cut}
    (h : Transducer.run (keyStep ctx key) (inputs ++ [.terminal]) pending = .ok (rest, cuts)) :
    cuts.map Cut.segment = waiting pending ++ loudTexts inputs ↔ Whole ctx pending inputs := by
  constructor
  · exact whole_of_segments hrest h
  · intro hwhole
    obtain ⟨s, cuts₁, cuts₂, hrun, hlast, rfl⟩ := Transducer.run_split h
    have hback : Whole ctx pending (inputs ++ []) := by
      rw [List.append_nil]
      exact hwhole
    obtain ⟨t, cuts₃, cuts₄, hstep, hnil, rfl⟩ := Transducer.run_cons hlast
    obtain ⟨-, rfl⟩ : t = rest ∧ [] = cuts₄ := by simpa using hnil
    obtain ⟨-, hcuts⟩ := terminal_cases hstep
    rw [(run_whole hrest hback hrun).1, List.append_nil, List.map_append, hcuts]

end Runs

/-! ### The texts of a stream -/

/-- The nonempty texts that a stream brings for a key. -/
def arrivals (ctx : SseCtx) (key : FieldKey) (frames : List Bytes) : List Text :=
  loudTexts (frames.map (keyInput ctx key))

/-- The texts of a key are restored and shown as they arrived, one by one. -/
structure KeyWhole (ctx : SseCtx) (key : FieldKey) (frames : List Bytes) (st : RestoreState) :
    Prop where
  segments : (st.cutsFor key).map Cut.segment = arrivals ctx key frames
  shown : (emittedTexts key st.items).map Except.ok =
    (arrivals ctx key frames).map (ctx.crates.restoreText ctx.entries)

/-- Nothing is lost from the output exactly when nothing restores to nothing. -/
private theorem shown_eq_iff {ctx : SseCtx} {cuts : List Cut}
    (hsound : ∀ cut ∈ cuts, cut.Sound ctx) :
    (cuts.filterMap Cut.shown).map Except.ok =
        (cuts.map Cut.segment).map (ctx.crates.restoreText ctx.entries) ↔
      ∀ t ∈ cuts.map Cut.segment, ctx.crates.restoreText ctx.entries t ≠ .ok Text.empty := by
  constructor
  · intro heq t ht hempty
    obtain ⟨cut, hcut, rfl⟩ := List.mem_map.mp ht
    have hmem : (Except.ok Text.empty : Except IoError Text) ∈
        (cuts.filterMap Cut.shown).map Except.ok := by
      rw [heq, ← hempty]
      exact List.mem_map_of_mem ht
    obtain ⟨shown, hshown, hok⟩ := List.mem_map.mp hmem
    obtain ⟨cut', -, hcut'⟩ := List.mem_filterMap.mp hshown
    obtain rfl := Except.ok.inj hok
    unfold Cut.shown at hcut'
    split at hcut'
    · cases hcut'
    · rename_i hne
      exact hne (Option.some.inj hcut')
  · intro hlasting
    induction cuts with
    | nil => rfl
    | cons cut cuts ih =>
        obtain ⟨hcut, hcuts⟩ := List.forall_mem_cons.mp hsound
        obtain ⟨hfirst, hlater⟩ := List.forall_mem_cons.mp hlasting
        have hne : cut.restored ≠ Text.empty := by
          intro hempty
          apply hfirst
          rw [hcut.2, hempty]
        have hshown : Cut.shown cut = some cut.restored := if_neg hne
        simp only [List.filterMap_cons, hshown, List.map_cons, hcut.2, ih hcuts hlater]

namespace Finished

variable {ctx : SseCtx} {frames : List Bytes} {st : RestoreState}

/-- Seen from one key, a stream is a run of its window with a terminal behind. -/
theorem key_run (h : Finished ctx frames st) (key : FieldKey) :
    Transducer.run (keyStep ctx key) (frames.map (keyInput ctx key) ++ [.terminal]) Text.empty =
      .ok (Text.empty, st.cutsFor key) := by
  obtain ⟨st₀, hrun, hflush⟩ := h
  obtain ⟨cuts₀, hkey, hcuts₀⟩ := runFrames_key hrun key
  obtain ⟨cuts₁, hstep, hcuts₁⟩ := flushAllAccumulators_key hflush key
  have hinit : RestoreState.init.cutsFor key = [] := rfl
  rw [hcuts₁, hcuts₀, hinit, List.nil_append]
  apply Transducer.run_append hkey
  rw [Transducer.run_cons_of_ok hstep, keyStep_terminal hstep]
  simp [Except.map]

/-- The cuts of a key can be computed from its inputs alone. -/
theorem cutsFor_of_run (h : Finished ctx frames st) {key : FieldKey} {inputs : List KeyInput}
    (hinputs : frames.map (keyInput ctx key) = inputs) {cuts : List Cut}
    (hrun : Transducer.run (keyStep ctx key) (inputs ++ [.terminal]) Text.empty =
      .ok (Text.empty, cuts)) : st.cutsFor key = cuts := by
  have hkey := h.key_run key
  rw [hinputs, hrun] at hkey
  exact (Prod.mk.inj (Except.ok.inj hkey)).2.symm

theorem segments_iff (h : Finished ctx frames st) (key : FieldKey) :
    (st.cutsFor key).map Cut.segment = arrivals ctx key frames ↔
      Whole ctx Text.empty (frames.map (keyInput ctx key)) :=
  run_segments_iff (atRest_empty ctx.entries) (h.key_run key)

theorem keyWhole_iff (h : Finished ctx frames st) (key : FieldKey) :
    KeyWhole ctx key frames st ↔
      Whole ctx Text.empty (frames.map (keyInput ctx key)) ∧
        ∀ t ∈ arrivals ctx key frames, ctx.crates.restoreText ctx.entries t ≠ .ok Text.empty := by
  have hsound : ∀ cut ∈ st.cutsFor key, cut.Sound ctx :=
    fun cut hcut => h.sound cut (List.mem_of_mem_filter hcut)
  rw [← h.segments_iff key]
  constructor
  · rintro ⟨hsegments, hshown⟩
    refine ⟨hsegments, ?_⟩
    rw [h.emittedTexts_items, ← hsegments] at hshown
    rw [← hsegments]
    exact (shown_eq_iff hsound).mp hshown
  · rintro ⟨hsegments, hlasting⟩
    refine ⟨hsegments, ?_⟩
    rw [h.emittedTexts_items, ← hsegments]
    rw [← hsegments] at hlasting
    exact (shown_eq_iff hsound).mpr hlasting

end Finished

/-- The nonempty texts that were extracted for a key, in order. -/
def valuesOf (ctx : SseCtx) (key : FieldKey) (frames : List Bytes) : List Text :=
  frames.flatMap fun frame =>
    ((extracted ctx frame).filter fun f => f.key = key ∧ f.text ≠ Text.empty).map
      ExtractedField.text

theorem eq_nil_or_singleton {α : Type} {xs : List α} (h : xs.length ≤ 1) :
    xs = [] ∨ ∃ x, xs = [x] := by
  cases xs with
  | nil => exact Or.inl rfl
  | cons x rest =>
      obtain rfl : rest = [] := by simpa using h
      exact Or.inr ⟨x, rfl⟩

/-- A key that occurs once in a frame gets each of its texts by itself. -/
theorem arrivals_eq {ctx : SseCtx} {key : FieldKey} {frames : List Bytes}
    (hone : ∀ frame ∈ frames, ((extracted ctx frame).filter fun f => f.key = key).length ≤ 1) :
    arrivals ctx key frames = valuesOf ctx key frames := by
  induction frames with
  | nil => rfl
  | cons frame frames ih =>
      obtain ⟨hframe, hframes⟩ := List.forall_mem_cons.mp hone
      have hhead : arrivals ctx key (frame :: frames) =
          (keyInput ctx key frame).loudText.toList ++ arrivals ctx key frames := by
        rw [arrivals, arrivals, loudTexts, List.map_cons, List.filterMap_cons]
        cases (keyInput ctx key frame).loudText <;> rfl
      have hloud : (keyInput ctx key frame).loudText =
          if textFor key (extracted ctx frame) = Text.empty then none
          else some (textFor key (extracted ctx frame)) := by
        rw [← keyInput_text]
        cases keyInput ctx key frame with
        | content text => by_cases ht : text = Text.empty <;>
            simp [KeyInput.loudText, KeyInput.text, ht]
        | terminal => simp [KeyInput.loudText, KeyInput.text]
        | other => simp [KeyInput.loudText, KeyInput.text]
      have hboth : ((extracted ctx frame).filter fun f => f.key = key ∧ f.text ≠ Text.empty) =
          ((extracted ctx frame).filter fun f => f.key = key).filter
            fun f => f.text ≠ Text.empty := by
        rw [List.filter_filter]
        apply List.filter_congr
        intro f _
        simp [Bool.and_comm]
      rw [hhead, ih hframes, valuesOf, valuesOf, List.flatMap_cons, hloud, hboth]
      congr 1
      rw [textFor]
      rcases eq_nil_or_singleton hframe with hnil | ⟨f, hf⟩
      · simp [hnil]
      · by_cases he : f.text = Text.empty <;> simp [hf, he]

end LlmCacheProxy.Sse
