import LlmCacheProxy.Sse.Finished

/-!
# Order of cuts and items

The frames made for cuts stand in the output in the order of the cuts, and the
cuts of one flush in the order of their keys. What stands in front of a frame
made for a cut is therefore known from the cuts before it.
-/

namespace LlmCacheProxy.Sse

def Emission.isSynthetic : Emission → Bool
  | .synthetic _ _ => true
  | _ => false

/-- The frames made for cuts among the queued items are those of all cuts. -/
def ShowsCuts (st : RestoreState) : Prop :=
  st.outputQueue.filter Emission.isSynthetic = st.cuts.flatMap Cut.emission

private theorem filter_synthetic_cuts (cuts : List Cut) :
    (cuts.flatMap Cut.emission).filter Emission.isSynthetic = cuts.flatMap Cut.emission := by
  rw [List.filter_eq_self]
  intro e he
  obtain ⟨cut, -, he⟩ := List.mem_flatMap.mp he
  unfold Cut.emission at he
  split at he
  · cases he
  · obtain rfl := List.mem_singleton.mp he
    rfl

private theorem filter_synthetic_deferred {q : List Emission}
    (h : ∀ e ∈ q, e.isDeferred = true) : q.filter Emission.isSynthetic = [] := by
  rw [List.filter_eq_nil_iff]
  intro e he
  have hdeferred := h e he
  cases e with
  | deferred extra => exact Bool.false_ne_true
  | _ => cases hdeferred

private theorem ShowsCuts.flushed {st : RestoreState} (h : ShowsCuts st)
    (r : SortedMap FieldKey Text × List Cut) : ShowsCuts (st.flushed r) := by
  show (st.outputQueue ++ r.2.flatMap Cut.emission).filter Emission.isSynthetic =
    (st.cuts ++ r.2).flatMap Cut.emission
  rw [List.filter_append, filter_synthetic_cuts, List.flatMap_append, h]

private theorem ShowsCuts.push {st : RestoreState} (h : ShowsCuts st) (frame : Bytes) :
    ShowsCuts (st.push (.passthrough frame)) := by
  show (st.outputQueue ++ [Emission.passthrough frame]).filter Emission.isSynthetic = _
  rw [List.filter_append, h]
  exact List.append_nil _

private theorem ShowsCuts.beforeTerminal {ctx : SseCtx} {st : RestoreState} (h : ShowsCuts st)
    (hwait : ∀ e ∈ st.deferredPassthrough, e.isDeferred = true) :
    ShowsCuts (beforeTerminal ctx st) := by
  unfold Sse.beforeTerminal
  split
  · show (st.outputQueue ++ st.deferredPassthrough).filter Emission.isSynthetic = _
    rw [List.filter_append, h, filter_synthetic_deferred hwait]
    exact List.append_nil _
  · exact h

private theorem ShowsCuts.step {ctx : SseCtx} {frame : Bytes} {st st' : RestoreState}
    (h : ShowsCuts st) (hwait : ∀ e ∈ st.deferredPassthrough, e.isDeferred = true)
    (hstep : processOneFrame ctx frame st = .ok st') : ShowsCuts st' := by
  rcases processOneFrame_cases hstep with ⟨-, -, rfl⟩ | ⟨scope, r, -, -, -, rfl⟩ | ⟨r, -, -, -, rfl⟩
  · exact h.push frame
  · exact ((h.flushed r).beforeTerminal hwait).push frame
  · exact h.flushed r

private theorem runFrames_showsCuts {ctx : SseCtx} {frames : List Bytes} {st : RestoreState}
    (h : runFrames ctx frames RestoreState.init = .ok st) : ShowsCuts st := by
  have hboth : OutputInOrder ctx frames st ∧ ShowsCuts st := by
    apply runFrames_invariant _ _ h
    · exact ⟨OutputInOrder.init ctx, rfl⟩
    · rintro front frame st₁ st₂ ⟨hout, hshows⟩ hframe
      exact ⟨hout.step hframe, hshows.step hout.waiting hframe⟩
  exact hboth.2

/-- The items show the cuts, in their order. -/
theorem Finished.synthetic_items {ctx : SseCtx} {frames : List Bytes} {st : RestoreState}
    (h : Finished ctx frames st) :
    st.items.filter Emission.isSynthetic = st.cuts.flatMap Cut.emission := by
  have hwait := h.outputInOrder.waiting
  obtain ⟨st₀, hrun, hflush⟩ := h
  obtain ⟨r, -, rfl⟩ := flushAllAccumulators_cases hflush
  have hshows : ShowsCuts (st₀.flushed r) := (runFrames_showsCuts hrun).flushed r
  rw [RestoreState.items, List.filter_append, hshows, filter_synthetic_deferred hwait,
    List.append_nil]

/-! ### The cuts of a flush -/

/-- A flush makes its cuts in the order of the keys. -/
def Ordered (cuts : List Cut) : Prop := cuts.Pairwise fun c₁ c₂ => c₁.key ≤ c₂.key

theorem processOneFrame_ordered {ctx : SseCtx} {frame : Bytes} {st st' : RestoreState}
    (h : processOneFrame ctx frame st = .ok st') :
    ∃ cuts, st'.cuts = st.cuts ++ cuts ∧ Ordered cuts := by
  rcases processOneFrame_cases h with ⟨-, -, rfl⟩ | ⟨scope, r, -, -, hvisit, rfl⟩ |
    ⟨r, -, -, hvisit, rfl⟩
  · exact ⟨[], (List.append_nil _).symm, List.Pairwise.nil⟩
  · refine ⟨r.2, ?_, SortedMap.visit_ordered (fun _ _ _ _ => scopeFlush_key) hvisit⟩
    unfold beforeTerminal
    split <;> rfl
  · exact ⟨r.2, rfl, SortedMap.visit_ordered (fun _ _ _ _ => flushSafePrefix_key) hvisit⟩

theorem flushAllAccumulators_ordered {ctx : SseCtx} {st st' : RestoreState}
    (h : flushAllAccumulators ctx st = .ok st') :
    ∃ cuts, st'.cuts = st.cuts ++ cuts ∧ Ordered cuts := by
  obtain ⟨r, hvisit, rfl⟩ := flushAllAccumulators_cases h
  exact ⟨r.2, rfl, SortedMap.visit_ordered (fun _ _ _ _ => scopeFlush_key) hvisit⟩

/-- A key's only cut of a flush lies behind all cuts for a smaller key. -/
theorem Ordered.split {cuts : List Cut} (h : Ordered cuts) {key delta : FieldKey}
    {cut : Cut} (hcut : (cuts.filter fun c => c.key = key) = [cut]) (hlt : delta < key) :
    ∃ front, front ++ [cut] <+: cuts ∧ (front.filter fun c => c.key = key) = [] ∧
      (front.filter fun c => c.key = delta) = cuts.filter fun c => c.key = delta := by
  obtain ⟨front, back, rfl, hfront, hkey, -⟩ := List.filter_eq_cons_iff.mp hcut
  have hkey : cut.key = key := of_decide_eq_true hkey
  refine ⟨front, ⟨back, by simp⟩, List.filter_eq_nil_iff.mpr hfront, ?_⟩
  have hback : ((cut :: back).filter fun c => c.key = delta) = [] := by
    rw [List.filter_eq_nil_iff]
    intro c hc
    have hle : key ≤ c.key := by
      rcases List.mem_cons.mp hc with rfl | hc
      · exact le_of_eq hkey.symm
      · rw [← hkey]
        exact (List.pairwise_cons.mp (List.pairwise_append.mp h).2.1).1 c hc
    simpa using ne_of_gt (lt_of_lt_of_le hlt hle)
  rw [List.filter_append, hback, List.append_nil]

/-! ### In front of a cut -/

theorem earlier_unique {cuts front front' : List Cut} {cut cut' : Cut}
    (h : front ++ [cut] <+: cuts) (h' : front' ++ [cut'] <+: cuts) {key : FieldKey}
    (hkey : cut.key = key) (hkey' : cut'.key = key)
    (hlen : (front.filter fun c => c.key = key).length =
      (front'.filter fun c => c.key = key).length) : front = front' := by
  have hshorter {front front' : List Cut} {cut : Cut} (h : front ++ [cut] <+: cuts)
      (h' : front' <+: cuts) (hkey : cut.key = key) (hlt : front.length < front'.length) :
      (front.filter fun c => c.key = key).length <
        (front'.filter fun c => c.key = key).length := by
    have hpre : front ++ [cut] <+: front' := by
      apply List.prefix_of_prefix_length_le h h'
      rw [List.length_append]
      exact hlt
    have hle := (hpre.filter fun c => c.key = key).length_le
    have hone : ([cut].filter fun c => c.key = key).length = 1 := by simp [hkey]
    rw [List.filter_append, List.length_append, hone] at hle
    exact hle
  have hfront := (List.prefix_append front [cut]).trans h
  have hfront' := (List.prefix_append front' [cut']).trans h'
  rcases Nat.lt_trichotomy front.length front'.length with hlt | heq | hgt
  · exact absurd (hshorter h hfront' hkey hlt) (by omega)
  · exact (List.prefix_of_prefix_length_le hfront hfront' heq.le).eq_of_length heq
  · exact absurd (hshorter h' hfront hkey' hgt) (by omega)

/-- The items in front of the one that shows a cut show the cuts before it. -/
theorem Finished.items_at {ctx : SseCtx} {frames : List Bytes} {st : RestoreState}
    (h : Finished ctx frames st) {earlier : List Cut} {cut : Cut}
    (hpre : earlier ++ [cut] <+: st.cuts) (hshown : cut.restored ≠ Text.empty) :
    ∃ before, before ++ [.synthetic cut.key cut.restored] <+: st.items ∧
      before.filter Emission.isSynthetic = earlier.flatMap Cut.emission := by
  obtain ⟨later, hcuts⟩ := hpre
  have hone : cut.emission = [.synthetic cut.key cut.restored] := if_neg hshown
  have hitems := h.synthetic_items
  rw [← hcuts, List.append_assoc, List.flatMap_append, List.singleton_append, List.flatMap_cons,
    hone, List.singleton_append] at hitems
  obtain ⟨front, back, hsplit, hfront, hback⟩ := List.filter_eq_append_iff.mp hitems
  obtain ⟨quiet, after, rfl, hquiet, -, -⟩ := List.filter_eq_cons_iff.mp hback
  refine ⟨front ++ quiet, ⟨after, ?_⟩, ?_⟩
  · rw [hsplit]
    simp
  · rw [List.filter_append, hfront, List.filter_eq_nil_iff.mpr hquiet, List.append_nil]

end LlmCacheProxy.Sse
