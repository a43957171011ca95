import LlmCacheProxy.Sse.Signals

/-!
# Channels

A response addresses each delta by indices beside the kind of its text: the
choice, the output item, the part of it. Accumulators are told apart by the kind
alone and synthetic frames name no index, so text stays on its channel exactly
when every delta is addressed to index zero.
-/

namespace LlmCacheProxy.Sse

/-- An index member; a missing one stands for zero. -/
def indexMember (j : Json) (name : Text) : UInt64 := ((j.get name).bind Json.asU64).getD 0

/-- The indices that address a delta in its response, beside its key. -/
def place (key : FieldKey) (v : Json) : UInt64 × UInt64 :=
  match key with
  | .responsesApiDelta eventType =>
      if eventType = "response.reasoning_summary_text.delta" then
        (indexMember v "output_index", indexMember v "summary_index")
      else (indexMember v "output_index", indexMember v "content_index")
  | _ =>
      match v.pointer ["choices", "0"] with
      | some choice => (indexMember choice "index", 0)
      | none => (0, 0)

/-- A logical channel of a response. -/
structure Channel where
  key : FieldKey
  place : UInt64 × UInt64
  deriving DecidableEq

/-- The keys of deltas, as opposed to events that repeat a whole text. -/
def FieldKey.isDelta : FieldKey → Bool
  | .responsesApiDone _ => false
  | _ => true

/-- The texts in an item, each with the channel its members spell out. -/
def addressed (ctx : SseCtx) (e : Emission) : List (Channel × Text) :=
  match e.value ctx.crates with
  | some v => (e.fields ctx).map fun f => (⟨f.key, place f.key v⟩, f.text)
  | none => []

/-- The text that stands under a channel. -/
def textOn (ch : Channel) (texts : List (Channel × Text)) : Text :=
  Text.concat ((texts.filter fun t => t.1 = ch).map Prod.snd)

def onChannel (ctx : SseCtx) (ch : Channel) (es : List Emission) : Text :=
  textOn ch (es.flatMap (addressed ctx))

/-- The channel that the synthetic frame of a cut is read under. -/
def Cut.channel (cut : Cut) : Channel :=
  ⟨cut.key, place cut.key (syntheticValue cut.key cut.restored)⟩

/-- Every channel shows the restored form of what was received on it, and what
was restored under it was received on it. -/
structure ChannelsKept (ctx : SseCtx) (frames : List Bytes) (st : RestoreState) : Prop where
  restored : ∀ ch, ch.key.isDelta = true →
    ctx.crates.restoreText ctx.entries (onChannel ctx ch (arrived frames)) =
      .ok (onChannel ctx ch st.items)
  separate : ∀ ch, ch.key.isDelta = true →
    Text.concat ((st.cuts.filter fun cut => cut.channel = ch).map Cut.segment) =
      onChannel ctx ch (arrived frames)

/-- Restoring window by window gives what restoring the whole text gives. -/
def WindowAgrees (ctx : SseCtx) (frames : List Bytes) : Prop :=
  ∀ st, Finished ctx frames st → ∀ key,
    ctx.crates.restoreText ctx.entries (received ctx key frames) =
      .ok (Text.concat (emittedTexts key st.items))

/-- Every delta that holds text is addressed to index zero. -/
def OnePlace (ctx : SseCtx) (frames : List Bytes) : Prop :=
  ∀ frame ∈ frames, ∀ v, frameValue ctx frame = some v → ∀ f ∈ extracted ctx frame,
    f.key.isDelta = true → f.text ≠ Text.empty → place f.key v = (0, 0)

/-! ### Texts and channels -/

theorem textOn_append (ch : Channel) (xs ys : List (Channel × Text)) :
    textOn ch (xs ++ ys) = textOn ch xs ++ textOn ch ys := by
  simp [textOn]

theorem textOn_cons (ch : Channel) (t : Channel × Text) (ts : List (Channel × Text)) :
    textOn ch (t :: ts) = if t.1 = ch then t.2 ++ textOn ch ts else textOn ch ts := by
  by_cases h : t.1 = ch <;> simp [textOn, h]

/-- An empty channel holds empty texts only. -/
theorem eq_empty_of_textOn {ch : Channel} {texts : List (Channel × Text)}
    (h : textOn ch texts = Text.empty) {text : Text} (hmem : (ch, text) ∈ texts) :
    text = Text.empty := by
  rw [textOn, Text.concat_eq_empty_iff] at h
  apply h
  exact List.mem_map.mpr ⟨_, List.mem_filter.mpr ⟨hmem, by simp⟩, rfl⟩

/-- Synthetic frames name no index. -/
theorem place_syntheticValue {p : Provider} (hp : OpenAiFamily p) {key : FieldKey}
    (hkey : key.OfProvider p) (text : Text) : place key (syntheticValue key text) = (0, 0) := by
  cases key with
  | anthropicDelta | geminiText | geminiCodeExecOutput | geminiFuncCallArg =>
      rcases hp with rfl | rfl <;> simp [FieldKey.OfProvider] at hkey
  | responsesApiDelta eventType =>
      unfold place
      simp only
      split <;> rfl
  | _ => rfl

theorem readBack_of_openAi {p : Provider} (hp : OpenAiFamily p) {key : FieldKey}
    (hkey : key.OfProvider p) : key.readBack = key := by
  cases key with
  | geminiText | geminiCodeExecOutput | geminiFuncCallArg =>
      rcases hp with rfl | rfl <;> simp [FieldKey.OfProvider] at hkey
  | _ => rfl

/-! ### What the items show -/

section Items

variable {ctx : SseCtx} {frames : List Bytes} {st : RestoreState}

/-- The text of a synthetic frame, on the first place of its key. -/
private def firstPlace : Emission → List (Channel × Text)
  | .synthetic key text => [(⟨key, (0, 0)⟩, text)]
  | _ => []

private theorem addressed_item (h : Finished ctx frames st) (hp : OpenAiFamily ctx.provider)
    {e : Emission} (he : e ∈ st.items) : addressed ctx e = firstPlace e := by
  cases e with
  | synthetic key text =>
      obtain ⟨hne, cut, hcut, rfl, rfl⟩ := h.synthetic_mem he
      have hkey := h.ofProvider hcut
      simp only [addressed, Emission.value, Emission.fields_synthetic hkey hne, List.map_cons,
        List.map_nil, readBack_of_openAi hp hkey, place_syntheticValue hp hkey, firstPlace]
  | passthrough frame =>
      have hmem : .passthrough frame ∈ st.items.filter fun e => !e.made :=
        List.mem_filter.mpr ⟨he, rfl⟩
      rw [h.filter_items, passed, List.mem_map] at hmem
      obtain ⟨frame', hframe, heq⟩ := hmem
      obtain rfl := Emission.passthrough.inj heq
      have hext : extracted ctx frame' = [] := by simpa using (List.mem_filter.mp hframe).2
      unfold addressed
      split
      · rw [Emission.fields_passthrough, hext]
        rfl
      · rfl
  | deferred extra =>
      have hmem : .deferred extra ∈ st.items.filter Emission.isDeferred :=
        List.mem_filter.mpr ⟨he, rfl⟩
      rw [h.deferred_items, collected_eq_nil hp.ne_gemini] at hmem
      cases hmem
  | raw bytes => rfl

/-- The output stands on the first places only. -/
theorem onChannel_items (h : Finished ctx frames st) (hp : OpenAiFamily ctx.provider)
    (ch : Channel) :
    onChannel ctx ch st.items =
      if ch.place = (0, 0) then Text.concat (emittedTexts ch.key st.items) else Text.empty := by
  have hall : ∀ e ∈ st.items, addressed ctx e = firstPlace e := fun _ => addressed_item h hp
  generalize st.items = es at hall
  induction es with
  | nil => simp [onChannel, textOn, emittedTexts]
  | cons e es ih =>
      have ih := ih fun e' he' => hall e' (by simp [he'])
      rw [onChannel, List.flatMap_cons, textOn_append, ← onChannel, ih, hall e (by simp),
        ← List.singleton_append, emittedTexts_append, Text.concat_append]
      obtain ⟨key, place⟩ := ch
      cases e with
      | synthetic key' text =>
          by_cases hplace : place = (0, 0)
          · subst hplace
            by_cases hk : key' = key <;> simp [firstPlace, textOn, emittedTexts, hk]
          · simp [firstPlace, textOn, hplace, Ne.symm hplace]
      | _ => simp [firstPlace, textOn, emittedTexts]

/-- What is restored is restored for the first places only. -/
theorem segments_on_channel (h : Finished ctx frames st) (hp : OpenAiFamily ctx.provider)
    (ch : Channel) :
    Text.concat ((st.cuts.filter fun cut => cut.channel = ch).map Cut.segment) =
      if ch.place = (0, 0) then received ctx ch.key frames else Text.empty := by
  have hchannel : ∀ cut ∈ st.cuts, cut.channel = ⟨cut.key, (0, 0)⟩ := by
    intro cut hcut
    rw [Cut.channel, place_syntheticValue hp (h.ofProvider hcut)]
  obtain ⟨key, place⟩ := ch
  by_cases hplace : place = (0, 0)
  · subst hplace
    have hfilter : (st.cuts.filter fun cut => cut.channel = ⟨key, (0, 0)⟩) = st.cutsFor key := by
      apply List.filter_congr
      intro cut hcut
      simp [hchannel cut hcut]
    rw [hfilter, if_pos rfl]
    exact h.handed_eq key
  · have hfilter : (st.cuts.filter fun cut => cut.channel = ⟨key, place⟩) = [] := by
      rw [List.filter_eq_nil_iff]
      intro cut hcut
      simp [hchannel cut hcut, Ne.symm hplace]
    rw [hfilter, if_neg hplace]
    rfl

end Items

/-! ### What has arrived -/

/-- Fields of one event on the first places. -/
private theorem textOn_fields {v : Json} {fields : List ExtractedField}
    (h : ∀ f ∈ fields, f.key.isDelta = true → f.text ≠ Text.empty → place f.key v = (0, 0))
    {ch : Channel} (hdelta : ch.key.isDelta = true) :
    textOn ch (fields.map fun f => (⟨f.key, place f.key v⟩, f.text)) =
      if ch.place = (0, 0) then textFor ch.key fields else Text.empty := by
  induction fields with
  | nil => simp [textOn, textFor]
  | cons f fields ih =>
      rw [List.map_cons, textOn_cons, ih fun f' hf' => h f' (by simp [hf']), textFor_cons]
      obtain ⟨key, place'⟩ := ch
      by_cases hk : f.key = key
      · by_cases ht : f.text = Text.empty
        · simp [ht]
        · have hplace := h f (by simp) (by rw [hk]; exact hdelta) ht
          rw [hplace]
          by_cases hp : place' = (0, 0)
          · simp [hk, hp]
          · simp [hp, Ne.symm hp]
      · simp [hk]

/-- When all text is on the first places, so is what arrived on a channel. -/
theorem onChannel_arrived {ctx : SseCtx} {frames : List Bytes} (h : OnePlace ctx frames)
    {ch : Channel} (hdelta : ch.key.isDelta = true) :
    onChannel ctx ch (arrived frames) =
      if ch.place = (0, 0) then received ctx ch.key frames else Text.empty := by
  induction frames with
  | nil => simp [onChannel, arrived, textOn, received]
  | cons frame frames ih =>
      have ih := ih fun frame' hframe => h frame' (by simp [hframe])
      have hone : textOn ch (addressed ctx (.passthrough frame)) =
          if ch.place = (0, 0) then textFor ch.key (extracted ctx frame) else Text.empty := by
        cases hv : frameValue ctx frame with
        | none =>
            have hvalue : (Emission.passthrough frame).value ctx.crates = none := hv
            have hext : extracted ctx frame = [] := by
              rw [← Emission.fields_passthrough, Emission.fields, hvalue]
            simp [addressed, hvalue, hext, textOn, textFor]
        | some v =>
            have hvalue : (Emission.passthrough frame).value ctx.crates = some v := hv
            rw [addressed, hvalue]
            exact textOn_fields (h frame (by simp) v hv) hdelta
      rw [arrived, List.map_cons, ← arrived, onChannel, List.flatMap_cons, textOn_append,
        ← onChannel, ih, hone, received_cons]
      by_cases hp : ch.place = (0, 0)
      · simp [hp]
      · simp [hp]

/-! ### Channels are kept -/

/-- A key of another provider shows that restore leaves no text alone. -/
private theorem restoreText_empty {ctx : SseCtx} {frames : List Bytes} {st : RestoreState}
    (h : Finished ctx frames st) (hp : OpenAiFamily ctx.provider)
    (hagree : WindowAgrees ctx frames) :
    ctx.crates.restoreText ctx.entries Text.empty = .ok Text.empty := by
  have hcuts : st.cutsFor (.geminiText false) = [] := by
    rw [RestoreState.cutsFor, List.filter_eq_nil_iff]
    intro cut hcut hkey
    have hof := h.ofProvider hcut
    rw [show cut.key = .geminiText false by simpa using hkey] at hof
    exact hp.ne_gemini hof
  have hreceived := h.handed_eq (.geminiText false)
  have hshown := h.emittedTexts_items (.geminiText false)
  rw [RestoreState.handed, hcuts] at hreceived
  rw [hcuts] at hshown
  have hkey := hagree st h (.geminiText false)
  rwa [← hreceived, hshown] at hkey

/-- Text stays with its channel exactly when every delta with text is addressed
to index zero. -/
theorem channelsKept_iff {ctx : SseCtx} (hr : RestoresText ctx.crates ctx.entries)
    (hp : OpenAiFamily ctx.provider) {frames : List Bytes} (hagree : WindowAgrees ctx frames) :
    ∃ st, Finished ctx frames st ∧ (ChannelsKept ctx frames st ↔ OnePlace ctx frames) := by
  obtain ⟨st, h⟩ := hr.finished frames
  refine ⟨st, h, ?_, ?_⟩
  · intro hkept frame hframe v hv f hf hdelta htext
    by_contra hplace
    have hempty := hkept.separate ⟨f.key, place f.key v⟩ hdelta
    rw [segments_on_channel h hp, if_neg hplace] at hempty
    apply htext
    apply eq_empty_of_textOn hempty.symm
    apply List.mem_flatMap.mpr
    refine ⟨.passthrough frame, List.mem_map_of_mem hframe, ?_⟩
    have hvalue : (Emission.passthrough frame).value ctx.crates = some v := hv
    rw [addressed, hvalue]
    exact List.mem_map.mpr ⟨f, hf, rfl⟩
  · intro hone
    constructor
    · intro ch hdelta
      rw [onChannel_arrived hone hdelta, onChannel_items h hp]
      by_cases hplace : ch.place = (0, 0)
      · rw [if_pos hplace, if_pos hplace]
        exact hagree st h ch.key
      · rw [if_neg hplace, if_neg hplace]
        exact restoreText_empty h hp hagree
    · intro ch hdelta
      rw [onChannel_arrived hone hdelta, segments_on_channel h hp]

/-! ### Texts without fakes -/

open LeftmostRewrite

private theorem restoreText_of_no_fake {c : Crates} {π : Policy UInt8} (hc : Rewrites c π)
    {entries : List Entry} {text : Text}
    (h : ∀ e ∈ entries, e.fake ≠ [] → ¬ e.fake <:+: text.bytes) :
    c.restoreText entries text = .ok text := by
  have hcopy : rewrite π (rules entries) text.bytes = text.bytes := by
    apply rewrite_of_no_occurrence
    intro r hr
    obtain ⟨e, he, rfl⟩ := List.mem_map.mp hr
    exact h e he
  have htext : Text.ofUtf8? text.bytes = some text := Text.ofUtf8?_eq_some.mpr rfl
  simp only [Crates.restoreText, hc entries text.bytes, hcopy, htext]

/-- Where no fake occurs in the text of any key, the window changes nothing. -/
theorem windowAgrees_of_no_fake {ctx : SseCtx} {π : Policy UInt8} (hc : Rewrites ctx.crates π)
    {frames : List Bytes} (h : ∀ key, ∀ e ∈ ctx.entries, e.fake ≠ [] →
      ¬ e.fake <:+: (received ctx key frames).bytes) :
    WindowAgrees ctx frames := by
  intro st hst key
  rw [restoreText_of_no_fake hc (h key)]
  obtain ⟨cuts, hsound, hconcat, hshown⟩ := hst.restoredTo key
  have hcut : ∀ cut ∈ cuts, cut.shown = some cut.segment := by
    intro cut hcut
    have hin : cut.segment.bytes <:+: (received ctx key frames).bytes := by
      rw [← hconcat, Text.bytes_concat]
      exact List.infix_of_mem_flatten
        (List.mem_map_of_mem (List.mem_map_of_mem hcut))
    obtain ⟨hne, hrestore⟩ := hsound cut hcut
    rw [restoreText_of_no_fake hc fun e he hf hocc => h key e he hf (hocc.trans hin)] at hrestore
    have heq : cut.segment = cut.restored := Except.ok.inj hrestore
    rw [Cut.shown, ← heq, if_neg hne]
  have hall : cuts.filterMap Cut.shown = cuts.map Cut.segment := by
    rw [List.filterMap_congr hcut, List.filterMap_eq_map']
  rw [hshown, hall, hconcat]

/-! ### Two choices -/

/-- A chunk of one of several choices. -/
def choiceChunk (index : UInt64) (text : Text) : Json :=
  .object [("choices", .array [.object [("delta", .object [("content", .string text)]),
    ("index", .number (.ofU64 index))]])]

def choicesCtx : SseCtx := sampleCtx .openAi [choiceChunk 0 "a", choiceChunk 1 "b"]

private theorem choicesCtx_restoresText :
    RestoresText choicesCtx.crates choicesCtx.entries := sampleCtx_restoresText _ _

private theorem addressed_choice {index : UInt64} {text : Text}
    (hv : choiceChunk index text ∈ [choiceChunk 0 "a", choiceChunk 1 "b"])
    (ht : text ≠ Text.empty) :
    extracted choicesCtx (sampleFrame (choiceChunk index text)) = [⟨.openAiContent, text⟩] ∧
      addressed choicesCtx (.passthrough (sampleFrame (choiceChunk index text))) =
        [(⟨.openAiContent, (index, 0)⟩, text)] := by
  have hvalue : (Emission.passthrough (sampleFrame (choiceChunk index text))).value
      choicesCtx.crates = some (choiceChunk index text) := sampleFrame_value hv
  have hfield : nonemptyStringField .openAiContent (.object [("content", .string text)])
      "content" = [⟨.openAiContent, text⟩] := by
    rw [nonemptyStringField]
    exact if_neg ht
  have hext : extracted choicesCtx (sampleFrame (choiceChunk index text)) =
      [⟨.openAiContent, text⟩] := by
    rw [choicesCtx, sampleFrame_extracted hv]
    exact congrArg (· ++ [] ++ [] ++ [] ++ []) hfield
  have hplace : place .openAiContent (choiceChunk index text) =
      ((JsonNumber.asU64 (.ofU64 index)).getD 0, 0) := rfl
  refine ⟨hext, ?_⟩
  rw [addressed, hvalue, Emission.fields_passthrough, hext]
  simp [hplace]

/-- No fake occurs in the two letters. -/
private theorem windowAgrees_choices {frames : List Bytes}
    (h : ∀ key, (received choicesCtx key frames).length < 6) : WindowAgrees choicesCtx frames := by
  apply windowAgrees_of_no_fake (leftmostCrates_rewrites _ _)
  intro key e he _ hocc
  obtain rfl := List.mem_singleton.mp he
  have hlen := hocc.length_le
  have hfake : (lit "sk-4fs").length = 6 := by decide
  rw [hfake, Text.length_bytes] at hlen
  exact absurd (h key) (by omega)

private theorem received_choice (key : FieldKey) :
    received choicesCtx key [sampleFrame (choiceChunk 0 "a")] =
      if FieldKey.openAiContent = key then ("a" : Text) else Text.empty := by
  rw [received, List.map_singleton, (addressed_choice (by simp) (by decide)).1, textFor_cons]
  split <;> simp [textFor]

private theorem received_choices (key : FieldKey) :
    received choicesCtx key [sampleFrame (choiceChunk 0 "a"), sampleFrame (choiceChunk 1 "b")] =
      if FieldKey.openAiContent = key then ("ab" : Text) else Text.empty := by
  have hab : ("a" : Text) ++ "b" = "ab" := by decide
  rw [received_cons, received, List.map_singleton, (addressed_choice (by simp) (by decide)).1,
    (addressed_choice (by simp) (by decide)).1, textFor_cons, textFor_cons]
  split <;> simp [textFor, hab]

theorem channelsKept_choice : ∃ st, Finished choicesCtx [sampleFrame (choiceChunk 0 "a")] st ∧
    ChannelsKept choicesCtx [sampleFrame (choiceChunk 0 "a")] st := by
  have hagree : WindowAgrees choicesCtx [sampleFrame (choiceChunk 0 "a")] := by
    apply windowAgrees_choices
    intro key
    rw [received_choice]
    split <;> decide
  obtain ⟨st, hst, hiff⟩ := channelsKept_iff choicesCtx_restoresText (Or.inl rfl) hagree
  refine ⟨st, hst, hiff.mpr ?_⟩
  intro frame hframe v hv f hf _ _
  obtain rfl := List.mem_singleton.mp hframe
  rw [(addressed_choice (by simp) (by decide)).1] at hf
  obtain rfl := List.mem_singleton.mp hf
  obtain rfl : choiceChunk 0 "a" = v :=
    Option.some.inj ((sampleFrame_value (by simp)).symm.trans hv)
  have hplace : place .openAiContent (choiceChunk 0 "a") =
      ((JsonNumber.asU64 (.ofU64 0)).getD 0, 0) := rfl
  rw [hplace, JsonNumber.asU64_ofU64]
  rfl

/-- The second choice's text appears as the first's. -/
theorem channels_mixed :
    WindowAgrees choicesCtx [sampleFrame (choiceChunk 0 "a"), sampleFrame (choiceChunk 1 "b")] ∧
    ∃ st, Finished choicesCtx
        [sampleFrame (choiceChunk 0 "a"), sampleFrame (choiceChunk 1 "b")] st ∧
      onChannel choicesCtx ⟨.openAiContent, (1, 0)⟩
        (arrived [sampleFrame (choiceChunk 0 "a"), sampleFrame (choiceChunk 1 "b")]) = "b" ∧
      onChannel choicesCtx ⟨.openAiContent, (1, 0)⟩ st.items = Text.empty ∧
      onChannel choicesCtx ⟨.openAiContent, (0, 0)⟩ st.items = "ab" := by
  have hagree : WindowAgrees choicesCtx
      [sampleFrame (choiceChunk 0 "a"), sampleFrame (choiceChunk 1 "b")] := by
    apply windowAgrees_choices
    intro key
    rw [received_choices]
    split <;> decide
  obtain ⟨st, hst⟩ := choicesCtx_restoresText.finished
    [sampleFrame (choiceChunk 0 "a"), sampleFrame (choiceChunk 1 "b")]
  have hp : OpenAiFamily choicesCtx.provider := Or.inl rfl
  refine ⟨hagree, st, hst, ?_, ?_, ?_⟩
  · rw [onChannel, arrived, List.map_cons, List.map_singleton, List.flatMap_cons,
      List.flatMap_singleton, (addressed_choice (by simp) (by decide)).2,
      (addressed_choice (by simp) (by decide)).2]
    decide
  · exact (onChannel_items hst hp _).trans (if_neg (by decide))
  · rw [onChannel_items hst hp, if_pos rfl]
    have hkey := hagree st hst .openAiContent
    rw [received_choices, if_pos rfl] at hkey
    have hcopy : choicesCtx.crates.restoreText choicesCtx.entries "ab" = .ok "ab" :=
      restoreText_of_no_fake (leftmostCrates_rewrites _ _) (by decide)
    exact Except.ok.inj (hkey.symm.trans hcopy)

end LlmCacheProxy.Sse
