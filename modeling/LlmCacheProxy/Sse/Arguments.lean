import LlmCacheProxy.Sse.Deferred
import LlmCacheProxy.Sse.Whole
import Mathlib.Data.List.Nodup

/-!
# String arguments of Gemini function calls

An argument arrives complete, but it goes through the accumulator of its place
and name like a piece of text. It reaches the client as one value exactly when
the window takes the arguments of each place apart as they came.
-/

namespace LlmCacheProxy.Sse

/-- What parsing guarantees of objects: their members have distinct names. -/
def ParsesWellFormed (c : Serde) : Prop :=
  ∀ body v, c.parse body = some v → v.WellFormed

def FieldKey.argName : FieldKey → Option Text
  | .geminiFuncCallArg _ argKey => some argKey
  | _ => none

/-- A field that is a nonempty string argument, by argument name. -/
def ExtractedField.stringArg (f : ExtractedField) : Option (Text × Text) :=
  if f.text = Text.empty then none else f.key.argName.map fun argKey => (argKey, f.text)

/-! ### Arguments of one event -/

theorem stringArgs_ne_empty {json : Json} {a : Text × Text} (h : a ∈ stringArgs json) :
    a.2 ≠ Text.empty := by
  obtain ⟨fc, -, ha⟩ := List.mem_flatMap.mp h
  obtain ⟨arg, -, harg⟩ := List.mem_filterMap.mp ha
  obtain ⟨text, -, htext⟩ := Option.bind_eq_some_iff.mp harg
  split at htext
  · cases htext
  · rename_i hne
    obtain rfl := Option.some.inj htext
    exact hne

private theorem filterMap_stringArg_eq_nil {fields : List ExtractedField}
    (h : ∀ f ∈ fields, f.key.argName = none) :
    fields.filterMap ExtractedField.stringArg = [] := by
  rw [List.filterMap_eq_nil_iff]
  intro f hf
  rw [ExtractedField.stringArg, h f hf]
  simp

private theorem pointer_args (part : Json) :
    part.pointer ["functionCall", "args"] =
      (part.get "functionCall").bind fun fc => fc.get "args" := by
  have hget (name : Text) (hname : Json.parseIndex name = none) (path : List Text) (j : Json) :
      j.pointer (name :: path) = (j.get name).bind (Json.pointer path) := by
    cases j <;> simp [Json.pointer, Json.get, hname]
  rw [hget "functionCall" rfl]
  congr 1
  funext fc
  rw [hget "args" rfl]
  simp [Json.pointer]

private theorem extractGeminiPart_stringArgs (partIndex : Nat) (part : Json) :
    (extractGeminiPart partIndex part).filterMap ExtractedField.stringArg =
      (part.get "functionCall").toList.flatMap fun fc => (callArgs fc).filterMap fun arg =>
        arg.2.asStr.bind fun text => if text = Text.empty then none else some (arg.1, text) := by
  have hargs (args : List (Text × Json)) :
      (extractFuncCallArgs partIndex args).filterMap ExtractedField.stringArg =
        args.filterMap fun arg => arg.2.asStr.bind fun text =>
          if text = Text.empty then none else some (arg.1, text) := by
    rw [extractFuncCallArgs, List.filterMap_filterMap]
    congr 1
    funext arg
    cases arg.2.asStr <;> simp [ExtractedField.stringArg, FieldKey.argName]
  rw [extractGeminiPart, List.filterMap_append, List.filterMap_append,
    filterMap_stringArg_eq_nil, filterMap_stringArg_eq_nil, hargs, pointer_args]
  · cases part.get "functionCall" with
    | none => rfl
    | some fc => simp [callArgs]
  · intro f hf
    split at hf
    · obtain rfl := List.mem_singleton.mp hf
      rfl
    · cases hf
  · intro f hf
    rw [mem_stringField hf]
    rfl

/-- The string arguments of an event are among its fields. -/
theorem extractGemini_stringArgs (json : Json) :
    (extractGemini json).filterMap ExtractedField.stringArg = stringArgs json := by
  have hparts (parts : List Json) (n : Nat) :
      ((parts.zipIdx n).map fun p => extractGeminiPart p.2 p.1).flatten.filterMap
          ExtractedField.stringArg =
        (parts.filterMap fun part => part.get "functionCall").flatMap fun fc =>
          (callArgs fc).filterMap fun arg => arg.2.asStr.bind fun text =>
            if text = Text.empty then none else some (arg.1, text) := by
    induction parts generalizing n with
    | nil => rfl
    | cons part parts ih =>
        rw [List.zipIdx_cons, List.map_cons, List.flatten_cons, List.filterMap_append, ih,
          extractGeminiPart_stringArgs, List.filterMap_cons]
        cases part.get "functionCall" <;> simp
  unfold extractGemini stringArgs functionCalls
  cases (json.pointer ["candidates", "0", "content", "parts"]).bind Json.asArray with
  | none => rfl
  | some parts => exact hparts parts 0

/-! ### One argument in one place -/

private theorem countP_funcCallArgs {args : List (Text × Json)}
    (hn : (args.map Prod.fst).Nodup) (n i : Nat) (argKey : Text) :
    (extractFuncCallArgs n args).countP (fun f => f.key = .geminiFuncCallArg i argKey) ≤
      if n = i then 1 else 0 := by
  have hle : (extractFuncCallArgs n args).countP
      (fun f => f.key = .geminiFuncCallArg i argKey) ≤
        if n = i then (args.map Prod.fst).count argKey else 0 := by
    induction args with
    | nil => simp [extractFuncCallArgs]
    | cons arg args ih =>
        have ih := ih (List.nodup_cons.mp hn).2
        have hcons : extractFuncCallArgs n (arg :: args) =
            (arg.2.asStr.map fun text => ⟨.geminiFuncCallArg n arg.1, text⟩).toList ++
              extractFuncCallArgs n args := by
          rw [extractFuncCallArgs, List.filterMap_cons]
          cases arg.2.asStr <;> rfl
        rw [hcons, List.countP_append, List.map_cons, List.count_cons]
        cases arg.2.asStr with
        | none =>
            refine (Nat.add_le_add_left ih _).trans ?_
            by_cases hi : n = i <;> simp [hi]
        | some text =>
            by_cases hi : n = i
            · subst hi
              by_cases hk : arg.1 = argKey
              · simp only [if_pos] at ih
                simpa [hk, Nat.add_comm] using ih
              · simpa [hk] using ih
            · simpa [hi] using ih
  refine hle.trans ?_
  split
  · exact List.nodup_iff_count_le_one.mp hn argKey
  · exact le_rfl

private theorem countP_part {part : Json} (hpart : part.WellFormed) (n i : Nat) (argKey : Text) :
    (extractGeminiPart n part).countP (fun f => f.key = .geminiFuncCallArg i argKey) ≤
      if n = i then 1 else 0 := by
  have hzero {fields : List ExtractedField} (h : ∀ f ∈ fields, f.key.argName = none) :
      fields.countP (fun f => f.key = .geminiFuncCallArg i argKey) = 0 := by
    rw [List.countP_eq_zero]
    intro f hf hkey
    have hnone := h f hf
    rw [of_decide_eq_true hkey] at hnone
    cases hnone
  rw [extractGeminiPart, List.countP_append, List.countP_append, hzero, hzero, Nat.zero_add]
  · apply countP_funcCallArgs
    cases hargs : (part.pointer ["functionCall", "args"]).bind Json.asObject with
    | none => exact List.nodup_nil
    | some args =>
        obtain ⟨v, hv, hobject⟩ := Option.bind_eq_some_iff.mp hargs
        have hwf := hpart.pointer hv
        cases v with
        | object members =>
            obtain rfl := Option.some.inj hobject
            exact hwf.of_object.1
        | _ => cases hobject
  · intro f hf
    split at hf
    · obtain rfl := List.mem_singleton.mp hf
      rfl
    · cases hf
  · intro f hf
    rw [mem_stringField hf]
    rfl

/-- No two arguments of an event share place and name. -/
theorem extractGemini_once {json : Json} (hjson : json.WellFormed) (i : Nat) (argKey : Text) :
    ((extractGemini json).filter fun f => f.key = .geminiFuncCallArg i argKey).length ≤ 1 := by
  have hparts (parts : List Json) (hwf : ∀ part ∈ parts, part.WellFormed) (n : Nat) :
      ((parts.zipIdx n).map fun p => extractGeminiPart p.2 p.1).flatten.countP
          (fun f => f.key = .geminiFuncCallArg i argKey) ≤ if n ≤ i then 1 else 0 := by
    induction parts generalizing n with
    | nil => simp
    | cons part parts ih =>
        have hhead := countP_part (hwf part (by simp)) n i argKey
        have htail := ih (fun p hp => hwf p (by simp [hp])) (n + 1)
        rw [List.zipIdx_cons, List.map_cons, List.flatten_cons, List.countP_append]
        refine (Nat.add_le_add hhead htail).trans ?_
        split_ifs <;> omega
  rw [← List.countP_eq_length_filter]
  unfold extractGemini
  split
  · exact Nat.zero_le 1
  · rename_i parts hparts'
    obtain ⟨v, hv, harray⟩ := Option.bind_eq_some_iff.mp hparts'
    have hwf := hjson.pointer hv
    cases v with
    | array elems =>
        obtain rfl := Option.some.inj harray
        refine (hparts elems hwf.of_array 0).trans ?_
        simp
    | _ => cases harray

/-! ### Arguments of a stream -/

/-- Each string argument went through restore by itself, and the arguments in
the output are the restored ones, none of them more or less often. -/
structure ArgsAtomic (ctx : SseCtx) (frames : List Bytes) (st : RestoreState) : Prop where
  separate : ∀ partIndex argKey,
    (st.cutsFor (.geminiFuncCallArg partIndex argKey)).map Cut.segment =
      valuesOf ctx (.geminiFuncCallArg partIndex argKey) frames
  restored :
    ((readAll ctx stringArgs st.items).map fun a => (a.1, Except.ok a.2)).Perm
      ((readAll ctx stringArgs (arrived frames)).map fun a =>
        (a.1, ctx.crates.restoreText ctx.entries a.2))

/-- For each place and name, the window cuts between the arguments and nowhere
else, and no argument restores to nothing. -/
structure ArgsApart (ctx : SseCtx) (frames : List Bytes) : Prop where
  whole : ∀ partIndex argKey,
    Whole ctx Text.empty (frames.map (keyInput ctx (.geminiFuncCallArg partIndex argKey)))
  lasting : ∀ a ∈ readAll ctx stringArgs (arrived frames),
    ctx.crates.restoreText ctx.entries a.2 ≠ .ok Text.empty

private theorem filterMap_perm {κ α β : Type} [DecidableEq κ] {name : κ → Option β}
    {xs ys : List (κ × α)}
    (h : ∀ k, name k ≠ none → (xs.filter fun p => p.1 = k) = ys.filter fun p => p.1 = k) :
    (xs.filterMap fun p => (name p.1).map fun n => (n, p.2)).Perm
      (ys.filterMap fun p => (name p.1).map fun n => (n, p.2)) := by
  classical
  have hnamed (zs : List (κ × α)) :
      (zs.filterMap fun p => (name p.1).map fun n => (n, p.2)) =
        (zs.filter fun p => (name p.1).isSome).filterMap
          fun p => (name p.1).map fun n => (n, p.2) := by
    rw [List.filterMap_filter]
    congr 1
    funext p
    cases name p.1 <;> rfl
  rw [hnamed xs, hnamed ys]
  apply List.Perm.filterMap
  rw [List.perm_iff_count]
  intro p
  cases hname : name p.1 with
  | none =>
      have hzero (zs : List (κ × α)) :
          (zs.filter fun p => (name p.1).isSome).count p = 0 := by
        rw [List.count_eq_zero]
        intro hmem
        simpa [hname] using (List.mem_filter.mp hmem).2
      rw [hzero, hzero]
  | some n =>
      have hfilter (zs : List (κ × α)) :
          (zs.filter fun p => (name p.1).isSome).count p =
            (zs.filter fun q => q.1 = p.1).count p := by
        have hnamed : (name p.1).isSome = true := by simp [hname]
        have hsame : decide (p.1 = p.1) = true := by simp
        rw [List.count_filter (p := fun q : κ × α => (name q.1).isSome) hnamed,
          List.count_filter (p := fun q : κ × α => decide (q.1 = p.1)) hsame]
      rw [hfilter, hfilter, h p.1 (by simp [hname])]

/-- The synthetic frames among the items, with their keys. -/
private def shownTexts (items : List Emission) : List (FieldKey × Text) :=
  items.filterMap fun e =>
    match e with
    | .synthetic key text => some (key, text)
    | _ => none

private theorem filter_shownTexts (key : FieldKey) (items : List Emission) :
    ((shownTexts items).filter fun p => p.1 = key) =
      (emittedTexts key items).map fun text => (key, text) := by
  induction items with
  | nil => rfl
  | cons e items ih =>
      simp only [shownTexts, emittedTexts, List.filterMap_cons] at ih ⊢
      cases e with
      | synthetic k text =>
          by_cases hk : k = key
          · simp [hk, ih]
          · simp [hk, ih]
      | passthrough frame => exact ih
      | deferred extra => exact ih
      | raw bytes => exact ih

private theorem filter_received (ctx : SseCtx) (key : FieldKey) (frames : List Bytes) :
    (((frames.flatMap fun frame =>
        (extracted ctx frame).filter fun f => f.text ≠ Text.empty).map
          fun f => (f.key, f.text)).filter fun p => p.1 = key) =
      (valuesOf ctx key frames).map fun text => (key, text) := by
  induction frames with
  | nil => rfl
  | cons frame frames ih =>
      rw [valuesOf, List.flatMap_cons, List.flatMap_cons, List.map_append, List.map_append,
        List.filter_append, ih, valuesOf]
      congr 1
      rw [List.filter_map, List.filter_filter, List.map_map]
      have hsame : ((extracted ctx frame).filter fun f =>
          decide (f.key = key) && decide (f.text ≠ Text.empty)) =
            (extracted ctx frame).filter fun f => f.key = key ∧ f.text ≠ Text.empty := by
        apply List.filter_congr
        intro f _
        simp
      simp only [Function.comp_def]
      rw [hsame]
      apply List.map_congr_left
      intro f hf
      have hkey := (List.mem_filter.mp hf).2
      simp only [decide_eq_true_eq] at hkey
      rw [hkey.1]

/-- A key and a text as an argument, if the key is one of an argument. -/
private def named {α : Type} (p : FieldKey × α) : Option (Text × α) :=
  p.1.argName.map fun argKey => (argKey, p.2)

/-- The argument that a synthetic frame holds. -/
private def shownArg : Emission → Option (Text × Text)
  | .synthetic key text => named (key, text)
  | _ => none

section Gemini

variable {ctx : SseCtx} {frames : List Bytes} {st : RestoreState}

private theorem stringArgs_passthrough (hp : ctx.provider = .gemini) (frame : Bytes) :
    (((Emission.passthrough frame).value ctx.crates).map stringArgs).getD [] =
      (extracted ctx frame).filterMap ExtractedField.stringArg := by
  unfold extracted
  simp only [Emission.value, hp]
  cases (dataContent frame).bind ctx.crates.parse with
  | none => rfl
  | some json => exact (extractGemini_stringArgs json).symm

private theorem readArgs_frames (hp : ctx.provider = .gemini) :
    readAll ctx stringArgs (arrived frames) =
      ((frames.flatMap fun frame =>
        (extracted ctx frame).filter fun f => f.text ≠ Text.empty).map
          fun f => (f.key, f.text)).filterMap named := by
  rw [readAll, arrived, List.flatMap_map]
  induction frames with
  | nil => rfl
  | cons frame frames ih =>
      have hframe : (extracted ctx frame).filterMap ExtractedField.stringArg =
          (((extracted ctx frame).filter fun f => f.text ≠ Text.empty).map
            fun f => (f.key, f.text)).filterMap named := by
        rw [List.filterMap_map, List.filterMap_filter]
        congr 1
        funext f
        by_cases hf : f.text = Text.empty <;> simp [ExtractedField.stringArg, named, hf]
      rw [List.flatMap_cons, List.flatMap_cons, List.map_append, List.filterMap_append, ih,
        stringArgs_passthrough hp, hframe]

private theorem readArgs_item (hp : ctx.provider = .gemini) (h : Finished ctx frames st)
    {e : Emission} (he : e ∈ st.items) :
    ((e.value ctx.crates).map stringArgs).getD [] = (shownArg e).toList := by
  cases e with
  | synthetic key text =>
      obtain ⟨hne, cut, hcut, rfl, -⟩ := h.synthetic_mem he
      have hkey := h.ofProvider hcut
      have hfields := extractFields_syntheticValue hkey hne
      rw [hp] at hfields
      have hname : cut.key.readBack.argName = cut.key.argName := by
        cases cut.key <;> rfl
      calc
        stringArgs (syntheticValue cut.key text) =
            (extractGemini (syntheticValue cut.key text)).filterMap ExtractedField.stringArg :=
          (extractGemini_stringArgs _).symm
        _ = [(⟨cut.key.readBack, text⟩ : ExtractedField)].filterMap ExtractedField.stringArg :=
          congrArg (List.filterMap ExtractedField.stringArg) hfields
        _ = (named (cut.key, text)).toList := by
          rw [List.filterMap_cons, ExtractedField.stringArg, if_neg hne, named, hname]
          cases cut.key.argName <;> rfl
  | passthrough frame =>
      have hmem : frame ∈ passedFrames st.items := List.mem_filterMap.mpr ⟨_, he, rfl⟩
      rw [h.passedFrames_items] at hmem
      have hnil := List.isEmpty_iff.mp (List.mem_filter.mp hmem).2
      rw [stringArgs_passthrough hp, hnil]
      rfl
  | deferred extra =>
      obtain ⟨json, rfl⟩ := h.deferred_eq he
      exact stringArgs_extra json
  | raw bytes => rfl

private theorem readArgs_items (hp : ctx.provider = .gemini) (h : Finished ctx frames st) :
    readAll ctx stringArgs st.items = (shownTexts st.items).filterMap named := by
  have hshown : (shownTexts st.items).filterMap named = st.items.filterMap shownArg := by
    rw [shownTexts, List.filterMap_filterMap]
    congr 1
    funext e
    cases e <;> rfl
  rw [hshown, List.filterMap_eq_flatMap_toList]
  exact List.flatMap_congr fun e he => readArgs_item hp h he

private theorem arrivals_args (hp : ctx.provider = .gemini)
    (hparse : ParsesWellFormed ctx.crates.toSerde) (frames : List Bytes) (i : Nat) (k : Text) :
    arrivals ctx (.geminiFuncCallArg i k) frames =
      valuesOf ctx (.geminiFuncCallArg i k) frames := by
  apply arrivals_eq
  intro frame _
  unfold extracted
  split
  · rename_i json hjson
    obtain ⟨data, -, hdata⟩ := Option.bind_eq_some_iff.mp hjson
    rw [hp]
    exact extractGemini_once (hparse data json hdata) i k
  · exact Nat.zero_le 1

/-- The arguments that reach the client are not empty. -/
private theorem readArgs_ne_empty {es : List Emission} {a : Text × Text}
    (ha : a ∈ readAll ctx stringArgs es) : a.2 ≠ Text.empty := by
  obtain ⟨e, -, he⟩ := List.mem_flatMap.mp ha
  cases hvalue : e.value ctx.crates with
  | none => simp [hvalue] at he
  | some json =>
      rw [hvalue] at he
      exact stringArgs_ne_empty he

/-- The nonempty texts of a place are among the arguments that arrived. -/
private theorem mem_readArgs_of_value (hp : ctx.provider = .gemini) {i : Nat} {k t : Text}
    (ht : t ∈ valuesOf ctx (.geminiFuncCallArg i k) frames) :
    (k, t) ∈ readAll ctx stringArgs (arrived frames) := by
  obtain ⟨frame, hframe, ht⟩ := List.mem_flatMap.mp ht
  obtain ⟨f, hf, rfl⟩ := List.mem_map.mp ht
  obtain ⟨hf, hfkey⟩ := List.mem_filter.mp hf
  obtain ⟨hkey, hne⟩ := of_decide_eq_true hfkey
  rw [readArgs_frames hp]
  refine List.mem_filterMap.mpr ⟨(f.key, f.text), ?_, by rw [named, hkey]; rfl⟩
  refine List.mem_map.mpr ⟨f, List.mem_flatMap.mpr ⟨frame, hframe, ?_⟩, rfl⟩
  exact List.mem_filter.mpr ⟨hf, decide_eq_true hne⟩

private theorem map_named {α β : Type} (g : α → β) (xs : List (FieldKey × α)) :
    (xs.filterMap named).map (fun a => (a.1, g a.2)) =
      (xs.map fun p => (p.1, g p.2)).filterMap
        fun p => p.1.argName.map fun argKey => (argKey, p.2) := by
  rw [List.map_filterMap, List.filterMap_map]
  congr 1
  funext p
  simp only [named, Function.comp]
  cases p.1.argName <;> rfl

/-- Where every place shows its own arguments restored, all of them are there. -/
private theorem readArgs_perm (hp : ctx.provider = .gemini) (h : Finished ctx frames st)
    (hshown : ∀ i k, (emittedTexts (.geminiFuncCallArg i k) st.items).map Except.ok =
      (valuesOf ctx (.geminiFuncCallArg i k) frames).map (ctx.crates.restoreText ctx.entries)) :
    ((readAll ctx stringArgs st.items).map fun a => (a.1, Except.ok a.2)).Perm
      ((readAll ctx stringArgs (arrived frames)).map fun a =>
        (a.1, ctx.crates.restoreText ctx.entries a.2)) := by
  -- both sides, with the keys still on them, agree key by key
  rw [readArgs_items hp h, readArgs_frames hp, map_named, map_named]
  apply filterMap_perm
  intro key hname
  have hfilter {α β : Type} (g : α → β) (xs : List (FieldKey × α)) :
      ((xs.map fun p => (p.1, g p.2)).filter fun p => p.1 = key) =
        (xs.filter fun p => p.1 = key).map fun p => (p.1, g p.2) := by
    rw [List.filter_map]
    rfl
  rw [hfilter, hfilter, filter_shownTexts, filter_received, List.map_map, List.map_map]
  cases key with
  | geminiFuncCallArg i k =>
      have hpairs := congrArg (List.map fun r => (FieldKey.geminiFuncCallArg i k, r)) (hshown i k)
      rw [List.map_map, List.map_map] at hpairs
      exact hpairs
  | _ => exact absurd rfl hname

/-- Gemini's arguments come out atomic exactly when the window keeps them apart. -/
theorem argsAtomic_iff (hr : RestoresText ctx.crates ctx.entries) (hp : ctx.provider = .gemini)
    (hparse : ParsesWellFormed ctx.crates.toSerde) (frames : List Bytes) :
    ∃ st, Finished ctx frames st ∧ (ArgsAtomic ctx frames st ↔ ArgsApart ctx frames) := by
  obtain ⟨st, h⟩ := hr.finished frames
  refine ⟨st, h, ?_⟩
  have hvalues := arrivals_args hp hparse frames
  constructor
  · rintro ⟨hseparate, hrestored⟩
    refine ⟨fun i k => ?_, fun a ha hempty => ?_⟩
    · rw [← h.segments_iff, hvalues]
      exact hseparate i k
    · have hmem : (a.1, (Except.ok Text.empty : Except IoError Text)) ∈
          (readAll ctx stringArgs st.items).map fun a => (a.1, Except.ok a.2) := by
        apply hrestored.mem_iff.mpr
        exact List.mem_map.mpr ⟨a, ha, by rw [hempty]⟩
      obtain ⟨b, hb, heq⟩ := List.mem_map.mp hmem
      exact readArgs_ne_empty hb (Except.ok.inj (Prod.mk.inj heq).2)
  · rintro ⟨hwhole, hlasting⟩
    have hkey (i : Nat) (k : Text) : KeyWhole ctx (.geminiFuncCallArg i k) frames st := by
      rw [h.keyWhole_iff, hvalues]
      exact ⟨hwhole i k, fun t ht => hlasting (k, t) (mem_readArgs_of_value hp ht)⟩
    constructor
    · intro i k
      rw [← hvalues]
      exact (hkey i k).segments
    · apply readArgs_perm hp h
      intro i k
      rw [← hvalues]
      exact (hkey i k).shown

end Gemini

/-! ### Two calls -/

/-- An event that calls a function with one argument. -/
def callEvent (text : Text) : Json :=
  geminiPart (.ofMembers [("functionCall", .ofMembers [("args",
    .ofMembers [("q", .string text)])])])

def callsCtx : SseCtx := sampleCtx .gemini [callEvent "abc", callEvent "def"]

private theorem callsCtx_restoresText : RestoresText callsCtx.crates callsCtx.entries :=
  sampleCtx_restoresText _ _

private theorem callsCtx_parsesWellFormed : ParsesWellFormed callsCtx.crates.toSerde := by
  have hone {k : Text} {v : Json} (hv : v.WellFormed) : (Json.object [(k, v)]).WellFormed :=
    .object (List.nodup_singleton k) (by simpa using hv)
  have helem {v : Json} (hv : v.WellFormed) : (Json.array [v]).WellFormed :=
    .array (by simpa using hv)
  have hcall (text : Text) : (callEvent text).WellFormed :=
    hone (helem (hone (hone (helem (hone (hone (hone (.string text))))))))
  intro body v hv
  have hmem : v ∈ [callEvent "abc", callEvent "def"] := Json.mem_of_serdeFor_parse hv
  simp only [List.mem_cons, List.not_mem_nil, or_false] at hmem
  rcases hmem with rfl | rfl
  · exact hcall "abc"
  · exact hcall "def"

private theorem extracted_call {text : Text}
    (hv : callEvent text ∈ [callEvent "abc", callEvent "def"]) :
    extracted callsCtx (sampleFrame (callEvent text)) = [⟨.geminiFuncCallArg 0 "q", text⟩] :=
  sampleFrame_extracted hv

private theorem readArgs_call {text : Text} (ht : text ≠ Text.empty)
    (hv : callEvent text ∈ [callEvent "abc", callEvent "def"]) :
    readAll callsCtx stringArgs [.passthrough (sampleFrame (callEvent text))] =
      [(("q" : Text), text)] := by
  rw [readAll, List.flatMap_singleton, stringArgs_passthrough rfl, extracted_call hv,
    List.filterMap_cons, ExtractedField.stringArg, if_neg ht]
  rfl

/-- Seen from a key, the calls bring their argument or nothing. -/
private theorem keyInput_call (key : FieldKey) {text : Text}
    (hv : callEvent text ∈ [callEvent "abc", callEvent "def"]) :
    keyInput callsCtx key (sampleFrame (callEvent text)) =
      .content (if FieldKey.geminiFuncCallArg 0 "q" = key then text else Text.empty) := by
  rw [keyInput, extracted_call hv]
  simp only [textFor_cons]
  split <;> simp [textFor]

theorem argsAtomic_call : ∃ st, Finished callsCtx [sampleFrame (callEvent "abc")] st ∧
    ArgsAtomic callsCtx [sampleFrame (callEvent "abc")] st := by
  obtain ⟨st, hst, hiff⟩ := argsAtomic_iff callsCtx_restoresText rfl callsCtx_parsesWellFormed
    [sampleFrame (callEvent "abc")]
  refine ⟨st, hst, hiff.mpr ⟨fun i k => ?_, fun a ha => ?_⟩⟩
  · rw [List.map_singleton, keyInput_call _ (by simp)]
    split
    · exact Or.inr ⟨cutBetween_of_le (by decide), trivial⟩
    · trivial
  · rw [arrived, List.map_singleton, readArgs_call (by decide) (by simp)] at ha
    obtain rfl := List.mem_singleton.mp ha
    decide +kernel

/-- The arguments of two calls reach the client as one. -/
theorem args_joined : ∃ st,
    Finished callsCtx [sampleFrame (callEvent "abc"), sampleFrame (callEvent "def")] st ∧
    readAll callsCtx stringArgs
        (arrived [sampleFrame (callEvent "abc"), sampleFrame (callEvent "def")]) =
        ([("q", "abc"), ("q", "def")] : List (Text × Text)) ∧
    emittedTexts (.geminiFuncCallArg 0 "q") st.items = ["abcdef"] ∧
    ¬ ArgsAtomic callsCtx [sampleFrame (callEvent "abc"), sampleFrame (callEvent "def")] st := by
  obtain ⟨st, hst⟩ := callsCtx_restoresText.finished
    [sampleFrame (callEvent "abc"), sampleFrame (callEvent "def")]
  have hargs : readAll callsCtx stringArgs
      (arrived [sampleFrame (callEvent "abc"), sampleFrame (callEvent "def")]) =
        ([("q", "abc"), ("q", "def")] : List (Text × Text)) := by
    have habc : readAll callsCtx stringArgs [.passthrough (sampleFrame (callEvent "abc"))] =
        [(("q" : Text), ("abc" : Text))] := readArgs_call (by decide) (by simp)
    have hdef : readAll callsCtx stringArgs [.passthrough (sampleFrame (callEvent "def"))] =
        [(("q" : Text), ("def" : Text))] := readArgs_call (by decide) (by simp)
    exact (readAll_append callsCtx stringArgs [_] [_]).trans (congrArg₂ _ habc hdef)
  have hcuts : st.cutsFor (.geminiFuncCallArg 0 "q") =
      [⟨.geminiFuncCallArg 0 "q", "abcdef", "abcdef"⟩] := by
    have hinputs : [sampleFrame (callEvent "abc"), sampleFrame (callEvent "def")].map
        (keyInput callsCtx (.geminiFuncCallArg 0 "q")) = [.content "abc", .content "def"] := by
      rw [List.map_cons, List.map_singleton, keyInput_call _ (by simp), keyInput_call _ (by simp),
        if_pos rfl, if_pos rfl]
    apply hst.cutsFor_of_run hinputs
    decide +kernel
  refine ⟨st, hst, hargs, ?_, ?_⟩
  · rw [hst.emittedTexts_items, hcuts]
    decide
  · rintro ⟨hseparate, -⟩
    have hlen := congrArg List.length (hseparate 0 "q")
    rw [hcuts, valuesOf, List.flatMap_cons, List.flatMap_singleton, extracted_call (by simp),
      extracted_call (by simp)] at hlen
    exact absurd hlen (by decide)

end LlmCacheProxy.Sse
