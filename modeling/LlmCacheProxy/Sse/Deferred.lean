import LlmCacheProxy.Sse.Readback
import Mathlib.Data.List.Induction

/-!
# What a Gemini frame puts off

The deferred frame of a Gemini event holds the metadata of the event and one
function call: each call that has something besides string arguments overwrites
the one before.
-/

namespace LlmCacheProxy.Sse

/-- The function calls of a Gemini event. -/
def functionCalls (json : Json) : List Json :=
  (((json.pointer ["candidates", "0", "content", "parts"]).bind Json.asArray).getD []).filterMap
    fun part => part.get "functionCall"

def callArgs (fc : Json) : List (Text × Json) := ((fc.get "args").bind Json.asObject).getD []

/-- The arguments of a function call that are no strings. -/
def otherArgs (fc : Json) : List (Text × Json) := (callArgs fc).filter fun arg => !arg.2.isString

/-- The nonempty string arguments of a Gemini event, by argument name. -/
def stringArgs (json : Json) : List (Text × Text) :=
  (functionCalls json).flatMap fun fc => (callArgs fc).filterMap fun arg =>
    arg.2.asStr.bind fun text => if text = Text.empty then none else some (arg.1, text)

/-- Something in a Gemini event that is not restored. -/
inductive NonText where
  | metadata (name : Text) (value : Json)
  | callName (name : Json)
  | callArg (argKey : Text) (value : Json)

def callNonText (fc : Json) : List NonText :=
  (fc.get "name").toList.map NonText.callName ++
    (otherArgs fc).map fun arg => NonText.callArg arg.1 arg.2

/-- Everything in a Gemini event that is not restored. -/
def nonText (json : Json) : List NonText :=
  (json.get "thoughtSignature").toList.map (NonText.metadata "thoughtSignature") ++
    (json.get "groundingMetadata").toList.map (NonText.metadata "groundingMetadata") ++
    (functionCalls json).flatMap callNonText

/-! ### One function call -/

/-- What is put off of a function call, unless there is nothing. -/
def carriedCall (fc : Json) : Option Json :=
  if ((functionCallExtra fc).asObject.getD []).isEmpty then none else some (functionCallExtra fc)

private theorem functionCallExtra_cases (fc : Json) :
    functionCallExtra fc = .object
      (match fc.get "name", otherArgs fc with
        | none, [] => []
        | none, args => [("args", .object args)]
        | some name, [] => [("name", name)]
        | some name, args => [("args", .object args), ("name", name)]) := by
  unfold functionCallExtra otherArgs callArgs
  cases fc.get "name" with
  | none =>
      cases (fc.get "args").bind Json.asObject with
      | none => rfl
      | some args =>
          simp only [Option.getD_some]
          cases args.filter fun arg => !arg.2.isString <;> rfl
  | some name =>
      cases (fc.get "args").bind Json.asObject with
      | none => rfl
      | some args =>
          simp only [Option.getD_some]
          cases args.filter fun arg => !arg.2.isString <;> rfl

private theorem get_name_extra (fc : Json) : (functionCallExtra fc).get "name" = fc.get "name" := by
  rw [functionCallExtra_cases]
  cases fc.get "name" <;> cases otherArgs fc <;> rfl

private theorem callArgs_extra (fc : Json) : callArgs (functionCallExtra fc) = otherArgs fc := by
  rw [callArgs, functionCallExtra_cases]
  cases fc.get "name" <;> cases otherArgs fc <;> rfl

/-- What is put off of a call is what is not restored of it. -/
theorem callNonText_extra (fc : Json) : callNonText (functionCallExtra fc) = callNonText fc := by
  have hother : otherArgs (functionCallExtra fc) = otherArgs fc := by
    rw [otherArgs, callArgs_extra, otherArgs, List.filter_filter]
    simp
  rw [callNonText, get_name_extra, hother, callNonText]

theorem carriedCall_eq_none_iff {fc : Json} : carriedCall fc = none ↔ callNonText fc = [] := by
  rw [carriedCall, functionCallExtra_cases, callNonText]
  cases fc.get "name" <;> cases otherArgs fc <;> simp [Json.asObject]

theorem carriedCall_eq_some {fc call : Json} (h : carriedCall fc = some call) :
    call = functionCallExtra fc := by
  unfold carriedCall at h
  split at h
  · cases h
  · exact (Option.some.inj h).symm

/-! ### The deferred frame -/

/-- A function call in the place where an event has it. -/
def callCandidates (call : Json) : Json :=
  .array [.ofMembers [("content", .ofMembers [("parts", .array [
    .ofMembers [("functionCall", call)]])])]]

/-- The metadata of an event, in an object of its own. -/
def metadataExtra (json : Json) : Json :=
  copyMember json "groundingMetadata" (copyMember json "thoughtSignature" (.object []))

/-- The call that is left after all the others were overwritten. -/
def lastCall (json : Json) : Option Json := ((functionCalls json).filterMap carriedCall).getLast?

private theorem foldl_set (k : Text) (value : Json → Json) (xs : List Json) (j : Json) :
    xs.foldl (fun acc x => acc.set k (value x)) j =
      match xs.getLast? with
      | none => j
      | some x => j.set k (value x) := by
  induction xs using List.reverseRecOn with
  | nil => rfl
  | append_singleton xs x ih =>
      rw [List.foldl_concat, ih, List.getLast?_concat]
      cases xs.getLast? with
      | none => rfl
      | some y => exact Json.set_set j k (value y) (value x)

/-- The metadata is kept, and of the function calls the last. -/
theorem geminiExtra_eq (json : Json) :
    geminiExtra json =
      match lastCall json with
      | none => metadataExtra json
      | some call => (metadataExtra json).set "candidates" (callCandidates call) := by
  rw [lastCall, ← foldl_set, List.foldl_filterMap, functionCalls, List.foldl_filterMap]
  apply List.foldl_ext
  intro extra part _
  cases part.get "functionCall" with
  | none => rfl
  | some fc =>
      simp only [carriedCall]
      split <;> rfl

private theorem copyMember_object (json : Json) (name : Text) (members : List (Text × Json)) :
    ∃ members', copyMember json name (.object members) = .object members' ∧
      ∀ k, Json.lookup k members' =
        if k = name then (json.get name).or (Json.lookup k members) else Json.lookup k members := by
  unfold copyMember
  cases json.get name with
  | none => exact ⟨members, rfl, fun k => by simp⟩
  | some v =>
      refine ⟨Json.insertMember name v members, rfl, fun k => ?_⟩
      rw [Json.lookup_insertMember]
      rfl

private theorem metadataExtra_object (json : Json) :
    ∃ members, metadataExtra json = .object members ∧
      Json.lookup "thoughtSignature" members = json.get "thoughtSignature" ∧
      Json.lookup "groundingMetadata" members = json.get "groundingMetadata" ∧
      Json.lookup "candidates" members = none := by
  obtain ⟨ms₁, h₁, hlookup₁⟩ := copyMember_object json "thoughtSignature" []
  obtain ⟨ms₂, h₂, hlookup₂⟩ := copyMember_object json "groundingMetadata" ms₁
  refine ⟨ms₂, ?_, ?_, ?_, ?_⟩
  · rw [metadataExtra, h₁, h₂]
  · rw [hlookup₂, if_neg (by decide), hlookup₁, if_pos rfl]
    simp [Json.lookup]
  · rw [hlookup₂, if_pos rfl, hlookup₁, if_neg (by decide)]
    simp [Json.lookup]
  · rw [hlookup₂, if_neg (by decide), hlookup₁, if_neg (by decide)]
    rfl

/-- The deferred frame has the function call that is left, and no other. -/
theorem functionCalls_extra (json : Json) :
    functionCalls (geminiExtra json) = (lastCall json).toList := by
  obtain ⟨members, hmembers, -, -, hnone⟩ := metadataExtra_object json
  rw [geminiExtra_eq, hmembers]
  cases lastCall json with
  | none => simp [functionCalls, Json.pointer, hnone]
  | some call =>
      have hfound : Json.lookup "candidates"
          (Json.insertMember "candidates" (callCandidates call) members) =
            some (callCandidates call) := by
        rw [Json.lookup_insertMember, if_pos rfl]
      simp only [functionCalls, Json.set, Json.pointer, hfound]
      rfl

/-- Of what is not restored, the deferred frame has the metadata and one call. -/
theorem nonText_extra (json : Json) :
    nonText (geminiExtra json) =
      (json.get "thoughtSignature").toList.map (NonText.metadata "thoughtSignature") ++
        (json.get "groundingMetadata").toList.map (NonText.metadata "groundingMetadata") ++
        (lastCall json).toList.flatMap callNonText := by
  obtain ⟨members, hmembers, hthought, hgrounding, -⟩ := metadataExtra_object json
  have hget (name : Text) (hname : name ≠ ("candidates" : Text)) :
      (geminiExtra json).get name = Json.lookup name members := by
    rw [geminiExtra_eq, hmembers]
    cases lastCall json with
    | none => rfl
    | some call => rw [Json.get_set_object, if_neg hname]
  rw [nonText, functionCalls_extra, hget _ (by decide), hget _ (by decide), hthought, hgrounding]

/-- A deferred frame has no string arguments. -/
theorem stringArgs_extra (json : Json) : stringArgs (geminiExtra json) = [] := by
  rw [stringArgs, functionCalls_extra]
  cases hlast : lastCall json with
  | none => rfl
  | some call =>
      obtain ⟨fc, -, hfc⟩ := List.mem_filterMap.mp (List.mem_of_getLast? hlast)
      rw [carriedCall_eq_some hfc, Option.toList_some, List.flatMap_singleton, callArgs_extra,
        List.filterMap_eq_nil_iff]
      rintro ⟨argKey, v⟩ harg
      have hstring := (List.mem_filter.mp harg).2
      cases v <;> simp_all [Json.isString, Json.asStr]

/-! ### What is lost -/

/-- The function calls of an event with something that is not restored. -/
def loudCalls (json : Json) : List Json :=
  (functionCalls json).filter fun fc => !(callNonText fc).isEmpty

private theorem carriedCall_eq (fc : Json) :
    carriedCall fc = if !(callNonText fc).isEmpty then some (functionCallExtra fc) else none := by
  cases hc : carriedCall fc with
  | none => simp [carriedCall_eq_none_iff.mp hc]
  | some call =>
      have hne : callNonText fc ≠ [] := by
        intro hnil
        rw [carriedCall_eq_none_iff.mpr hnil] at hc
        cases hc
      simp [hne, carriedCall_eq_some hc]

private theorem lastCall_nonText (json : Json) :
    (lastCall json).toList.flatMap callNonText =
      (loudCalls json).getLast?.toList.flatMap callNonText := by
  have hloud : (functionCalls json).filterMap carriedCall =
      (loudCalls json).map functionCallExtra := by
    rw [loudCalls, ← List.filterMap_eq_map, List.filterMap_filter]
    congr 1
    funext fc
    rw [carriedCall_eq]
    rfl
  rw [lastCall, hloud, List.getLast?_map]
  cases (loudCalls json).getLast? with
  | none => rfl
  | some fc => simp [callNonText_extra]

private theorem functionCalls_nonText (json : Json) :
    (functionCalls json).flatMap callNonText = (loudCalls json).flatMap callNonText := by
  unfold loudCalls
  induction functionCalls json with
  | nil => rfl
  | cons fc calls ih => by_cases hfc : callNonText fc = [] <;> simp [hfc, ih]

private theorem last_flatMap_iff {α β : Type} {f : α → List β} {xs : List α}
    (hne : ∀ x ∈ xs, f x ≠ []) :
    xs.getLast?.toList.flatMap f = xs.flatMap f ↔ xs.length ≤ 1 := by
  induction xs using List.reverseRecOn with
  | nil => simp
  | append_singleton front x _ =>
      have hfront : front.flatMap f = [] ↔ front = [] := by
        rw [List.flatMap_eq_nil_iff]
        constructor
        · intro hnil
          apply List.eq_nil_iff_forall_not_mem.mpr
          intro y hy
          exact hne y (by simp [hy]) (hnil y hy)
        · rintro rfl y hy
          cases hy
      rw [List.getLast?_concat, List.flatMap_append]
      simp [hfront]

/-- The deferred frame holds no more than the event did. -/
theorem nonText_extra_length (json : Json) :
    (nonText (geminiExtra json)).length ≤ (nonText json).length := by
  have hlast : ((loudCalls json).getLast?.toList.flatMap callNonText).length ≤
      ((loudCalls json).flatMap callNonText).length := by
    induction loudCalls json using List.reverseRecOn with
    | nil => exact le_rfl
    | append_singleton front fc _ => simp
  rw [nonText_extra, nonText, functionCalls_nonText, lastCall_nonText]
  simp only [List.length_append]
  exact Nat.add_le_add_left hlast _

/-- Nothing is lost of an event exactly when at most one of its calls counts. -/
theorem nonText_extra_iff (json : Json) :
    nonText (geminiExtra json) = nonText json ↔ (loudCalls json).length ≤ 1 := by
  have hloud : ∀ fc ∈ loudCalls json, callNonText fc ≠ [] := by
    intro fc hfc
    simpa using (List.mem_filter.mp hfc).2
  rw [nonText_extra, nonText, functionCalls_nonText, lastCall_nonText,
    List.append_cancel_left_eq, last_flatMap_iff hloud]

/-- An event without a deferred frame has nothing to put off. -/
theorem nonText_of_empty {json : Json} (h : ((geminiExtra json).asObject.getD []).isEmpty = true) :
    nonText (geminiExtra json) = [] := by
  obtain ⟨members, hmembers, -⟩ := metadataExtra_object json
  have hobject : ∃ ms, geminiExtra json = .object ms := by
    rw [geminiExtra_eq, hmembers]
    cases lastCall json <;> exact ⟨_, rfl⟩
  obtain ⟨ms, hms⟩ := hobject
  rw [hms] at h ⊢
  obtain rfl : ms = [] := List.isEmpty_iff.mp h
  rfl

end LlmCacheProxy.Sse
