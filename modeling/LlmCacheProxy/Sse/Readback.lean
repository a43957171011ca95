import LlmCacheProxy.Sse.KeyWindow
import LlmCacheProxy.Sse.Lines
import Mathlib.Data.List.Basic

/-!
# Reading the output

What a client reads from a queued item: its event type, its value and the
content fields in it. From a synthetic frame it reads one field, the restored
text, under the key that the members of the frame spell out.
-/

namespace LlmCacheProxy.Sse

/-! ### Keys of a provider -/

def OpenAiFamily (p : Provider) : Prop := p = .openAi ∨ p = .openRouter

/-- The keys that events of a provider can be extracted under. -/
def FieldKey.OfProvider (p : Provider) : FieldKey → Prop
  | .anthropicDelta deltaType _ => p = .anthropic ∧
      (deltaType = "text_delta" ∨ deltaType = "thinking_delta" ∨ deltaType = "input_json_delta")
  | .openAiContent => OpenAiFamily p
  | .openAiToolCall _ => OpenAiFamily p
  | .openAiReasoning => OpenAiFamily p
  | .openAiFunctionCallArgs => OpenAiFamily p
  | .openAiRefusal => OpenAiFamily p
  | .responsesApiDelta eventType => OpenAiFamily p ∧
      (eventType = "response.output_text.delta" ∨
        eventType = "response.reasoning_summary_text.delta")
  | .responsesApiDone eventType =>
      OpenAiFamily p ∧ eventType = "response.output_text.done"
  | .geminiText _ => p = .gemini
  | .geminiCodeExecOutput _ => p = .gemini
  | .geminiFuncCallArg _ _ => p = .gemini

theorem mem_stringField {key : FieldKey} {j : Json} {name : Text} {f : ExtractedField}
    (h : f ∈ stringField key j name) : f.key = key := by
  unfold stringField at h
  split at h
  · obtain rfl := List.mem_singleton.mp h
    rfl
  · cases h

theorem mem_nonemptyStringField {key : FieldKey} {j : Json} {name : Text} {f : ExtractedField}
    (h : f ∈ nonemptyStringField key j name) : f.key = key := by
  unfold nonemptyStringField at h
  split at h
  · split at h
    · cases h
    · obtain rfl := List.mem_singleton.mp h
      rfl
  · cases h

private theorem extractAnthropic_key {json : Json} {f : ExtractedField}
    (h : f ∈ extractAnthropic json) : f.key.OfProvider .anthropic := by
  unfold extractAnthropic at h
  split at h
  · cases h
  simp only at h
  split at h
  · cases h
  split_ifs at h
  · rw [mem_stringField h]
    exact ⟨rfl, Or.inl rfl⟩
  · rw [mem_stringField h]
    exact ⟨rfl, Or.inr (Or.inl rfl)⟩
  · rw [mem_stringField h]
    exact ⟨rfl, Or.inr (Or.inr rfl)⟩
  · cases h

private theorem extractResponsesApi_key {p : Provider} (hp : OpenAiFamily p)
    {json : Json} {et : Bytes} {f : ExtractedField} (h : f ∈ extractResponsesApi json et) :
    f.key.OfProvider p := by
  unfold extractResponsesApi at h
  split_ifs at h
  · rw [mem_stringField h]
    exact ⟨hp, Or.inl rfl⟩
  · rw [mem_stringField h]
    exact ⟨hp, rfl⟩
  · rw [mem_stringField h]
    exact ⟨hp, Or.inr rfl⟩
  · cases h

/-- The fields of a chat completion chunk. -/
theorem extractChatCompletion_cases {json : Json} {f : ExtractedField}
    (h : f ∈ extractChatCompletion json) :
    f.key = .openAiContent ∨ f.key = .openAiReasoning ∨ (∃ index, f.key = .openAiToolCall index) ∨
      f.key = .openAiFunctionCallArgs ∨ f.key = .openAiRefusal := by
  unfold extractChatCompletion at h
  split at h
  · cases h
  simp only [List.mem_append, List.mem_flatMap] at h
  rcases h with (((h | h) | ⟨toolCall, -, h⟩) | h) | h
  · exact Or.inl (mem_nonemptyStringField h)
  · exact Or.inr (Or.inl (mem_stringField h))
  · rw [extractToolCall] at h
    exact Or.inr (Or.inr (Or.inl ⟨_, mem_nonemptyStringField h⟩))
  · exact Or.inr (Or.inr (Or.inr (Or.inl (mem_nonemptyStringField h))))
  · exact Or.inr (Or.inr (Or.inr (Or.inr (mem_stringField h))))

private theorem extractChatCompletion_key {p : Provider} (hp : OpenAiFamily p)
    {json : Json} {f : ExtractedField} (h : f ∈ extractChatCompletion json) :
    f.key.OfProvider p := by
  rcases extractChatCompletion_cases h with hkey | hkey | ⟨index, hkey⟩ | hkey | hkey
  all_goals
    rw [hkey]
    exact hp

private theorem extractGemini_key {json : Json} {f : ExtractedField}
    (h : f ∈ extractGemini json) : f.key.OfProvider .gemini := by
  unfold extractGemini at h
  split at h
  · cases h
  obtain ⟨fields, hfields, h⟩ := List.mem_flatten.mp h
  obtain ⟨part, -, rfl⟩ := List.mem_map.mp hfields
  simp only [extractGeminiPart, List.mem_append] at h
  rcases h with (h | h) | h
  · rw [mem_stringField h]
    rfl
  · split at h
    · obtain rfl := List.mem_singleton.mp h
      rfl
    · cases h
  · obtain ⟨arg, -, harg⟩ := List.mem_filterMap.mp h
    obtain ⟨text, -, rfl⟩ := Option.map_eq_some_iff.mp harg
    rfl

/-- Events of a provider give rise to keys of that provider. -/
theorem extractFields_ofProvider {json : Json} {p : Provider} {et : Option Bytes}
    {f : ExtractedField} (h : f ∈ extractFields json p et) : f.key.OfProvider p := by
  have hopenAi {p : Provider} (hp : OpenAiFamily p) (h : f ∈ extractFields json .openAi et) :
      f.key.OfProvider p := by
    simp only [extractFields] at h
    split at h
    · split at h
      · exact extractResponsesApi_key hp h
      · exact extractChatCompletion_key hp h
    · exact extractChatCompletion_key hp h
  cases p with
  | anthropic => exact extractAnthropic_key h
  | openAi => exact hopenAi (Or.inl rfl) h
  | openRouter => exact hopenAi (Or.inr rfl) h
  | gemini => exact extractGemini_key h

theorem extracted_ofProvider {ctx : SseCtx} {frame : Bytes} {f : ExtractedField}
    (h : f ∈ extracted ctx frame) : f.key.OfProvider ctx.provider := by
  unfold extracted at h
  split at h
  · exact extractFields_ofProvider h
  · cases h

/-! ### Synthetic frames -/

/-- The event type of the frames of a key. -/
def FieldKey.event : FieldKey → Option Text
  | .anthropicDelta _ _ => some "content_block_delta"
  | .responsesApiDelta eventType => some eventType
  | .responsesApiDone eventType => some eventType
  | _ => none

/-- The value in the data of a synthetic frame. -/
def syntheticValue (key : FieldKey) (text : Text) : Json :=
  match key with
  | .anthropicDelta deltaType index =>
      .ofMembers [("type", .string "content_block_delta"), ("index", .number (.ofU64 index)),
        ("delta", .ofMembers [("type", .string deltaType),
          (anthropicTextField deltaType, .string text)])]
  | .openAiContent => chatDelta (.ofMembers [("content", .string text)])
  | .openAiToolCall index =>
      chatDelta (.ofMembers [("tool_calls", .array [
        .ofMembers [("index", .number (.ofU64 index)),
          ("function", .ofMembers [("arguments", .string text)])]])])
  | .openAiReasoning => chatDelta (.ofMembers [("reasoning_content", .string text)])
  | .openAiFunctionCallArgs =>
      chatDelta (.ofMembers [("function_call", .ofMembers [("arguments", .string text)])])
  | .openAiRefusal => chatDelta (.ofMembers [("refusal", .string text)])
  | .responsesApiDelta _ => .ofMembers [("delta", .string text)]
  | .responsesApiDone _ => .ofMembers [("text", .string text)]
  | .geminiText _ => geminiPart (.ofMembers [("text", .string text)])
  | .geminiCodeExecOutput _ =>
      geminiPart (.ofMembers [("codeExecutionResult", .ofMembers [("output", .string text)])])
  | .geminiFuncCallArg _ argKey =>
      geminiPart (.ofMembers [("functionCall",
        .ofMembers [("args", .ofMembers [(argKey, .string text)])])])

/-- A synthetic frame prints the value of its key. -/
theorem buildSyntheticSseFrame_eq (c : Crates) (key : FieldKey) (text : Text) :
    buildSyntheticSseFrame c key text =
      match key.event with
      | some event => eventFrame c event (syntheticValue key text)
      | none => dataFrame c (syntheticValue key text) := by
  cases key <;> rfl

/-- The key a synthetic frame is read under. Gemini frames do not say whether
the text is a thought, and always hold one part. -/
def FieldKey.readBack : FieldKey → FieldKey
  | .geminiText _ => .geminiText false
  | .geminiCodeExecOutput _ => .geminiCodeExecOutput 0
  | .geminiFuncCallArg _ argKey => .geminiFuncCallArg 0 argKey
  | key => key

private theorem nonemptyStringField_of {key : FieldKey} {j : Json} {name text : Text}
    (hj : (j.index name).asStr = some text) (ht : text ≠ Text.empty) :
    nonemptyStringField key j name = [⟨key, text⟩] := by
  simp only [nonemptyStringField, hj, if_neg ht]

/-- The restored text is what is read from a synthetic frame, and all of it. -/
theorem extractFields_syntheticValue {p : Provider} {key : FieldKey} (hkey : key.OfProvider p)
    {text : Text} (ht : text ≠ Text.empty) :
    extractFields (syntheticValue key text) p (key.event.map Text.bytes) =
      [⟨key.readBack, text⟩] := by
  have hchat {key : FieldKey} (hp : OpenAiFamily p) (hevent : key.event = none)
      (h : extractChatCompletion (syntheticValue key text) = [⟨key.readBack, text⟩]) :
      extractFields (syntheticValue key text) p (key.event.map Text.bytes) =
        [⟨key.readBack, text⟩] := by
    rw [hevent]
    rcases hp with rfl | rfl
    · exact h
    · exact h
  cases key with
  | anthropicDelta deltaType index =>
      obtain ⟨rfl, hdelta⟩ := hkey
      have hindex :
          ((syntheticValue (.anthropicDelta deltaType index) text).index "index").asU64 =
            some index := JsonNumber.asU64_ofU64 index
      simp only [extractFields, extractAnthropic, hindex, Option.getD_some]
      rcases hdelta with rfl | rfl | rfl
      · rfl
      · rfl
      · rfl
  | openAiContent =>
      have hfield : nonemptyStringField .openAiContent (.ofMembers [("content", .string text)])
          "content" = [⟨.openAiContent, text⟩] := nonemptyStringField_of rfl ht
      apply hchat hkey rfl
      exact congrArg (· ++ [] ++ [] ++ [] ++ []) hfield
  | openAiToolCall index =>
      let toolCall : Json := .ofMembers [("index", .number (.ofU64 index)),
        ("function", .ofMembers [("arguments", .string text)])]
      have hindex : (toolCall.get "index").bind Json.asU64 = some index :=
        JsonNumber.asU64_ofU64 index
      have hfield : extractToolCall toolCall = [⟨.openAiToolCall index, text⟩] := by
        rw [extractToolCall, hindex]
        exact nonemptyStringField_of rfl ht
      apply hchat hkey rfl
      exact congrArg (fun fields => [] ++ [] ++ (fields ++ []) ++ [] ++ []) hfield
  | openAiReasoning => exact hchat hkey rfl rfl
  | openAiFunctionCallArgs =>
      have hfield : nonemptyStringField .openAiFunctionCallArgs
          (.ofMembers [("arguments", .string text)]) "arguments" =
            [⟨.openAiFunctionCallArgs, text⟩] := nonemptyStringField_of rfl ht
      apply hchat hkey rfl
      exact congrArg (fun fields => [] ++ [] ++ [] ++ fields ++ []) hfield
  | openAiRefusal => exact hchat hkey rfl rfl
  | responsesApiDelta eventType =>
      obtain ⟨hp, hevent⟩ := hkey
      rcases hp with rfl | rfl <;> rcases hevent with rfl | rfl <;> rfl
  | responsesApiDone eventType =>
      obtain ⟨hp, rfl⟩ := hkey
      rcases hp with rfl | rfl <;> rfl
  | geminiText thought =>
      obtain rfl := hkey
      rfl
  | geminiCodeExecOutput partIndex =>
      obtain rfl := hkey
      rfl
  | geminiFuncCallArg partIndex argKey =>
      obtain rfl := hkey
      rfl

/-! ### Queued items -/

/-- The event type a client reads from an item. -/
def Emission.event : Emission → Option Bytes
  | .synthetic key _ => key.event.map Text.bytes
  | .passthrough frame => eventType frame
  | .deferred _ => none
  | .raw _ => none

/-- The value a client reads from an item, as serde_json reads it: two numbers are the
same when they print the same. -/
def Emission.value (c : Crates) : Emission → Option Json
  | .synthetic key text => some (syntheticValue key text)
  | .passthrough frame => (dataContent frame).bind c.parse
  | .deferred extra => some extra
  | .raw _ => none

/-- The content fields a client reads from an item. -/
def Emission.fields (ctx : SseCtx) (e : Emission) : List ExtractedField :=
  match e.value ctx.crates with
  | some json => extractFields json ctx.provider e.event
  | none => []

theorem Emission.fields_passthrough (ctx : SseCtx) (frame : Bytes) :
    (Emission.passthrough frame).fields ctx = extracted ctx frame := rfl

theorem Emission.fields_synthetic {ctx : SseCtx} {key : FieldKey}
    (hkey : key.OfProvider ctx.provider) {text : Text} (ht : text ≠ Text.empty) :
    (Emission.synthetic key text).fields ctx = [⟨key.readBack, text⟩] :=
  extractFields_syntheticValue hkey ht

/-- What `read` finds in the values of some items. -/
def readAll {σ : Type} (ctx : SseCtx) (read : Json → List σ) (es : List Emission) : List σ :=
  es.flatMap fun e => ((e.value ctx.crates).map read).getD []

/-- Frames as they arrive. -/
def arrived (frames : List Bytes) : List Emission := frames.map .passthrough

theorem readAll_append {σ : Type} (ctx : SseCtx) (read : Json → List σ) (q r : List Emission) :
    readAll ctx read (q ++ r) = readAll ctx read q ++ readAll ctx read r :=
  List.flatMap_append

/-- The value a frame holds. -/
def frameValue (ctx : SseCtx) (frame : Bytes) : Option Json :=
  (dataContent frame).bind ctx.crates.parse

theorem readAll_arrived_one {σ : Type} (ctx : SseCtx) (read : Json → List σ) (frame : Bytes) :
    readAll ctx read (arrived [frame]) = ((frameValue ctx frame).map read).getD [] := by
  simp [readAll, arrived, Emission.value, frameValue]

/-- Shortened contributions make up the whole only if none was shortened. -/
theorem flatMap_eq_flatMap_iff {α β : Type} {f g : α → List β} {xs : List α}
    (hle : ∀ x ∈ xs, (f x).length ≤ (g x).length) :
    xs.flatMap f = xs.flatMap g ↔ ∀ x ∈ xs, f x = g x := by
  refine ⟨fun heq => ?_, List.flatMap_congr⟩
  have hlengths {ys : List α} (hys : ∀ x ∈ ys, (f x).length ≤ (g x).length) :
      (ys.flatMap f).length ≤ (ys.flatMap g).length := by
    induction ys with
    | nil => exact le_rfl
    | cons y ys ih =>
        obtain ⟨hy, hys⟩ := List.forall_mem_cons.mp hys
        rw [List.flatMap_cons, List.flatMap_cons, List.length_append, List.length_append]
        exact Nat.add_le_add hy (ih hys)
  induction xs with
  | nil => exact fun _ hx => absurd hx List.not_mem_nil
  | cons x xs ih =>
      obtain ⟨hx, hxs⟩ := List.forall_mem_cons.mp hle
      rw [List.flatMap_cons, List.flatMap_cons] at heq
      have hlen := congrArg List.length heq
      rw [List.length_append, List.length_append] at hlen
      have hrest := hlengths hxs
      obtain ⟨hhead, htail⟩ := List.append_inj heq (by omega)
      exact List.forall_mem_cons.mpr ⟨hhead, ih hxs htail⟩

theorem filter_flatMap {α β : Type} (p : α → Bool) (f : α → List β) (xs : List α) :
    (xs.filter p).flatMap f = xs.flatMap fun x => if p x then f x else [] := by
  induction xs with
  | nil => rfl
  | cons x xs ih => by_cases hp : p x = true <;> simp [hp, ih]

/-- Leaving out elements loses nothing exactly when they contribute nothing. -/
theorem filter_flatMap_eq_iff {α β : Type} {p : α → Bool} {f : α → List β} {xs : List α} :
    (xs.filter p).flatMap f = xs.flatMap f ↔ ∀ x ∈ xs, f x ≠ [] → p x = true := by
  rw [filter_flatMap, flatMap_eq_flatMap_iff]
  · apply forall₂_congr
    intro x _
    by_cases hp : p x = true
    · simp [hp]
    · simp [hp, eq_comm]
  · intro x _
    split <;> simp

/-! ### Sample frames -/

/-- A response whose events are the printed forms of a few values. -/
def sampleCtx (p : Provider) (values : List Json) : SseCtx :=
  ⟨leftmostCrates (Json.serdeFor values).parse Json.compact, alikeEntries, p⟩

def sampleFrame (v : Json) : Bytes := lit "data: " ++ v.compact.bytes ++ lit "\n\n"

def sampleEvent (event : Text) (v : Json) : Bytes :=
  lit "event: " ++ event.bytes ++ lit "\ndata: " ++ v.compact.bytes ++ lit "\n\n"

theorem sampleCtx_restoresText (p : Provider) (values : List Json) :
    RestoresText (sampleCtx p values).crates (sampleCtx p values).entries :=
  leftmostCrates_restoresText _ _

section Samples

variable {p : Provider} {values : List Json} {v : Json}

private theorem oneLine_compact (v : Json) : OneLine v.compact.bytes :=
  oneLine_of_printable (Json.printable_compactBytes v)

theorem sampleFrame_value (hv : v ∈ values) :
    (Emission.passthrough (sampleFrame v)).value (sampleCtx p values).crates = some v := by
  have hdata : dataContent (sampleFrame v) = some v.compact.bytes :=
    dataContent_dataFrame (c := (sampleCtx p values).crates) (oneLine_compact v)
  rw [Emission.value, hdata]
  exact Json.serdeFor_parse hv

theorem sampleFrame_eventType (v : Json) : eventType (sampleFrame v) = none :=
  eventType_dataFrame (c := (sampleCtx .openAi []).crates) (oneLine_compact v)

theorem sampleFrame_extracted (hv : v ∈ values) :
    extracted (sampleCtx p values) (sampleFrame v) = extractFields v p none := by
  rw [← Emission.fields_passthrough, Emission.fields, sampleFrame_value hv]
  exact congrArg (extractFields v p) (sampleFrame_eventType v)

theorem sampleEvent_value {event : Text} (he : OneLine event.bytes) (hv : v ∈ values) :
    (Emission.passthrough (sampleEvent event v)).value (sampleCtx p values).crates = some v := by
  have hdata : dataContent (sampleEvent event v) = some v.compact.bytes :=
    dataContent_eventFrame (c := (sampleCtx p values).crates) he (oneLine_compact v)
  rw [Emission.value, hdata]
  exact Json.serdeFor_parse hv

theorem sampleEvent_eventType {event : Text} (he : OneLine event.bytes)
    (hne : event ≠ Text.empty) (v : Json) : eventType (sampleEvent event v) = some event.bytes :=
  eventType_eventFrame (c := (sampleCtx .openAi []).crates) he hne (oneLine_compact v)

theorem sampleEvent_extracted {event : Text} (he : OneLine event.bytes)
    (hne : event ≠ Text.empty) (hv : v ∈ values) :
    extracted (sampleCtx p values) (sampleEvent event v) =
      extractFields v p (some event.bytes) := by
  rw [← Emission.fields_passthrough, Emission.fields, sampleEvent_value he hv]
  exact congrArg (extractFields v p) (sampleEvent_eventType he hne v)

end Samples

end LlmCacheProxy.Sse
