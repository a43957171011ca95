import LlmCacheProxy.Foundation.Json
import LlmCacheProxy.Foundation.SortedMap
import LlmCacheProxy.Provider
import Mathlib.Data.Prod.Lex

/-!
# Content fields of response events

Which texts of a parsed event are restored, under which key they accumulate,
and which events end a content block or the whole response.
-/

namespace LlmCacheProxy.Sse

/-- The bytes of a string literal. -/
def lit (s : String) : Bytes := (Text.ofString s).bytes

/-- A logically independent content stream within one response. -/
inductive FieldKey where
  | anthropicDelta (deltaType : Text) (index : UInt64)
  | openAiContent
  | openAiToolCall (index : UInt64)
  | openAiReasoning
  | openAiFunctionCallArgs
  | openAiRefusal
  | responsesApiDelta (eventType : Text)
  | responsesApiDone (eventType : Text)
  | geminiText (thought : Bool)
  | geminiCodeExecOutput (partIndex : Nat)
  | geminiFuncCallArg (partIndex : Nat) (argKey : Text)

namespace FieldKey

/-- The derived order: by variant, then by the fields from left to right. -/
def rank : FieldKey → ℕ ×ₗ ℕ ×ₗ Text ×ₗ ℕ
  | .anthropicDelta deltaType index => toLex (0, toLex (0, toLex (deltaType, index.toNat)))
  | .openAiContent => toLex (1, toLex (0, toLex (Text.empty, 0)))
  | .openAiToolCall index => toLex (2, toLex (index.toNat, toLex (Text.empty, 0)))
  | .openAiReasoning => toLex (3, toLex (0, toLex (Text.empty, 0)))
  | .openAiFunctionCallArgs => toLex (4, toLex (0, toLex (Text.empty, 0)))
  | .openAiRefusal => toLex (5, toLex (0, toLex (Text.empty, 0)))
  | .responsesApiDelta eventType => toLex (6, toLex (0, toLex (eventType, 0)))
  | .responsesApiDone eventType => toLex (7, toLex (0, toLex (eventType, 0)))
  | .geminiText thought => toLex (8, toLex (thought.toNat, toLex (Text.empty, 0)))
  | .geminiCodeExecOutput partIndex => toLex (9, toLex (partIndex, toLex (Text.empty, 0)))
  | .geminiFuncCallArg partIndex argKey => toLex (10, toLex (partIndex, toLex (argKey, 0)))

private theorem toNat_inj {a b : Bool} : a.toNat = b.toNat ↔ a = b := by
  cases a <;> cases b <;> decide

theorem rank_injective : Function.Injective rank := by
  intro a b h
  cases a <;> cases b <;>
    simp_all [rank, UInt64.toNat_inj, toNat_inj]

instance : LinearOrder FieldKey := LinearOrder.lift' rank rank_injective

end FieldKey

/-- A content-bearing field of one event. -/
structure ExtractedField where
  key : FieldKey
  text : Text

/-- The string member `name` of `j`, as a field under `key`. -/
def stringField (key : FieldKey) (j : Json) (name : Text) : List ExtractedField :=
  match (j.index name).asStr with
  | some text => [⟨key, text⟩]
  | none => []

/-- As `stringField`, but an empty string is no field. -/
def nonemptyStringField (key : FieldKey) (j : Json) (name : Text) : List ExtractedField :=
  match (j.index name).asStr with
  | some text => if text = Text.empty then [] else [⟨key, text⟩]
  | none => []

def extractAnthropic (json : Json) : List ExtractedField :=
  if (json.index "type").asStr ≠ some ("content_block_delta" : Text) then []
  else
    let index := (json.index "index").asU64.getD 0
    let delta := json.index "delta"
    match (delta.index "type").asStr with
    | none => []
    | some deltaType =>
        if deltaType = "text_delta" then
          stringField (.anthropicDelta "text_delta" index) delta "text"
        else if deltaType = "thinking_delta" then
          stringField (.anthropicDelta "thinking_delta" index) delta "thinking"
        else if deltaType = "input_json_delta" then
          stringField (.anthropicDelta "input_json_delta" index) delta "partial_json"
        else
          -- `signature_delta` included: signatures must not be modified.
          []

/-- Events of the Responses API, told apart by their `event:` line. -/
def extractResponsesApi (json : Json) (eventType : Bytes) : List ExtractedField :=
  if eventType = lit "response.output_text.delta" then
    stringField (.responsesApiDelta "response.output_text.delta") json "delta"
  else if eventType = lit "response.output_text.done" then
    stringField (.responsesApiDone "response.output_text.done") json "text"
  else if eventType = lit "response.reasoning_summary_text.delta" then
    stringField (.responsesApiDelta "response.reasoning_summary_text.delta") json "delta"
  else []

/-- The `arguments` of one element of a `tool_calls` array. -/
def extractToolCall (toolCall : Json) : List ExtractedField :=
  let index := ((toolCall.get "index").bind Json.asU64).getD 0
  nonemptyStringField (.openAiToolCall index) (toolCall.index "function") "arguments"

def extractChatCompletion (json : Json) : List ExtractedField :=
  match json.pointer ["choices", "0", "delta"] with
  | none => []
  | some delta =>
      nonemptyStringField .openAiContent delta "content" ++
      stringField .openAiReasoning delta "reasoning_content" ++
      (((delta.get "tool_calls").bind Json.asArray).getD []).flatMap extractToolCall ++
      nonemptyStringField .openAiFunctionCallArgs (delta.index "function_call") "arguments" ++
      stringField .openAiRefusal delta "refusal"

/-- The string arguments of a function call, in the order of the map. -/
def extractFuncCallArgs (partIndex : Nat) (args : List (Text × Json)) : List ExtractedField :=
  args.filterMap fun arg =>
    arg.2.asStr.map fun text => ⟨.geminiFuncCallArg partIndex arg.1, text⟩

def extractGeminiPart (partIndex : Nat) (part : Json) : List ExtractedField :=
  let thought := ((part.get "thought").bind Json.asBool).getD false
  stringField (.geminiText thought) part "text" ++
  (match (part.pointer ["codeExecutionResult", "output"]).bind Json.asStr with
    | some output => [⟨.geminiCodeExecOutput partIndex, output⟩]
    | none => []) ++
  extractFuncCallArgs partIndex
    (((part.pointer ["functionCall", "args"]).bind Json.asObject).getD [])

def extractGemini (json : Json) : List ExtractedField :=
  match (json.pointer ["candidates", "0", "content", "parts"]).bind Json.asArray with
  | none => []
  | some parts => (parts.zipIdx.map fun p => extractGeminiPart p.2 p.1).flatten

/-- The provider-specific content fields of a parsed event. -/
def extractFields (json : Json) (provider : Provider) (eventType : Option Bytes) :
    List ExtractedField :=
  match provider with
  | .anthropic => extractAnthropic json
  | .openAi | .openRouter =>
      match eventType with
      | some et =>
          if (lit "response.").isPrefixOf et then extractResponsesApi json et
          else extractChatCompletion json
      | none => extractChatCompletion json
  | .gemini => extractGemini json

/-! ### Terminal events -/

/-- What a terminal event ends. -/
inductive TerminalScope where
  | block (index : UInt64)
  | stream
  deriving DecidableEq

/-- The keys a terminal event concerns: one Anthropic block, or everything. -/
def TerminalScope.contains : TerminalScope → FieldKey → Bool
  | .block n, .anthropicDelta _ index => index = n
  | .block _, _ => false
  | .stream, _ => true

/-- Event types that end a Responses API response or one of its items. -/
def responsesApiTerminals : List Bytes :=
  [lit "response.content_part.done", lit "response.output_item.done", lit "response.completed",
    lit "response.failed", lit "response.cancelled", lit "response.incomplete"]

/-- The flush scope of an event without content, or `none`. -/
def classifyTerminal (json : Json) (eventType : Option Bytes) (provider : Provider) :
    Option TerminalScope :=
  match provider with
  | .anthropic =>
      match (json.index "type").asStr with
      | none => none
      | some type =>
          if type = "content_block_stop" then
            match (json.index "index").asU64 with
            | some n => some (.block n)
            | none => some .stream
          else if type = "message_delta" ∨ type = "message_stop" then some .stream
          else none
  | .openAi | .openRouter =>
      if (eventType.any fun et => responsesApiTerminals.contains et) then some .stream
      else if (json.pointer ["choices", "0", "finish_reason"]).any fun v => !v.isNull then
        some .stream
      else none
  | .gemini =>
      if (json.pointer ["candidates", "0", "finishReason"]).any fun v => !v.isNull then
        some .stream
      else none

end LlmCacheProxy.Sse
