import LlmCacheProxy.Sse.Window

/-!
# Processing one frame

A complete frame is either passed through, ends a block or the stream, or
carries content. Content joins the accumulators of its keys, after which every
accumulator is flushed under the hold window; a terminal frame is passed through
behind a complete flush of the keys in its scope.
-/

namespace LlmCacheProxy.Sse

/-! ### The lines of a frame -/

/-- `str::strip_prefix`. -/
def stripPrefix (pre s : Bytes) : Option Bytes :=
  if pre.isPrefixOf s then some (s.drop pre.length) else none

/-- `str::split_inclusive('\n')`. -/
def splitInclusive : Bytes → List Bytes
  | [] => []
  | b :: rest =>
      if b = 0x0A then [b] :: splitInclusive rest
      else
        match splitInclusive rest with
        | [] => [[b]]
        | line :: lines => (b :: line) :: lines

/-- A line without its newline; a return is dropped only in front of a newline. -/
def chompLine (line : Bytes) : Bytes :=
  if line.getLast? = some 0x0A then
    let body := line.dropLast
    if body.getLast? = some 0x0D then body.dropLast else body
  else line

/-- `str::lines`. -/
def lines (frame : Bytes) : List Bytes := (splitInclusive frame).map chompLine

/-- The value of a field line, with or without a space after the colon. -/
def fieldValue (spaced bare line : Bytes) : Option Bytes :=
  (stripPrefix spaced line).or (stripPrefix bare line)

/-- The first nonempty `event:` value of a frame. -/
def eventType (frame : Bytes) : Option Bytes :=
  (lines frame).findSome? fun l =>
    (fieldValue (lit "event: ") (lit "event:") l).filter fun s => !s.isEmpty

/-- The first `data:` value of a frame. -/
def dataContent (frame : Bytes) : Option Bytes :=
  (lines frame).findSome? (fieldValue (lit "data: ") (lit "data:"))

/-- The encodings of the Unicode white space characters. -/
def whitespace : List Bytes :=
  [[0x09], [0x0A], [0x0B], [0x0C], [0x0D], [0x20], [0xC2, 0x85], [0xC2, 0xA0], [0xE1, 0x9A, 0x80]] ++
  (List.range 11).map (fun i => [0xE2, 0x80, UInt8.ofNat (0x80 + i)]) ++
  [[0xE2, 0x80, 0xA8], [0xE2, 0x80, 0xA9], [0xE2, 0x80, 0xAF], [0xE2, 0x81, 0x9F],
    [0xE3, 0x80, 0x80]]

/-- Drop leading words of `ws`, at most `n` of them. -/
def dropWords (ws : List Bytes) : Nat → Bytes → Bytes
  | 0, s => s
  | n + 1, s =>
      match ws.find? fun w => w.isPrefixOf s with
      | some w => dropWords ws n (s.drop w.length)
      | none => s

/-- `str::trim`. -/
def trim (s : Bytes) : Bytes :=
  let front := dropWords whitespace s.length s
  (dropWords (whitespace.map List.reverse) front.length front.reverse).reverse

/-! ### Output frames -/

/-- What is queued for the client. -/
inductive Emission where
  /-- Restored text in a frame of its own. -/
  | synthetic (key : FieldKey) (text : Text)
  /-- A frame of the upstream, unchanged. -/
  | passthrough (frame : Bytes)
  /-- Gemini content other than text, taken out of a mixed frame. -/
  | deferred (extra : Json)
  /-- Bytes outside any frame. -/
  | raw (bytes : Bytes)

def dataFrame (c : Crates) (v : Json) : Bytes :=
  lit "data: " ++ (c.serialize v).bytes ++ lit "\n\n"

def eventFrame (c : Crates) (event : Text) (v : Json) : Bytes :=
  lit "event: " ++ event.bytes ++ lit "\ndata: " ++ (c.serialize v).bytes ++ lit "\n\n"

/-- The value a chat completion chunk wraps in `choices[0].delta`. -/
def chatDelta (delta : Json) : Json :=
  .ofMembers [("choices", .array [.ofMembers [("delta", delta)]])]

/-- The value a Gemini chunk wraps in `candidates[0].content.parts[0]`. -/
def geminiPart (part : Json) : Json :=
  .ofMembers [("candidates", .array [.ofMembers [("content",
    .ofMembers [("parts", .array [part])])]])]

/-- The member of an Anthropic delta that holds its text. -/
def anthropicTextField (deltaType : Text) : Text :=
  if deltaType = "thinking_delta" then "thinking"
  else if deltaType = "input_json_delta" then "partial_json"
  else "text"

def buildSyntheticSseFrame (c : Crates) (key : FieldKey) (text : Text) : Bytes :=
  match key with
  | .anthropicDelta deltaType index =>
      eventFrame c "content_block_delta" (.ofMembers [("type", .string "content_block_delta"),
        ("index", .number (.ofU64 index)),
        ("delta", .ofMembers [("type", .string deltaType),
          (anthropicTextField deltaType, .string text)])])
  | .openAiContent => dataFrame c (chatDelta (.ofMembers [("content", .string text)]))
  | .openAiToolCall index =>
      dataFrame c (chatDelta (.ofMembers [("tool_calls", .array [
        .ofMembers [("index", .number (.ofU64 index)),
          ("function", .ofMembers [("arguments", .string text)])]])]))
  | .openAiReasoning => dataFrame c (chatDelta (.ofMembers [("reasoning_content", .string text)]))
  | .openAiFunctionCallArgs =>
      dataFrame c (chatDelta (.ofMembers [("function_call",
        .ofMembers [("arguments", .string text)])]))
  | .openAiRefusal => dataFrame c (chatDelta (.ofMembers [("refusal", .string text)]))
  | .responsesApiDelta eventType => eventFrame c eventType (.ofMembers [("delta", .string text)])
  | .responsesApiDone eventType => eventFrame c eventType (.ofMembers [("text", .string text)])
  | .geminiText _ => dataFrame c (geminiPart (.ofMembers [("text", .string text)]))
  | .geminiCodeExecOutput _ =>
      dataFrame c (geminiPart (.ofMembers [("codeExecutionResult",
        .ofMembers [("output", .string text)])]))
  | .geminiFuncCallArg _ argKey =>
      dataFrame c (geminiPart (.ofMembers [("functionCall",
        .ofMembers [("args", .ofMembers [(argKey, .string text)])])]))

/-- The bytes of a queued item. -/
def Emission.bytes (c : Crates) : Emission → Bytes
  | .synthetic key text => buildSyntheticSseFrame c key text
  | .passthrough frame => frame
  | .deferred extra => dataFrame c extra
  | .raw bytes => bytes

/-- The frame a restored segment is sent in; nothing when the text is empty. -/
def Cut.emission (cut : Cut) : List Emission :=
  if cut.restored = Text.empty then [] else [.synthetic cut.key cut.restored]

/-! ### State -/

/-- The part of the stream state that frames act on. `cuts` records every call
of restore and is read by nothing. -/
structure RestoreState where
  accumulators : SortedMap FieldKey Text
  outputQueue : List Emission
  deferredPassthrough : List Emission
  cuts : List Cut

namespace RestoreState

def init : RestoreState := ⟨.empty, [], [], []⟩

/-- The text that waits under a key. -/
def accum (st : RestoreState) (key : FieldKey) : Text := st.accumulators.getD key Text.empty

def push (st : RestoreState) (e : Emission) : RestoreState :=
  { st with outputQueue := st.outputQueue ++ [e] }

/-- The state after a round of flushes. -/
def flushed (st : RestoreState) (r : SortedMap FieldKey Text × List Cut) : RestoreState :=
  { st with
    accumulators := r.1
    outputQueue := st.outputQueue ++ r.2.flatMap Cut.emission
    cuts := st.cuts ++ r.2 }

/-- Move the deferred frames to the output. -/
def drainDeferred (st : RestoreState) : RestoreState :=
  { st with outputQueue := st.outputQueue ++ st.deferredPassthrough, deferredPassthrough := [] }

end RestoreState

/-! ### Flushing -/

/-- Flush completely every nonempty accumulator whose key satisfies `pred`. -/
def flushAccumulatorsWhere (ctx : SseCtx) (pred : FieldKey → Bool) (st : RestoreState) :
    Except Fault RestoreState :=
  (st.accumulators.visit fun key accum =>
    if accum = Text.empty ∨ pred key = false then .ok (accum, [])
    else flushSafePrefix ctx.crates ctx.entries 0 key accum).map st.flushed

def flushAllAccumulators (ctx : SseCtx) (st : RestoreState) : Except Fault RestoreState :=
  flushAccumulatorsWhere ctx (fun _ => true) st

/-- Flush the safe prefix of every accumulator. -/
def flushSafePrefixes (ctx : SseCtx) (st : RestoreState) : Except Fault RestoreState :=
  (st.accumulators.visit
    (flushSafePrefix ctx.crates ctx.entries (maxFakeLen ctx.entries))).map st.flushed

/-! ### Frames -/

/-- Append each extracted text to the accumulator of its key. -/
def accumulate (fields : List ExtractedField) (m : SortedMap FieldKey Text) :
    SortedMap FieldKey Text :=
  fields.foldl (fun m f => m.upsert f.key Text.empty fun accum => accum ++ f.text) m

/-- The parts of a function call that are not restored: its name and the
arguments that are no strings. -/
def functionCallExtra (fc : Json) : Json :=
  let extra := Json.object []
  let extra :=
    match fc.get "name" with
    | some name => extra.set "name" name
    | none => extra
  match (fc.get "args").bind Json.asObject with
  | some args =>
      let nonStr := args.filter fun arg => !arg.2.isString
      if nonStr.isEmpty then extra else extra.set "args" (.object nonStr)
  | none => extra

/-- Copy a top-level member that must not be modified. -/
def copyMember (json : Json) (name : Text) (extra : Json) : Json :=
  match json.get name with
  | some v => extra.set name v
  | none => extra

/-- The content of a Gemini frame beside its texts. Each function call writes
`candidates` anew. -/
def geminiExtra (json : Json) : Json :=
  let extra := copyMember json "groundingMetadata" (copyMember json "thoughtSignature" (.object []))
  let parts := ((json.pointer ["candidates", "0", "content", "parts"]).bind Json.asArray).getD []
  parts.foldl (fun extra part =>
    match part.get "functionCall" with
    | none => extra
    | some fc =>
        if ((functionCallExtra fc).asObject.getD []).isEmpty then extra
        else
          extra.set "candidates" (.array [.ofMembers [("content", .ofMembers [("parts", .array [
            .ofMembers [("functionCall", functionCallExtra fc)]])])]])) extra

/-- The deferred frame of a content frame, if it has one. -/
def deferredOf (provider : Provider) (json : Json) : List Emission :=
  if provider = .gemini then
    if ((geminiExtra json).asObject.getD []).isEmpty then [] else [.deferred (geminiExtra json)]
  else []

/-- Process one complete frame. -/
def processOneFrame (ctx : SseCtx) (frame : Bytes) (st : RestoreState) :
    Except Fault RestoreState :=
  match dataContent frame with
  | none => .ok (st.push (.passthrough frame))
  | some dataStr =>
      match ctx.crates.parse dataStr with
      | none =>
          if trim dataStr = lit "[DONE]" ∧
              (ctx.provider = .openAi ∨ ctx.provider = .openRouter) then
            (flushAllAccumulators ctx st).map fun st => st.push (.passthrough frame)
          else .ok (st.push (.passthrough frame))
      | some json =>
          match extractFields json ctx.provider (eventType frame) with
          | [] =>
              match classifyTerminal json (eventType frame) ctx.provider with
              | some (.block n) =>
                  (flushAccumulatorsWhere ctx (TerminalScope.block n).contains st).map fun st =>
                    st.push (.passthrough frame)
              | some .stream =>
                  (flushAllAccumulators ctx st).map fun st =>
                    (if ctx.provider = .gemini then st.drainDeferred else st).push
                      (.passthrough frame)
              | none => .ok (st.push (.passthrough frame))
          | field :: fields =>
              flushSafePrefixes ctx
                { st with
                  accumulators := accumulate (field :: fields) st.accumulators
                  deferredPassthrough :=
                    st.deferredPassthrough ++ deferredOf ctx.provider json }

/-- Process frames one after the other. -/
def runFrames (ctx : SseCtx) : List Bytes → RestoreState → Except Fault RestoreState
  | [], st => .ok st
  | frame :: frames, st =>
      match processOneFrame ctx frame st with
      | .error e => .error e
      | .ok st => runFrames ctx frames st

/-! ### What a frame is -/

/-- The fields a frame contributes. -/
def extracted (ctx : SseCtx) (frame : Bytes) : List ExtractedField :=
  match (dataContent frame).bind ctx.crates.parse with
  | some json => extractFields json ctx.provider (eventType frame)
  | none => []

/-- The scope of a terminal frame: an event without content that `classifyTerminal`
knows, or `[DONE]` from a provider that sends it. -/
def terminalScope (ctx : SseCtx) (frame : Bytes) : Option TerminalScope :=
  match dataContent frame with
  | none => none
  | some dataStr =>
      match ctx.crates.parse dataStr with
      | none =>
          if trim dataStr = lit "[DONE]" ∧
              (ctx.provider = .openAi ∨ ctx.provider = .openRouter) then some .stream
          else none
      | some json =>
          match extractFields json ctx.provider (eventType frame) with
          | [] => classifyTerminal json (eventType frame) ctx.provider
          | _ :: _ => none

/-- What a content frame puts off until a later flush. -/
def deferredFor (ctx : SseCtx) (frame : Bytes) : List Emission :=
  match (dataContent frame).bind ctx.crates.parse with
  | some json => deferredOf ctx.provider json
  | none => []

end LlmCacheProxy.Sse
