import LlmCacheProxy.Provider

/-!
# The extension pipeline

An extension hooks into a request at three places: before the cache key is
computed, before a miss goes upstream, and on the response stream of a miss.
The second hook hands a state to the third.
-/

namespace LlmCacheProxy

/-- What a hook is told about the request. -/
structure ProxyCtx where
  provider : Provider
  method : Text
  path : Text
  /-- Known from the second phase on. -/
  cacheKey : Option Text

/-- The state of one extension for one request, known by its `get`. -/
structure SensitiveState where
  get : Text → Option Text

/-- An item of a response stream: a chunk, or the message of an I/O error. -/
abbrev Item := Except Text Bytes

structure Extension where
  onRequestBody : ProxyCtx → Bytes → Except Text Bytes
  onUpstreamBody : ProxyCtx → Bytes → Except Text (Bytes × SensitiveState)
  onResponseStream : ProxyCtx → SensitiveState → List Item → List Item

/-- `run_phase1`: the body goes through every extension in turn. -/
def runPhase1 (exts : List Extension) (ctx : ProxyCtx) (body : Bytes) : Except Text Bytes :=
  exts.foldlM (fun body ext => ext.onRequestBody ctx body) body

/-- `run_phase2`: the wire body, and one state for each extension. -/
def runPhase2 : List Extension → ProxyCtx → Bytes → Except Text (Bytes × List SensitiveState)
  | [], _, body => .ok (body, [])
  | ext :: rest, ctx, body => do
      let (body, state) ← ext.onUpstreamBody ctx body
      let (body, states) ← runPhase2 rest ctx body
      .ok (body, state :: states)

/-- `run_phase3`: each extension wraps the stream with its own state. -/
def runPhase3 (exts : List Extension) (ctx : ProxyCtx) (states : List SensitiveState)
    (stream : List Item) : List Item :=
  (exts.zip states).foldl (fun stream p => p.1.onResponseStream ctx p.2 stream) stream

/-! Without extensions a request passes through unchanged. -/

@[simp] theorem runPhase1_nil (ctx : ProxyCtx) (body : Bytes) :
    runPhase1 [] ctx body = .ok body := rfl

@[simp] theorem runPhase2_nil (ctx : ProxyCtx) (body : Bytes) :
    runPhase2 [] ctx body = .ok (body, []) := rfl

end LlmCacheProxy
