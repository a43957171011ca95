import LlmCacheProxy.Foundation.Text

/-!
# Upstream providers

The provider is fixed by the first segment of the request path. It selects the
upstream, the request fields left out of the cache key and the schema of the
response events.
-/

namespace LlmCacheProxy

inductive Provider where
  | anthropic
  | openAi
  | openRouter
  | gemini
  deriving DecidableEq, Repr

namespace Provider

def pathPrefix : Provider → Text
  | .anthropic => "anthropic"
  | .openAi => "openai"
  | .openRouter => "openrouter"
  | .gemini => "gemini"

def defaultUpstream : Provider → Text
  | .anthropic => "https://api.anthropic.com"
  | .openAi => "https://api.openai.com"
  | .openRouter => "https://openrouter.ai/api/v1"
  | .gemini => "https://generativelanguage.googleapis.com"

def fromPrefix (s : Text) : Option Provider :=
  if s = "anthropic" then some .anthropic
  else if s = "openai" then some .openAi
  else if s = "openrouter" then some .openRouter
  else if s = "gemini" then some .gemini
  else none

/-- Request fields beyond `stream` that do not contribute to the cache key. -/
def normalizationStripFields : Provider → List Text
  | .anthropic => ["metadata"]
  | .openAi => ["user"]
  | .openRouter => ["user", "provider", "route"]
  | .gemini => []

/-- The model name between `/models/` and the colon after it. Both are ASCII, so that
the slices fall on character boundaries. -/
def extractGeminiModel (path : Text) : Option Text := do
  let marker : Text := "/models/"
  let idx ← Text.find? marker.bytes path.bytes
  let afterMarker ← path.splitAt? (idx + marker.length)
  let stop ← Text.find? (Text.ofString ":").bytes afterMarker.2.bytes
  let model ← afterMarker.2.splitAt? stop
  if model.1 = .empty then none else some model.1

def extractModelFromPath (p : Provider) (path : Text) : Option Text :=
  match p with
  | .gemini => extractGeminiModel path
  | _ => none

example : extractGeminiModel "v1beta/models/gemini-2.5-flash:generateContent" =
    some (Text.ofString "gemini-2.5-flash") := by decide

/-- Only the canonical prefix of a provider selects it. -/
theorem fromPrefix_eq_some {s : Text} {p : Provider} (h : fromPrefix s = some p) :
    s = p.pathPrefix := by
  unfold fromPrefix at h
  split_ifs at h with h₁ h₂ h₃ h₄ <;> obtain rfl := Option.some.inj h <;> assumption

theorem fromPrefix_pathPrefix (p : Provider) : fromPrefix p.pathPrefix = some p := by
  cases p <;> decide

end Provider

end LlmCacheProxy
