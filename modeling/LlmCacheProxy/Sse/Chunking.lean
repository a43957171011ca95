import LlmCacheProxy.Sse.Passes

/-!
# Chunking does not matter

The bytes an early pass leaves over, followed by the later input, frame like the
whole text. So an event stream yields the same items however it is cut into
chunks and wherever the wrapped stream has nothing to offer yet.
-/

namespace LlmCacheProxy.Sse

open Framing

/-- All frames of `text` are processed, then every accumulator is flushed, and
none holds anything any more; the deferred frames and the unfinished rest come
last. -/
def Canonical (ctx : SseCtx) (text : Bytes) (out : List Bytes) : Prop :=
  ∃ st st',
    runFrames ctx (blocks 0x0A (collapse 0x0D 0x0A text)).1 RestoreState.init = .ok st ∧
    flushAllAccumulators ctx st = .ok st' ∧ (∀ key, st'.accum key = Text.empty) ∧
    out = (st'.outputQueue ++ st'.deferredPassthrough ++
      tailEmission (blocks 0x0A (collapse 0x0D 0x0A text)).2).map fun e => e.bytes ctx.crates

/-- The text alone determines the canonical items. -/
theorem Canonical.unique {ctx : SseCtx} {text : Bytes} {out out' : List Bytes}
    (h : Canonical ctx text out) (h' : Canonical ctx text out') : out = out' := by
  obtain ⟨st, st₁, hrun, hflush, -, rfl⟩ := h
  obtain ⟨st', st₁', hrun', hflush', -, rfl⟩ := h'
  obtain rfl : st = st' := Except.ok.inj (hrun.symm.trans hrun')
  obtain rfl : st₁ = st₁' := Except.ok.inj (hflush.symm.trans hflush')
  rfl

/-- A text without `cr cr nl` yields its canonical items under every script
whose first nonempty chunk is recognized, and no others. -/
theorem drains_of_every_chunking {ctx : SseCtx} (hr : RestoresText ctx.crates ctx.entries)
    {text : Bytes} (hv : Utf8.Valid text) (hcr : ¬ [0x0D, 0x0D, 0x0A] <:+: text)
    {script₁ script₂ : List Polled} (h₁ : ErrorFree script₁) (h₂ : ErrorFree script₂)
    (htext₁ : scriptBytes script₁ = text) (htext₂ : scriptBytes script₂ = text)
    (hfirst₁ : (firstChunk script₁).any isSseFirstChunk = true)
    (hfirst₂ : (firstChunk script₂).any isSseFirstChunk = true) :
    ∃ out, Canonical ctx text out ∧
      (∀ out', Drains ctx (.detecting script₁) out' ↔ out' = out) ∧
      ∀ out', Drains ctx (.detecting script₂) out' ↔ out' = out := by
  have hone {script : List Polled} (herr : ErrorFree script) (htext : scriptBytes script = text)
      (hfirst : (firstChunk script).any isSseFirstChunk = true) :
      ∃ es, Delivers ctx (.detecting script) es ∧
        Canonical ctx text (es.map fun e => e.bytes ctx.crates) := by
    subst htext
    obtain ⟨frames, st, left, hpasses, ⟨st₀, hrun, hflush⟩, hdelivers, -⟩ :=
      ends_detecting hr herr hfirst
    refine ⟨_, hdelivers, st₀, st, ?_, hflush, fun key => (flushAll_conserves hflush key).1, ?_⟩
    · rwa [hpasses.whole hv hcr]
    · rw [hpasses.whole hv hcr, RestoreState.items]
  obtain ⟨es₁, hdelivers₁, hcan₁⟩ := hone h₁ htext₁ hfirst₁
  obtain ⟨es₂, hdelivers₂, hcan₂⟩ := hone h₂ htext₂ hfirst₂
  refine ⟨_, hcan₁, hdelivers₁.drains_iff, ?_⟩
  rw [hcan₁.unique hcan₂]
  exact hdelivers₂.drains_iff

/-- A Gemini event whose text has a fake and a character of two bytes, and whose
signature is put off. -/
def signedEvent : Json :=
  .object [("candidates", .array [.object [("content", .object [("parts",
    .array [.object [("text", .string "sk-4fs é")]])])]]), ("thoughtSignature", .string "s")]

/-- The event, and the beginning of a comment. -/
def signedText : Bytes := sampleFrame signedEvent ++ lit ": pi"

/-- The text at once, and cut inside the character between idle polls. -/
theorem drains_of_every_chunking_signed :
    ∃ out, Canonical (sampleCtx .gemini [signedEvent]) signedText out ∧
      (∀ out', Drains (sampleCtx .gemini [signedEvent])
        (.detecting [.chunk signedText]) out' ↔ out' = out) ∧
      ∀ out', Drains (sampleCtx .gemini [signedEvent])
        (.detecting [.chunk [], .pending, .chunk (signedText.take 59), .pending, .pending,
          .chunk (signedText.drop 59)]) out' ↔ out' = out := by
  have hcr : (0x0D : UInt8) ∉ signedText := by decide
  exact drains_of_every_chunking (sampleCtx_restoresText _ _) (by decide)
    (fun hin => hcr (hin.subset (by simp))) (by simp [ErrorFree]) (by simp [ErrorFree])
    (by decide) (by decide) (by decide) (by decide)

end LlmCacheProxy.Sse
