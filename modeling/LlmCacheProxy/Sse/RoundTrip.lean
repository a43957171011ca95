import LlmCacheProxy.Sse.Delivery

/-!
# Synthetic frames are read back

A synthetic frame is made from a key and a text. Read again as a frame, it gives
the text, but not always the key: the frames of Gemini do not say that a text is
a thought, nor from which part it came.
-/

namespace LlmCacheProxy.Sse

/-- Some event of the provider has a field under this key. -/
def FieldKey.Extractable (p : Provider) (key : FieldKey) : Prop :=
  ∃ json et, ∃ f ∈ extractFields json p et, f.key = key

/-- The key does not say more than a frame that is made from it: the text is no
thought, and came from the first part. -/
def FieldKey.Encoded : FieldKey → Prop
  | .geminiText thought => thought = false
  | .geminiCodeExecOutput partIndex => partIndex = 0
  | .geminiFuncCallArg partIndex _ => partIndex = 0
  | _ => True

theorem FieldKey.readBack_eq_iff (key : FieldKey) : key.readBack = key ↔ key.Encoded := by
  cases key with
  | geminiText thought => simp [readBack, Encoded, eq_comm]
  | geminiCodeExecOutput partIndex => simp [readBack, Encoded, eq_comm]
  | geminiFuncCallArg partIndex argKey => simp [readBack, Encoded, eq_comm]
  | anthropicDelta | openAiContent | openAiToolCall | openAiReasoning | openAiFunctionCallArgs
  | openAiRefusal | responsesApiDelta | responsesApiDone => exact iff_of_true rfl trivial

/-- A synthetic frame decodes to what it encodes exactly when the key says no
more than the frame. -/
theorem extracted_synthetic_iff {ctx : SseCtx} (hc : PrintsLines ctx.crates.toSerde)
    {key : FieldKey} (hkey : key.Extractable ctx.provider) {text : Text} (ht : text ≠ Text.empty) :
    extracted ctx (buildSyntheticSseFrame ctx.crates key text) = [⟨key, text⟩] ↔ key.Encoded := by
  obtain ⟨json, et, f, hf, rfl⟩ := hkey
  have hread := (carriesText_synthetic hc (extractFields_ofProvider hf) ht).fields
  rw [hread, ← FieldKey.readBack_eq_iff, List.cons.injEq, ExtractedField.mk.injEq]
  simp

/-! ### A thought -/

noncomputable def readingCtx (p : Provider) : SseCtx :=
  ⟨leftmostCrates compactSerde.parse compactSerde.serialize, [], p⟩

/-- A part that holds a thought. -/
def thoughtPart : Json :=
  geminiPart (.ofMembers [("text", .string "hm"), ("thought", .bool true)])

theorem extracted_synthetic_block : extracted (readingCtx .anthropic)
    (buildSyntheticSseFrame (readingCtx .anthropic).crates (.anthropicDelta "thinking_delta" 3)
      "hm") = [⟨.anthropicDelta "thinking_delta" 3, "hm"⟩] := by
  have hprovider : (FieldKey.anthropicDelta "thinking_delta" 3).OfProvider .anthropic :=
    ⟨rfl, Or.inr (Or.inl rfl)⟩
  have hfields := extractFields_syntheticValue hprovider (by decide : Text.ofString "hm" ≠ .empty)
  have hkey : (FieldKey.anthropicDelta "thinking_delta" 3).Extractable .anthropic :=
    ⟨_, _, _, by rw [hfields]; exact List.mem_singleton_self _, rfl⟩
  exact (extracted_synthetic_iff compactSerde_printsLines hkey (by decide)).mpr trivial

/-- The text of a thought is read back as an answer. -/
theorem thought_lost :
    extractFields thoughtPart .gemini none = [⟨.geminiText true, "hm"⟩] ∧
      extracted (readingCtx .gemini)
          (buildSyntheticSseFrame (readingCtx .gemini).crates (.geminiText true) "hm") ≠
        [⟨.geminiText true, "hm"⟩] := by
  have hfield : extractFields thoughtPart .gemini none = [⟨.geminiText true, "hm"⟩] := rfl
  have hkey : (FieldKey.geminiText true).Extractable .gemini :=
    ⟨thoughtPart, none, _, by rw [hfield]; exact List.mem_singleton_self _, rfl⟩
  refine ⟨hfield, fun hread => ?_⟩
  have hprovider : (FieldKey.geminiText true).OfProvider (readingCtx .gemini).provider := rfl
  rw [(carriesText_synthetic compactSerde_printsLines hprovider (by decide)).fields] at hread
  cases hread

end LlmCacheProxy.Sse
