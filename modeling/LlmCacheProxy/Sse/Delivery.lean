import LlmCacheProxy.Sse.Framed
import LlmCacheProxy.Sse.Passes
import Mathlib.Logic.Function.Basic

/-!
# What the stream hands out

The items a reader receives are the queued ones, one by one and in order. On
the way to the end of an event stream all of them are framed, so the bytes
received split at empty lines into exactly these items.
-/

namespace LlmCacheProxy.Sse

open Framing

/-- The bytes of framed items, and of what is left over, come apart again. -/
private theorem blocks_items {ctx : SseCtx} {es : List Emission} {rest : Bytes}
    (hframed : ∀ e ∈ es, Framed ctx e) (hrest : nextBlock 0x0A rest = none) :
    blocks 0x0A ((es ++ tailEmission rest).map fun e => e.bytes ctx.crates).flatten =
      (es.map fun e => e.bytes ctx.crates, rest) := by
  have htail : ((tailEmission rest).map fun e => e.bytes ctx.crates).flatten = rest := by
    cases rest with
    | nil => rfl
    | cons b rest => simp [tailEmission, Emission.bytes]
  have hblocks : ∀ f ∈ es.map fun e => e.bytes ctx.crates, IsBlock 0x0A f := by
    intro f hf
    obtain ⟨e, he, rfl⟩ := List.mem_map.mp hf
    exact (hframed e he).isBlock
  rw [List.map_append, List.flatten_append, htail, blocks_of_isBlock hblocks,
    blocks_of_none hrest, List.append_nil]

/-- Splitting the output at empty lines gives the queued frames, one by one, and
behind them the bytes that never completed a frame: none if the text ends where
a frame does. Each synthetic frame holds its text on its only data line, and the
texts of a key are what restore returned for the segments of the text that was
received for it. -/
theorem output_framed {ctx : SseCtx} (hr : RestoresText ctx.crates ctx.entries)
    (hc : PrintsLines ctx.crates.toSerde) {script : List Polled} (herr : ErrorFree script)
    (hv : Utf8.Valid (scriptBytes script))
    (hfirst : (firstChunk script).any isSseFirstChunk = true) :
    ∃ frames es rest, Passes [] script frames rest ∧
      Delivers ctx (.detecting script) (es ++ tailEmission rest) ∧
      (∀ out, Drains ctx (.detecting script) out ↔
        out = (es ++ tailEmission rest).map fun e => e.bytes ctx.crates) ∧
      blocks 0x0A ((es ++ tailEmission rest).map fun e => e.bytes ctx.crates).flatten =
        (es.map fun e => e.bytes ctx.crates, rest) ∧
      (∀ key text, .synthetic key text ∈ es →
        CarriesText ctx (buildSyntheticSseFrame ctx.crates key text) key text) ∧
      (∀ key, RestoredTo ctx (received ctx key frames) (emittedTexts key es)) ∧
      (¬ [0x0D, 0x0D, 0x0A] <:+: scriptBytes script →
        rest = (blocks 0x0A (collapse 0x0D 0x0A (scriptBytes script))).2) := by
  obtain ⟨frames, st, left, hpasses, hfinished, hdelivers, hsettled⟩ :=
    ends_detecting hr herr hfirst
  have hshown := hfinished.restoredTo
  obtain ⟨st₀, hrun, hflush⟩ := hfinished
  have hst₀ := (FramesOnly.init ctx).run hc hpasses.isBlock hrun
  have hframed : ∀ e ∈ st.items, Framed ctx e := hst₀.flushAll hc hflush
  have hrest := hsettled (hpasses.valid.mpr hv)
  refine ⟨frames, st.items, left, hpasses, hdelivers, hdelivers.drains_iff,
    blocks_items hframed hrest, fun key text he => ?_, hshown, fun hcr => ?_⟩
  · exact (hframed _ he).carries key text rfl
  · exact (congrArg Prod.snd (hpasses.whole hv hcr)).symm

/-- A library that reads exactly what it prints. -/
noncomputable def compactSerde : Serde where
  parse := Function.partialInv fun v : Json => v.compact.bytes
  serialize := Json.compact

theorem compactSerde_printsLines : PrintsLines compactSerde := by
  constructor
  · exact fun v => oneLine_of_printable (Json.printable_compactBytes v)
  · intro v _
    apply Function.partialInv_left
    exact fun v w h => Json.compact_injective (Text.ext h)

/-- A secret that looks like the end of an event stream. -/
def breakingEntries : List Entry := [⟨lit "sk-4fs", lit "\n\ndata: [DONE]\n\n"⟩]

noncomputable def breakingCtx : SseCtx :=
  ⟨leftmostCrates compactSerde.parse compactSerde.serialize, breakingEntries, .openAi⟩

/-- The secret in a chat, and what the client makes of the answer. -/
theorem output_framed_breaking :
    ∃ frames es rest, Passes [] [.pending, .chunk (sampleFrame chatValue)] frames rest ∧
      Delivers breakingCtx (.detecting [.pending, .chunk (sampleFrame chatValue)])
        (es ++ tailEmission rest) ∧
      (∀ out, Drains breakingCtx (.detecting [.pending, .chunk (sampleFrame chatValue)]) out ↔
        out = (es ++ tailEmission rest).map fun e => e.bytes breakingCtx.crates) ∧
      blocks 0x0A ((es ++ tailEmission rest).map fun e => e.bytes breakingCtx.crates).flatten =
        (es.map fun e => e.bytes breakingCtx.crates, rest) ∧
      (∀ key text, .synthetic key text ∈ es → CarriesText breakingCtx
        (buildSyntheticSseFrame breakingCtx.crates key text) key text) ∧
      (∀ key, RestoredTo breakingCtx (received breakingCtx key frames) (emittedTexts key es)) ∧
      (¬ [0x0D, 0x0D, 0x0A] <:+:
          scriptBytes [.pending, .chunk (sampleFrame chatValue)] →
        rest = (blocks 0x0A (collapse 0x0D 0x0A
          (scriptBytes [.pending, .chunk (sampleFrame chatValue)]))).2) := by
  have hr : RestoresText breakingCtx.crates breakingCtx.entries :=
    restoresText_of_rewrites (leftmostCrates_rewrites _ _) (by decide) (by decide)
  exact output_framed hr compactSerde_printsLines (by simp [ErrorFree]) (by decide) (by decide)

end LlmCacheProxy.Sse
