import LlmCacheProxy.Foundation.LeftmostRewrite
import LlmCacheProxy.Sse.Window

/-!
# What restore is relied on for

The window needs restore to turn text into text without failing. Leftmost
replacement of fakes by originals does so as soon as both are UTF-8.
-/

namespace LlmCacheProxy.Sse

open LeftmostRewrite

/-- Restore does not fail on text and turns text into text. -/
def RestoresText (c : Crates) (entries : List Entry) : Prop :=
  ∀ segment : Text, ∃ output, c.restore entries segment.bytes = .ok output ∧ Utf8.Valid output

theorem RestoresText.restoreText {c : Crates} {entries : List Entry}
    (hr : RestoresText c entries) (segment : Text) :
    ∃ restored, c.restoreText entries segment = .ok restored := by
  obtain ⟨output, ho, hv⟩ := hr segment
  refine ⟨⟨output, hv⟩, ?_⟩
  simp [Crates.restoreText, ho, Text.ofUtf8?, hv]

theorem RestoresText.flushSafePrefix {c : Crates} {entries : List Entry}
    (hr : RestoresText c entries) (w : Nat) (key : FieldKey) (accum : Text) :
    ∃ r, flushSafePrefix c entries w key accum = .ok r := by
  cases h : Sse.flushSafePrefix c entries w key accum with
  | ok r => exact ⟨r, rfl⟩
  | error fault =>
      obtain ⟨segment, e, -, he, -⟩ := flushSafePrefix_error h
      obtain ⟨restored, hok⟩ := hr.restoreText segment
      rw [hok] at he
      cases he

/-- The replacement of each fake by its original. -/
def rules (entries : List Entry) : List (RewriteRule UInt8) :=
  entries.map fun e => ⟨e.fake, e.original⟩

/-- Restore is leftmost non-overlapping replacement under a tie-breaking policy. -/
def Rewrites (c : Crates) (π : Policy UInt8) : Prop :=
  ∀ entries s, c.restore entries s = .ok (rewrite π (rules entries) s)

theorem length_pattern_le {entries : List Entry} {r : RewriteRule UInt8}
    (h : r ∈ rules entries) : r.pattern.length ≤ maxFakeLen entries := by
  obtain ⟨e, he, rfl⟩ := List.mem_map.mp h
  exact length_le_maxFakeLen he

/-! ### Replacement keeps text valid -/

/-- A nonempty text starts with the first byte of a character. -/
theorem not_continuation_head {b : UInt8} {p : Bytes} (h : Utf8.Valid (b :: p)) :
    Utf8.isContinuation b = false := by
  simp only [Utf8.Valid, Utf8.run, Utf8.step] at h
  split at h
  · rename_i s hs
    exact Utf8.lead_not_continuation hs
  · cases h

/-- Inside a character no UTF-8 pattern begins. -/
private theorem candidates_inside {rs : List (RewriteRule UInt8)}
    (hrs : ∀ r ∈ rs, Utf8.Valid r.pattern) {σ σ' : Utf8.State} {b : UInt8} {s : Bytes}
    (hσ : σ ≠ .boundary) (hstep : Utf8.step σ b = some σ') : candidates rs (b :: s) = [] := by
  rw [List.eq_nil_iff_forall_not_mem]
  intro r hr
  obtain ⟨hmem, hne, hpre⟩ := mem_candidates.mp hr
  have hvalid := hrs r hmem
  match hp : r.pattern, hne with
  | c :: p, _ =>
      rw [hp] at hpre hvalid
      obtain ⟨rfl, -⟩ := List.cons_prefix_cons.mp hpre
      have := not_continuation_head hvalid
      rw [Utf8.step_inner_continuation hσ hstep] at this
      cases this

private theorem run_rewrite {π : Policy UInt8} {rs : List (RewriteRule UInt8)}
    (hrs : ∀ r ∈ rs, Utf8.Valid r.pattern ∧ Utf8.Valid r.replacement) (n : Nat) {s : Bytes}
    (hn : s.length ≤ n) {σ : Utf8.State} (h : Utf8.run σ s = some .boundary) :
    Utf8.run σ (rewrite π rs s) = some .boundary := by
  induction n generalizing s σ with
  | zero =>
      obtain rfl : s = [] := List.length_eq_zero_iff.mp (by omega)
      exact h
  | succ n ih =>
      cases s with
      | nil => exact h
      | cons b s =>
          cases hstep : Utf8.step σ b with
          | none => simp [Utf8.run, hstep] at h
          | some σ' =>
              have hrest : Utf8.run σ' s = some .boundary := by simpa [Utf8.run, hstep] using h
              cases hc : π.choose (candidates rs (b :: s)) with
              | none =>
                  rw [rewrite_of_none π hc]
                  simp only [Utf8.run, hstep]
                  exact ih (by simpa using hn) hrest
              | some r =>
                  obtain ⟨hmem, hne, hpre⟩ := mem_candidates.mp (π.choose_mem _ _ hc)
                  -- A pattern starts here, so this is the start of a character.
                  have hσ : σ = .boundary := by
                    by_contra hσ
                    have hnil := candidates_inside (fun r hr => (hrs r hr).1) hσ hstep (s := s)
                    have := π.choose_mem _ _ hc
                    rw [hnil] at this
                    cases this
                  subst hσ
                  obtain ⟨t, ht⟩ := hpre
                  have hpos : 0 < r.pattern.length := List.length_pos_iff.mpr hne
                  have hlen := congrArg List.length ht
                  rw [List.length_append] at hlen
                  have ht' : Utf8.Valid t := by
                    rw [← (hrs r hmem).1.append_iff, ht]
                    exact h
                  rw [rewrite_of_some π hc, ← ht, List.drop_left]
                  exact (hrs r hmem).2.append (ih (by omega) ht')

/-- Replacing UTF-8 patterns by UTF-8 text turns text into text. -/
theorem valid_rewrite {π : Policy UInt8} {rs : List (RewriteRule UInt8)}
    (hrs : ∀ r ∈ rs, Utf8.Valid r.pattern ∧ Utf8.Valid r.replacement) {s : Bytes}
    (h : Utf8.Valid s) : Utf8.Valid (rewrite π rs s) :=
  run_rewrite hrs s.length le_rfl h

theorem restoresText_of_rewrites {c : Crates} {π : Policy UInt8} (hc : Rewrites c π)
    {entries : List Entry} (hf : ∀ e ∈ entries, Utf8.Valid e.fake)
    (ho : ∀ e ∈ entries, Utf8.Valid e.original) : RestoresText c entries := by
  intro segment
  refine ⟨_, hc entries segment.bytes, valid_rewrite ?_ segment.valid⟩
  intro r hr
  obtain ⟨e, he, rfl⟩ := List.mem_map.mp hr
  exact ⟨hf e he, ho e he⟩

/-- The crates around a given JSON library, with the first entry winning ties. -/
def leftmostCrates (parse : Bytes → Option Json) (serialize : Json → Text) : Crates where
  parse := parse
  serialize := serialize
  restore := fun entries s => .ok (rewrite (Policy.first UInt8) (rules entries) s)
  restoreStream := fun entries s => .ok [rewrite (Policy.first UInt8) (rules entries) s]

theorem leftmostCrates_rewrites (parse : Bytes → Option Json) (serialize : Json → Text) :
    Rewrites (leftmostCrates parse serialize) (Policy.first UInt8) := fun _ _ => rfl

/-- One entry, whose fake happens to end with its own first letter. -/
def alikeEntries : List Entry := [⟨lit "sk-4fs", lit "sk-9Qe"⟩]

theorem leftmostCrates_restoresText (parse : Bytes → Option Json) (serialize : Json → Text) :
    RestoresText (leftmostCrates parse serialize) alikeEntries :=
  restoresText_of_rewrites (leftmostCrates_rewrites parse serialize) (by decide) (by decide)

end LlmCacheProxy.Sse
