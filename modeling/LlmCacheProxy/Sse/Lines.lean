import LlmCacheProxy.Foundation.JsonText
import LlmCacheProxy.Sse.Frame

/-!
# The lines of made frames

A frame that the proxy builds has one data line and at most one event line in
front of it, whatever is printed on them, as long as no line break is printed.
-/

namespace LlmCacheProxy.Sse

/-- Bytes that can stand on a line. -/
def OneLine (bs : Bytes) : Prop := 0x0A ∉ bs ∧ 0x0D ∉ bs

instance (bs : Bytes) : Decidable (OneLine bs) := inferInstanceAs (Decidable (_ ∧ _))

theorem OneLine.append {x y : Bytes} (hx : OneLine x) (hy : OneLine y) : OneLine (x ++ y) := by
  constructor
  · simp [hx.1, hy.1]
  · simp [hx.2, hy.2]

theorem oneLine_of_printable {bs : Bytes} (h : Json.Printable bs) : OneLine bs :=
  ⟨fun hb => absurd (h _ hb) (by decide), fun hb => absurd (h _ hb) (by decide)⟩

/-! ### Splitting -/

theorem splitInclusive_line {l rest : Bytes} (h : 0x0A ∉ l) :
    splitInclusive (l ++ 0x0A :: rest) = (l ++ [0x0A]) :: splitInclusive rest := by
  induction l with
  | nil => simp [splitInclusive]
  | cons b l ih =>
      obtain ⟨hb, hl⟩ := not_or.mp (mt List.mem_cons.mpr h)
      rw [List.cons_append, splitInclusive, if_neg (Ne.symm hb), ih hl]
      rfl

theorem chompLine_line {l : Bytes} (h : OneLine l) : chompLine (l ++ [0x0A]) = l := by
  have hlast : l.getLast? ≠ some 0x0D := fun hl => h.2 (List.mem_of_getLast? hl)
  simp [chompLine, hlast]

theorem lines_line {l rest : Bytes} (h : OneLine l) :
    lines (l ++ 0x0A :: rest) = l :: lines rest := by
  rw [lines, splitInclusive_line h.1, List.map_cons, chompLine_line h]
  rfl

/-! ### Frames -/

variable {c : Crates} {v : Json}

theorem lines_dataFrame (hv : OneLine (c.serialize v).bytes) :
    lines (dataFrame c v) = [lit "data: " ++ (c.serialize v).bytes, []] := by
  have hline : OneLine (lit "data: " ++ (c.serialize v).bytes) :=
    OneLine.append (by decide) hv
  have hend : lit "\n\n" = 0x0A :: [0x0A] := by decide
  have hrest : lines [0x0A] = [[]] := by decide
  rw [dataFrame, hend, lines_line hline, hrest]

/-- An event frame is a data frame behind an event line. -/
theorem eventFrame_eq (event : Text) :
    eventFrame c event v = lit "event: " ++ event.bytes ++ 0x0A :: dataFrame c v := by
  have hmiddle : lit "\ndata: " = 0x0A :: lit "data: " := by decide
  rw [eventFrame, hmiddle, dataFrame]
  simp

theorem lines_eventFrame {event : Text} (he : OneLine event.bytes)
    (hv : OneLine (c.serialize v).bytes) :
    lines (eventFrame c event v) =
      [lit "event: " ++ event.bytes, lit "data: " ++ (c.serialize v).bytes, []] := by
  have hfirst : OneLine (lit "event: " ++ event.bytes) := OneLine.append (by decide) he
  rw [eventFrame_eq, lines_line hfirst, lines_dataFrame hv]

private theorem fieldValue_data (s : Bytes) :
    fieldValue (lit "data: ") (lit "data:") (lit "data: " ++ s) = some s := by
  have hpre : (lit "data: ").isPrefixOf (lit "data: " ++ s) = true :=
    List.isPrefixOf_iff_prefix.mpr (List.prefix_append _ _)
  rw [fieldValue, stripPrefix, if_pos hpre, List.drop_left]
  rfl

private theorem fieldValue_event (s : Bytes) :
    fieldValue (lit "event: ") (lit "event:") (lit "event: " ++ s) = some s := by
  have hpre : (lit "event: ").isPrefixOf (lit "event: " ++ s) = true :=
    List.isPrefixOf_iff_prefix.mpr (List.prefix_append _ _)
  rw [fieldValue, stripPrefix, if_pos hpre, List.drop_left]
  rfl

private theorem fieldValue_data_event (s : Bytes) :
    fieldValue (lit "data: ") (lit "data:") (lit "event: " ++ s) = none := rfl

private theorem fieldValue_event_data (s : Bytes) :
    fieldValue (lit "event: ") (lit "event:") (lit "data: " ++ s) = none := rfl

theorem dataContent_dataFrame (hv : OneLine (c.serialize v).bytes) :
    dataContent (dataFrame c v) = some (c.serialize v).bytes := by
  rw [dataContent, lines_dataFrame hv, List.findSome?_cons, fieldValue_data]

theorem eventType_dataFrame (hv : OneLine (c.serialize v).bytes) :
    eventType (dataFrame c v) = none := by
  rw [eventType, lines_dataFrame hv, List.findSome?_cons, fieldValue_event_data]
  rfl

theorem dataContent_eventFrame {event : Text} (he : OneLine event.bytes)
    (hv : OneLine (c.serialize v).bytes) :
    dataContent (eventFrame c event v) = some (c.serialize v).bytes := by
  rw [dataContent, lines_eventFrame he hv, List.findSome?_cons, fieldValue_data_event,
    List.findSome?_cons, fieldValue_data]

theorem eventType_eventFrame {event : Text} (he : OneLine event.bytes)
    (hne : event ≠ Text.empty) (hv : OneLine (c.serialize v).bytes) :
    eventType (eventFrame c event v) = some event.bytes := by
  have hbytes : event.bytes.isEmpty = false :=
    List.isEmpty_eq_false_iff.mpr fun h => hne (Text.eq_empty_iff.mpr h)
  have hkept : (some event.bytes).filter (fun s => !s.isEmpty) = some event.bytes := by
    rw [Option.filter, hbytes]
    rfl
  rw [eventType, lines_eventFrame he hv, List.findSome?_cons, fieldValue_event, hkept]

/-- A line that holds data. -/
def isDataLine (line : Bytes) : Bool := (lit "data:").isPrefixOf line

theorem dataLines_dataFrame (hv : OneLine (c.serialize v).bytes) :
    (lines (dataFrame c v)).filter isDataLine = [lit "data: " ++ (c.serialize v).bytes] := by
  rw [lines_dataFrame hv]
  rfl

theorem dataLines_eventFrame {event : Text} (he : OneLine event.bytes)
    (hv : OneLine (c.serialize v).bytes) :
    (lines (eventFrame c event v)).filter isDataLine =
      [lit "data: " ++ (c.serialize v).bytes] := by
  rw [lines_eventFrame he hv]
  rfl

end LlmCacheProxy.Sse
