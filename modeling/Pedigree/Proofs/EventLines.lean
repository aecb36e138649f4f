import Pedigree.Proofs.ByteOrder
import Pedigree.Proofs.CommandAgreement
import Pedigree.Proofs.JsonReading

/-!
# Events as lines

Events are printed without white space, and a line break is put behind each of them. A line break
inside of a string is escaped, and no bracket, word or number holds one, so it does not occur in
a printed value (`Json.newline_notMem_write`). In UTF-8 its byte stands for no part of another
character (`Text.newline_notMem_bytes`). So a reader that splits the bytes at that byte has one line
for each event, and reads each line back as its event (`Task.emit_framed`).
-/

namespace Pedigree

/-! ## Bytes -/

namespace Text

/-- The byte of a line break. -/
def newline : UInt8 := 10

theorem bytes_newline : bytes ['\n'] = [newline] := by decide

theorem newline_notMem_bytes {text : List Char} (h : '\n' ∉ text) : newline ∉ bytes text :=
  notMem_bytes (d := '\n') (by decide) h

/-- Lines that end in a line break are split into the lines, and nothing after the last break. -/
theorem splitOn_newline {lines : List (List UInt8)} (h : ∀ line ∈ lines, newline ∉ line) :
    (lines.flatMap (· ++ [newline])).splitOn newline = lines ++ [[]] := by
  have hlines : lines.flatMap (· ++ [newline]) = [newline].intercalate (lines ++ [[]]) := by
    clear h
    induction lines with
    | nil => rfl
    | cons line lines ih =>
      rw [List.flatMap_cons, ih, List.cons_append,
        List.intercalate_cons_of_ne_nil (List.append_ne_nil_of_right_ne_nil _ (by simp))]
  rw [hlines]
  refine List.splitOn_intercalate newline (fun line hline => ?_) (by simp)
  rcases List.mem_append.1 hline with hline | hline
  · exact h line hline
  · rw [List.mem_singleton.1 hline]
    exact List.not_mem_nil

end Text

/-! ## Line breaks in values -/

namespace Json

/-- No line break between the parts of a value. -/
structure Layout.OneLine (layout : Layout) : Prop where
  line : ∀ depth, '\n' ∉ layout.line depth
  colon : '\n' ∉ layout.colon

theorem Layout.oneLine_compact : compact.OneLine := ⟨fun _ => List.not_mem_nil, by decide⟩

theorem Layout.blank_compact : compact.Blank :=
  ⟨fun _ => List.forall_mem_nil _, [], rfl, List.forall_mem_nil _⟩

theorem newline_notMem_escapeChar (c : Char) : '\n' ∉ escapeChar c := by
  have hdigit : ∀ d < 16, '\n' ≠ hexDigit d := by decide
  unfold escapeChar
  split_ifs with hquote hbackslash hn hr ht hb hf hunit
  · decide
  · decide
  · decide
  · decide
  · decide
  · decide
  · decide
  · simp [hdigit (c.toNat / 16) (by omega), hdigit (c.toNat % 16) (by omega)]
  · simpa using Ne.symm hn

theorem newline_notMem_quote (s : String) : '\n' ∉ quote s := by
  simp [quote, newline_notMem_escapeChar]

/-- No number goes on with a line break. -/
theorem newline_notMem_text (n : Number) : '\n' ∉ n.text.toList :=
  fun hmem => by cases isDelimiter_of_mem_text n '\n' hmem

variable {layout : Layout}

mutual

/-- A value is printed on one line. -/
theorem newline_notMem_write (h : layout.OneLine) : ∀ (v : Value) (depth : Nat),
    '\n' ∉ write layout depth v
  | .null, _ => by simp [write]
  | .bool true, _ => by simp [write]
  | .bool false, _ => by simp [write]
  | .number n, _ => newline_notMem_text n
  | .string s, _ => newline_notMem_quote s
  | .sequence [], _ => by simp [write]
  | .sequence (item :: items), depth => by
    simp [write, h.line, newline_notMem_write h item (depth + 1),
      newline_notMem_writeItems h items (depth + 1)]
  | .mapping [], _ => by simp [write]
  | .mapping ((key, value) :: entries), depth => by
    simp [write, h.line, h.colon, newline_notMem_quote,
      newline_notMem_write h value (depth + 1),
      newline_notMem_writeEntries h entries (depth + 1)]

theorem newline_notMem_writeItems (h : layout.OneLine) : ∀ (items : List Value) (depth : Nat),
    '\n' ∉ writeItems layout depth items
  | [], _ => List.not_mem_nil
  | item :: items, depth => by
    simp [writeItems, h.line, newline_notMem_write h item depth,
      newline_notMem_writeItems h items depth]

theorem newline_notMem_writeEntries (h : layout.OneLine) :
    ∀ (entries : List (String × Value)) (depth : Nat), '\n' ∉ writeEntries layout depth entries
  | [], _ => List.not_mem_nil
  | (key, value) :: entries, depth => by
    simp [writeEntries, h.line, h.colon, newline_notMem_quote,
      newline_notMem_write h value depth,
      newline_notMem_writeEntries h entries depth]

end

theorem write_ne_nil (layout : Layout) (depth : Nat) (v : Value) : write layout depth v ≠ [] := by
  cases v with
  | number n => exact n.toList_text_ne_nil
  | bool b => cases b <;> simp [write]
  | sequence items => cases items <;> simp [write]
  | mapping entries => cases entries <;> simp [write]
  | _ => simp [write, quote]

end Json

/-! ## Printed events -/

namespace Event

/-- The bytes of an event, the line break apart. -/
def bytes (event : Value) : List UInt8 := Text.bytes (Json.write .compact 0 event)

/-- The value of a line of bytes. -/
def read? (line : List UInt8) : Option Value := (Text.decode? line.toByteArray).bind Json.read?

/-- The lines of events, one after the other. -/
def lines (events : List Value) : String := String.join (events.map Event.line)

theorem toList_toUTF8_lines (events : List Value) :
    (lines events).toUTF8.data.toList = (events.map bytes).flatMap (· ++ [Text.newline]) := by
  rw [Text.toList_toUTF8, lines]
  induction events with
  | nil => rfl
  | cons event events ih =>
    rw [List.map_cons, String.join_cons, String.toList_append, Text.bytes_append, ih, Event.line,
      String.toList_append, Text.bytes_append, Json.compact, String.toList_ofList, List.map_cons,
      List.flatMap_cons, ← Text.bytes_newline]
    rfl

variable {event : Value}

theorem newline_notMem_bytes (event : Value) : Text.newline ∉ bytes event :=
  Text.newline_notMem_bytes (Json.newline_notMem_write Json.Layout.oneLine_compact event 0)

theorem read?_bytes (hformed : event.WellFormed) (hnumbers : event.Integral) :
    read? (bytes event) = some event := by
  rw [read?, bytes, Text.decode?_bytes, Option.bind_some]
  exact Json.read?_write Json.Layout.blank_compact hformed hnumbers

end Event

namespace Task

theorem emit_runs (events : List Value) (console : Console) :
    (events.forM emit).Runs console (.ok ()) (console.printed (Event.lines events)) := by
  induction events generalizing console with
  | nil =>
    rw [Event.lines, List.map_nil, String.join_nil, Console.printed, String.append_empty]
    exact .pure ..
  | cons event events ih =>
    have hlines : console.printed (Event.lines (event :: events)) =
        (console.printed (Event.line event)).printed (Event.lines events) := by
      rw [Event.lines, List.map_cons, String.join_cons, Console.printed, ← String.append_assoc]
      rfl
    rw [hlines]
    exact .bind (print_runs ..) (ih _)

/-- What is printed for events is split at the bytes of line breaks into one line for each event,
in order, with nothing behind the last break. No line is empty, and each is read back as its
event. -/
theorem emit_framed {events : List Value} (hformed : ∀ event ∈ events, event.WellFormed)
    (hnumbers : ∀ event ∈ events, event.Integral) (console : Console) :
    ∃ text lines, (events.forM emit).Runs console (.ok ()) (console.printed text) ∧
      text.toUTF8.data.toList.splitOn Text.newline = lines ++ [[]] ∧
      List.Forall₂ (fun line event => line ≠ [] ∧ Event.read? line = some event) lines events := by
  refine ⟨Event.lines events, events.map Event.bytes, emit_runs events console, ?_, ?_⟩
  · rw [Event.toList_toUTF8_lines]
    exact Text.splitOn_newline
      (List.forall_mem_map.2 fun event _ => Event.newline_notMem_bytes event)
  · rw [List.forall₂_map_left_iff, List.forall₂_same]
    exact fun event hevent => ⟨Text.bytes_ne_nil (Json.write_ne_nil _ _ event),
      Event.read?_bytes (hformed event hevent) (hnumbers event hevent)⟩

/-- A definition with line breaks in its name, in a key and in an item, and an event without
members. -/
def brokenEvents : List Value := [
  .mapping [("event", .string "definition"), ("name", .string "depth\n\"m\"\x01"),
    ("definition", .mapping [("unit\r\n", .sequence [.string "\n\n", .null,
      .number (.integer ⟨-273, by decide⟩)])])],
  .mapping []]

theorem emit_framed_broken :
    (∀ event ∈ brokenEvents, event.WellFormed) ∧ (∀ event ∈ brokenEvents, event.Integral) ∧
    ∃ text first second,
      (brokenEvents.forM emit).Runs ⟨.empty "work", "", ""⟩ (.ok ()) ⟨.empty "work", text, ""⟩ ∧
      text.toUTF8.data.toList.splitOn Text.newline = [first, second, []] ∧
      first ≠ [] ∧ second ≠ [] ∧
      Event.read? first = brokenEvents[0]? ∧ Event.read? second = brokenEvents[1]? := by
  have hformed : ∀ event ∈ brokenEvents, event.WellFormed := by
    simp [brokenEvents, or_imp, forall_and]
  have hnumbers : ∀ event ∈ brokenEvents, event.Integral := by
    simp [brokenEvents, or_imp, forall_and]
  obtain ⟨text, lines, hruns, hsplit, hlines⟩ :=
    emit_framed hformed hnumbers ⟨.empty "work", "", ""⟩
  obtain ⟨first, rest, ⟨hfirst, hreadFirst⟩, hrest, rfl⟩ := List.forall₂_cons_right_iff.1 hlines
  obtain ⟨second, _, ⟨hsecond, hreadSecond⟩, hnil, rfl⟩ := List.forall₂_cons_right_iff.1 hrest
  obtain rfl := List.forall₂_nil_right_iff.1 hnil
  rw [Console.printed, String.empty_append] at hruns
  exact ⟨hformed, hnumbers, text, first, second, hruns, hsplit, hfirst, hsecond, hreadFirst,
    hreadSecond⟩

end Task

end Pedigree
