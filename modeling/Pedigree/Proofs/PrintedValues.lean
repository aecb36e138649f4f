import Mathlib.Logic.Function.Basic
import Pedigree.Proofs.EventLines

/-!
# Printed values

A printed value determines the value, floats included (`Json.pretty_injective`,
`Json.compact_injective`). To a reader that knows every number by its text, the text has the tokens
of the value, and the tokens of a value end where the value ends (`Token.ofValue_append_inj`).

So there is one definition that a text shows (`Shows.unique`), one pair of counts that an event
reports (`Reports.unique`), and one pair of documents whose texts the files of a directory hold
(`FileTree.Holds.unique`).
-/

namespace Pedigree

namespace Json

/-! ## Tokens -/

namespace Token

/-- The tokens of a value do not start with the end of a sequence. -/
theorem ofValue_ne_endSequence (v : Value) {rest rest' : List Token} :
    ofValue id v ++ rest ≠ .endSequence :: rest' := by
  rcases v with _ | b | n | s | items | entries
  · simp [ofValue]
  · simp [ofValue]
  · simp [ofValue]
  · simp [ofValue]
  · cases items <;> simp [ofValue]
  · cases entries <;> simp [ofValue]

-- The first token tells the kind of a value, and whether a container has members. The tokens of
-- the members are told apart one after the other, the rest of the tokens being carried along.

mutual

/-- The tokens of a value determine the value, and where it ends. -/
theorem ofValue_append_inj : ∀ (v w : Value) {rest rest' : List Token},
    ofValue id v ++ rest = ofValue id w ++ rest' → v = w ∧ rest = rest'
  | .null, w, _, _, h | .bool _, w, _, _, h | .number _, w, _, _, h | .string _, w, _, _, h
  | .mapping [], w, _, _, h => by
    rcases w with _ | _ | _ | _ | (_ | ⟨_, _⟩) | (_ | ⟨⟨_, _⟩, _⟩) <;> simp_all [ofValue]
  | .sequence [], w, _, _, h => by
    rcases w with _ | _ | _ | _ | (_ | ⟨item', items'⟩) | (_ | ⟨⟨_, _⟩, _⟩)
    case sequence.cons =>
      simp only [ofValue, List.cons_append, List.append_assoc, List.cons.injEq, true_and] at h
      exact absurd h.symm (ofValue_ne_endSequence item')
    all_goals simp_all [ofValue]
  | .sequence (item :: items), w, _, _, h => by
    rcases w with _ | _ | _ | _ | (_ | ⟨item', items'⟩) | (_ | ⟨⟨_, _⟩, _⟩)
    case sequence.nil =>
      simp only [ofValue, List.cons_append, List.append_assoc, List.cons.injEq, true_and] at h
      exact absurd h (ofValue_ne_endSequence item)
    case sequence.cons =>
      simp only [ofValue, List.cons_append, List.append_assoc, List.cons.injEq, true_and] at h
      obtain ⟨rfl, hitems⟩ := ofValue_append_inj item item' h
      obtain ⟨rfl, hrest⟩ := ofItems_append_inj items items' hitems
      exact ⟨rfl, hrest⟩
    all_goals simp [ofValue] at h
  | .mapping ((key, value) :: entries), w, _, _, h => by
    rcases w with _ | _ | _ | _ | (_ | ⟨_, _⟩) | (_ | ⟨⟨key', value'⟩, entries'⟩)
    case mapping.cons =>
      simp only [ofValue, List.cons_append, List.append_assoc, List.cons.injEq, true_and,
        Token.string.injEq] at h
      obtain ⟨rfl, hvalue⟩ := h
      obtain ⟨rfl, hentries⟩ := ofValue_append_inj value value' hvalue
      obtain ⟨rfl, hrest⟩ := ofEntries_append_inj entries entries' hentries
      exact ⟨rfl, hrest⟩
    all_goals simp [ofValue] at h

theorem ofItems_append_inj : ∀ (items items' : List Value) {rest rest' : List Token},
    ofItems id items ++ .endSequence :: rest = ofItems id items' ++ .endSequence :: rest' →
      items = items' ∧ rest = rest'
  | [], items', _, _, h => by
    cases items' <;> simp_all [ofItems]
  | item :: items, items', _, _, h => by
    cases items' with
    | nil => simp [ofItems] at h
    | cons item' items' =>
      simp only [ofItems, List.cons_append, List.append_assoc, List.cons.injEq, true_and] at h
      obtain ⟨rfl, hitems⟩ := ofValue_append_inj item item' h
      obtain ⟨rfl, hrest⟩ := ofItems_append_inj items items' hitems
      exact ⟨rfl, hrest⟩

theorem ofEntries_append_inj : ∀ (entries entries' : List (String × Value))
    {rest rest' : List Token},
    ofEntries id entries ++ .endMapping :: rest = ofEntries id entries' ++ .endMapping :: rest' →
      entries = entries' ∧ rest = rest'
  | [], entries', _, _, h => by
    cases entries' <;> simp_all [ofEntries]
  | (key, value) :: entries, entries', _, _, h => by
    rcases entries' with _ | ⟨⟨key', value'⟩, entries'⟩
    · simp [ofEntries] at h
    · simp only [ofEntries, List.cons_append, List.append_assoc, List.cons.injEq, true_and,
        Token.string.injEq] at h
      obtain ⟨rfl, hvalue⟩ := h
      obtain ⟨rfl, hentries⟩ := ofValue_append_inj value value' hvalue
      obtain ⟨rfl, hrest⟩ := ofEntries_append_inj entries entries' hentries
      exact ⟨rfl, hrest⟩

end

end Token

/-! ## Texts -/

/-- What is printed in any layout determines the value. -/
theorem write_injective {layout : Layout} (h : layout.Blank) :
    Function.Injective (write layout 0) := by
  intro v w heq
  -- A reader that knows the numbers by their texts.
  have hinj : Function.Injective fun n : Number => n.text.toList :=
    fun m n hmn => Number.text_injective (String.toList_injective hmn)
  have hlex : ∀ v, Token.lex (Function.partialInv fun n : Number => n.text.toList)
      (write layout 0 v) = some (Token.ofValue id v) :=
    fun v => Scan.lex_write h fun n _ => Function.partialInv_left hinj n
  have htokens : Token.ofValue id v = Token.ofValue id w := by
    have hv := hlex v
    rw [heq] at hv
    exact Option.some.inj (hv.symm.trans (hlex w))
  exact (Token.ofValue_append_inj v w (congrArg (· ++ []) htokens)).1

theorem pretty_injective (indent : Nat) : Function.Injective (pretty indent) :=
  fun _ _ h => write_injective (Layout.blank_indented indent) (String.ofList_injective h)

theorem compact_injective : Function.Injective compact :=
  fun _ _ h => write_injective Layout.blank_compact (String.ofList_injective h)

end Json

theorem Event.line_injective : Function.Injective Event.line :=
  fun _ _ h => Json.compact_injective ((String.append_left_inj "\n").1 h)

theorem Value.ofNat_of_lt {n : Nat} (h : n < Nat.pow 2 64) :
    ∃ i : Integer64, Value.ofNat n = .number (.integer i) ∧ i.toInt = n := by
  have hrange : -(Nat.pow 2 63 : Int) ≤ n ∧ (n : Int) < (Nat.pow 2 64 : Int) := by omega
  refine ⟨⟨n, hrange⟩, ?_, rfl⟩
  rw [Value.ofNat, Number.ofNat?, Number.ofInt?, Integer64.ofInt?, dif_pos hrange,
    Option.map_some, Option.map_some, Option.getD_some]

theorem Value.ofNat_of_not_lt {n : Nat} (h : ¬n < Nat.pow 2 64) : Value.ofNat n = .null := by
  have hrange : ¬(-(Nat.pow 2 63 : Int) ≤ n ∧ (n : Int) < (Nat.pow 2 64 : Int)) := by omega
  rw [Value.ofNat, Number.ofNat?, Number.ofInt?, Integer64.ofInt?, dif_neg hrange,
    Option.map_none, Option.map_none, Option.getD_none]

/-- A count of 64 bits is told apart from all others. -/
theorem Value.ofNat_inj {m n : Nat} (hm : m < Nat.pow 2 64) (h : Value.ofNat m = .ofNat n) :
    m = n := by
  obtain ⟨i, hi, hm⟩ := Value.ofNat_of_lt hm
  rw [hi] at h
  by_cases hn : n < Nat.pow 2 64
  · obtain ⟨j, hj, hn⟩ := Value.ofNat_of_lt hn
    rw [hj] at h
    obtain rfl : i = j := by simpa using h
    exact Int.ofNat_inj.1 (hm.symm.trans hn)
  · rw [Value.ofNat_of_not_lt hn] at h
    cases h

/-! ## What commands print -/

/-- A text shows one value. -/
theorem Shows.unique {json : Bool} {indent : Nat} {text : String} {v w : Value}
    (hv : Shows json indent text v) (hw : Shows json indent text w) : v = w := by
  cases json with
  | true =>
    obtain ⟨event, rfl, hv⟩ := hv
    obtain ⟨event', hline, hw⟩ := hw
    cases Event.line_injective hline
    exact Option.some.inj (hv.symm.trans hw)
  | false =>
    obtain rfl : text = Json.pretty indent v ++ "\n" := hv
    exact Json.pretty_injective indent ((String.append_left_inj "\n").1 hw)

/-- An event reports one pair of counts. -/
theorem Reports.unique {text : String} {properties objects properties' objects' : Nat}
    (h : Reports true text properties objects) (h' : Reports true text properties' objects')
    (hproperties : properties < Nat.pow 2 64) (hobjects : objects < Nat.pow 2 64) :
    properties = properties' ∧ objects = objects' := by
  obtain ⟨event, rfl, hfirst, hsecond⟩ := h
  obtain ⟨event', hline, hfirst', hsecond'⟩ := h'
  cases Event.line_injective hline
  exact ⟨Value.ofNat_inj hproperties (Option.some.inj (hfirst.symm.trans hfirst')),
    Value.ofNat_inj hobjects (Option.some.inj (hsecond.symm.trans hsecond'))⟩

/-- The files of a directory hold one pair of mappings. -/
theorem FileTree.Holds.unique {t : FileTree} {output : Path} {indent : Nat} {v w v' w' : Value}
    (h : t.Holds output ⟨Json.pretty indent v, Json.pretty indent w⟩)
    (h' : t.Holds output ⟨Json.pretty indent v', Json.pretty indent w'⟩) : v = v' ∧ w = w' := by
  obtain ⟨directory, henters, hproperties, hobjects⟩ := h
  obtain ⟨directory', henters', hproperties', hobjects'⟩ := h'
  obtain rfl := Except.ok.inj (henters.symm.trans henters')
  have htext : ∀ {location : Location} {text text' : String},
      t.node? location = some (.file text.toUTF8) → t.node? location = some (.file text'.toUTF8) →
        text = text' := by
    intro location text text' hfile hfile'
    have hnode := hfile.symm.trans hfile'
    simp only [Option.some.injEq, FileNode.file.injEq] at hnode
    exact String.toByteArray_inj.1 hnode
  exact ⟨Json.pretty_injective indent (htext hproperties hproperties'),
    Json.pretty_injective indent (htext hobjects hobjects')⟩

end Pedigree
