import Mathlib.Data.List.Forall2
import Pedigree.Configuration.Reader
import Pedigree.Proofs.PathSteps

/-!
# The scan for a key

The line of a key is found by a scan over the lines of the text (`Configuration.findLine`). Here
the scan is said of the text itself : of its first line (`firstLine`) and of the lines behind it
(`nextLines`). White space at the ends of a line plays no part, so the scan finds
the same lines whether breaks are written with a carriage return or without one
(`findLine_joinLines`).
-/

namespace Pedigree

namespace Text

/-! ## Trimmed texts -/

variable {drop : Char → Bool} {c : Char}

/-- A text is its trimmed part between characters that are dropped. -/
theorem exists_trimBy (drop : Char → Bool) (text : List Char) :
    ∃ front back, text = front ++ trimBy drop text ++ back ∧ (∀ c ∈ front, drop c = true) ∧
      ∀ c ∈ back, drop c = true := by
  refine ⟨text.takeWhile drop, ((text.dropWhile drop).reverse.takeWhile drop).reverse, ?_,
    fun c => List.mem_takeWhile_imp, fun c hc => List.mem_takeWhile_imp (List.mem_reverse.1 hc)⟩
  rw [trimBy, List.append_assoc, ← List.reverse_append, List.takeWhile_append_dropWhile,
    List.reverse_reverse, List.takeWhile_append_dropWhile]

theorem trimBy_cons_of_drop (h : drop c = true) (text : List Char) :
    trimBy drop (c :: text) = trimBy drop text := by
  rw [trimBy, List.dropWhile_cons_of_pos h, trimBy]

theorem trimBy_cons_of_keep (h : drop c = false) (text : List Char) :
    trimBy drop (c :: text) = c :: (text.reverse.dropWhile drop).reverse := by
  have hkeep : [c].dropWhile drop = [c] := List.dropWhile_cons_of_neg (by simp [h])
  rw [trimBy, List.dropWhile_cons_of_neg (by simp [h]), List.reverse_cons, List.dropWhile_append,
    hkeep]
  split
  · rename_i hempty
    rw [List.isEmpty_iff.1 hempty]
    rfl
  · simp

theorem trimBy_concat_of_drop (h : drop c = true) (text : List Char) :
    trimBy drop (text ++ [c]) = trimBy drop text := by
  have hdrop : [c].dropWhile drop = [] := List.dropWhile_cons_of_pos h
  rw [trimBy, List.dropWhile_append, hdrop]
  split
  · rename_i hempty
    rw [trimBy, List.isEmpty_iff.1 hempty]
  · rw [List.reverse_append, List.reverse_singleton, List.singleton_append,
      List.dropWhile_cons_of_pos h, trimBy]

/-! ## Lines -/

theorem bne_of_notMem {separator : Char} {text : List Char} (h : separator ∉ text) :
    ∀ c ∈ text, (c != separator) = true := by
  intro c hc
  rw [bne_iff_ne]
  rintro rfl
  exact h hc

/-- A text with a separator is what stands before the first one, the separator, and the rest. -/
theorem eq_takeWhile_append {separator : Char} {text : List Char} (h : separator ∈ text) :
    text = text.takeWhile (· != separator) ++ separator :: (text.dropWhile (· != separator)).tail ∧
      separator ∉ text.takeWhile (· != separator) := by
  refine ⟨?_, fun hmem => by simpa using List.mem_takeWhile_imp hmem⟩
  obtain ⟨before, after, rfl, hbefore⟩ := List.eq_append_cons_of_mem h
  rw [List.takeWhile_append_of_pos (bne_of_notMem hbefore),
    List.dropWhile_append_of_pos (bne_of_notMem hbefore)]
  simp

/-- The first line of a text. -/
def firstLine (text : List Char) : List Char := text.takeWhile (· != '\n')

/-- The lines behind the first one. -/
def nextLines (text : List Char) : List Char := (text.dropWhile (· != '\n')).tail

theorem firstLine_of_notMem {text : List Char} (h : '\n' ∉ text) : firstLine text = text :=
  List.takeWhile_eq_self_iff.2 (bne_of_notMem h)

theorem nextLines_of_notMem {text : List Char} (h : '\n' ∉ text) : nextLines text = [] := by
  rw [nextLines, List.dropWhile_eq_nil_iff.2 (bne_of_notMem h), List.tail_nil]

theorem firstLine_cons_of_ne {c : Char} (h : c ≠ '\n') (text : List Char) :
    firstLine (c :: text) = c :: firstLine text :=
  List.takeWhile_cons_of_pos (by simpa using h)

theorem nextLines_cons_of_ne {c : Char} (h : c ≠ '\n') (text : List Char) :
    nextLines (c :: text) = nextLines text := by
  rw [nextLines, List.dropWhile_cons_of_pos (by simpa using h), nextLines]

theorem nextLines_break_cons (text : List Char) : nextLines ('\n' :: text) = text := rfl

/-- A text with a break is its first line, the break, and the lines behind it. -/
theorem eq_firstLine_append {text : List Char} (h : '\n' ∈ text) :
    text = firstLine text ++ '\n' :: nextLines text ∧ '\n' ∉ firstLine text :=
  eq_takeWhile_append h

theorem split_of_mem {text : List Char} (h : '\n' ∈ text) :
    split '\n' text = firstLine text :: split '\n' (nextLines text) := by
  obtain ⟨htext, hnot⟩ := eq_firstLine_append h
  conv_lhs => rw [htext, split_append_separator, split_of_notMem hnot]
  rfl

end Text

namespace Configuration

open Text

variable {table key current : List Char} {number line : Nat}

/-- The scan finds nothing in an empty text. -/
@[simp] theorem findLine_split_nil (table key : List Char) (number : Nat) (current : List Char) :
    findLine table key number current (split '\n' []) = none := by
  have hheader : headerName? (trim []) = none := rfl
  have hentry : (entryName? (trim []) == some key) = false := rfl
  simp only [split, findLine, hheader, hentry, Bool.and_false, Bool.false_eq_true, if_false]

/-- The scan reads the first line and goes on with the lines behind it. The name of a table is
kept for them. -/
theorem findLine_split_of_header {text name : List Char}
    (h : headerName? (trim (firstLine text)) = some name) :
    findLine table key number current (split '\n' text) =
      if table.isEmpty && name == key then some number
      else findLine table key (number + 1) name (split '\n' (nextLines text)) := by
  by_cases hbreak : '\n' ∈ text
  · rw [split_of_mem hbreak]
    simp only [findLine, h]
  · rw [firstLine_of_notMem hbreak] at h
    rw [split_of_notMem hbreak, nextLines_of_notMem hbreak, findLine_split_nil]
    simp only [findLine, h]

theorem findLine_split_of_not_header {text : List Char}
    (h : headerName? (trim (firstLine text)) = none) :
    findLine table key number current (split '\n' text) =
      if current == table && entryName? (trim (firstLine text)) == some key then some number
      else findLine table key (number + 1) current (split '\n' (nextLines text)) := by
  by_cases hbreak : '\n' ∈ text
  · rw [split_of_mem hbreak]
    simp only [findLine, h]
  · rw [firstLine_of_notMem hbreak] at h ⊢
    rw [split_of_notMem hbreak, nextLines_of_notMem hbreak, findLine_split_nil]
    simp only [findLine, h]

/-- Behind a line that the scan finds there is a break. -/
theorem mem_of_findLine_nextLines {text : List Char}
    (h : findLine table key number current (split '\n' (nextLines text)) = some line) :
    '\n' ∈ text := by
  by_contra hnot
  rw [nextLines_of_notMem hnot, findLine_split_nil] at h
  cases h

theorem findLine_congr {lines lines' : List (List Char)}
    (h : List.Forall₂ (fun l l' => trim l = trim l') lines lines') (number : Nat)
    (current : List Char) :
    findLine table key number current lines = findLine table key number current lines' := by
  induction h generalizing number current with
  | nil => rfl
  | cons hline _ ih => simp only [findLine, hline, ih]

/-- The lines of a text are those of the joined text, some with a carriage return at the end. -/
theorem forall₂_split_joinLines {chars text : List Char} (h : Toml.joinLines chars = some text) :
    List.Forall₂ (fun l l' => l = l' ∨ l = l' ++ ['\r']) (split '\n' chars) (split '\n' text) := by
  fun_induction Toml.joinLines chars generalizing text with
  | case1 =>
    obtain rfl := Option.some.inj h
    exact .cons (Or.inl rfl) .nil
  | case2 rest ih =>
    obtain ⟨rest', hrest, rfl⟩ := Option.map_eq_some_iff.1 h
    have hcr : split '\n' ('\r' :: '\n' :: rest) = ['\r'] :: split '\n' rest :=
      split_append_separator ['\r'] rest
    rw [hcr, split_separator_cons]
    exact .cons (Or.inr rfl) (ih hrest)
  | case3 => cases h
  | case4 c rest _ _ ih =>
    obtain ⟨rest', hrest, rfl⟩ := Option.map_eq_some_iff.1 h
    by_cases hc : c = '\n'
    · rw [hc, split_separator_cons, split_separator_cons]
      exact .cons (Or.inl rfl) (ih hrest)
    · have hlines := ih hrest
      obtain ⟨part, parts, hsplit⟩ := List.exists_cons_of_ne_nil (split_ne_nil '\n' rest)
      obtain ⟨part', parts', hsplit'⟩ := List.exists_cons_of_ne_nil (split_ne_nil '\n' rest')
      rw [hsplit, hsplit'] at hlines
      rw [split, split, hsplit, hsplit']
      simp only [if_neg hc]
      obtain ⟨hpart, hparts⟩ := List.forall₂_cons.1 hlines
      refine .cons ?_ hparts
      rcases hpart with rfl | rfl
      · exact Or.inl rfl
      · exact Or.inr rfl

/-- The scan finds the same line in a text and in the joined text. -/
theorem findLine_joinLines {chars text : List Char} (h : Toml.joinLines chars = some text)
    (table key : List Char) (number : Nat) (current : List Char) :
    findLine table key number current (split '\n' chars) =
      findLine table key number current (split '\n' text) := by
  refine findLine_congr ((forall₂_split_joinLines h).imp fun l l' hl => ?_) number current
  rcases hl with rfl | rfl
  · rfl
  · exact trimBy_concat_of_drop (by decide) l'

end Configuration

end Pedigree
