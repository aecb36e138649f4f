import Mathlib.Data.List.Basic
import Pedigree.Toml.Reader

/-!
# Statements at their places

A text is read as statements, each from the place where the gap before it ends (`Toml.Reads`). The
table that keys go to at a place is the one of the last header before it (`Toml.openTable`), and the
entries of a document are made by its statements in order (`Toml.Document.exists_isReadAs`).
-/

namespace Pedigree.Toml

/-! ## Places -/

/-- A statement in a text. -/
structure Placed where
  /-- The text from the beginning of the statement on. -/
  text : List Char
  statement : Statement
  /-- The text behind the statement. -/
  rest : List Char

/-- The statements that a text is read as, in order. -/
inductive Reads : List Char → List Placed → Prop
  | done {text : List Char} (h : skipGap false text = some []) : Reads text []
  | next {text start rest : List Char} {statement : Statement} {places : List Placed}
    (hgap : skipGap false text = some start) (hstart : start ≠ [])
    (hstatement : readStatement start = some (statement, rest)) (h : Reads rest places) :
    Reads text (⟨start, statement, rest⟩ :: places)

theorem exists_reads {count : Nat} {text : List Char} {statements : List Statement}
    (h : readStatements count text = some statements) :
    ∃ places, Reads text places ∧ places.map Placed.statement = statements := by
  induction count generalizing text statements with
  | zero => cases h
  | succ count ih =>
    rw [readStatements] at h
    obtain ⟨start, hgap, h⟩ := Option.bind_eq_some_iff.1 h
    split at h
    · obtain rfl := Option.some.inj h
      exact ⟨[], .done hgap, rfl⟩
    · rename_i hstart
      obtain ⟨⟨statement, rest⟩, hstatement, h⟩ := Option.bind_eq_some_iff.1 h
      obtain ⟨following, hfollowing, h⟩ := Option.bind_eq_some_iff.1 h
      obtain rfl := Option.some.inj h
      obtain ⟨places, hplaces, rfl⟩ := ih hfollowing
      exact ⟨_, .next hgap hstart hstatement hplaces, rfl⟩

/-! ## Documents -/

/-- The table that keys go to behind a statement. -/
def Statement.table (current : List String) : Statement → List String
  | .header path key | .nextHeader path key => path ++ [key]
  | .assign .. => current

/-- The table that keys go to behind some statements. -/
def openTable (current : List String) (places : List Placed) : List String :=
  places.foldl (fun current place => place.statement.table current) current

namespace Document

/-- The statements of a content, at their places in the text that is left of it when breaks are
written without a carriage return. -/
structure IsReadAs (content : String) (text : List Char) (places : List Placed) : Prop where
  joined : joinLines content.toList = some text
  reads : Reads text places

theorem table_of_step {state state' : Entries × List String} {statement : Statement}
    (h : step state statement = some state') : state'.2 = statement.table state.2 := by
  cases statement <;>
  · obtain ⟨entries, -, rfl⟩ := Option.map_eq_some_iff.1 h
    rfl

/-- Keys go to the open table. -/
theorem table_of_foldlM_step {state state' : Entries × List String} {places : List Placed}
    (h : (places.map Placed.statement).foldlM step state = some state') :
    state'.2 = openTable state.2 places := by
  induction places generalizing state with
  | nil =>
    cases h
    rfl
  | cons place places ih =>
    obtain ⟨between, hstep, hrest⟩ := Option.bind_eq_some_iff.1 h
    rw [ih hrest, table_of_step hstep]
    rfl

/-- A document without a byte order mark is read statement by statement. -/
theorem exists_isReadAs {content : String} {entries : Entries} (h : read? content = some entries)
    (hmark : content.toList.head? ≠ some '\ufeff') :
    ∃ text places, IsReadAs content text places ∧
      (places.map Placed.statement).foldlM step ([], []) =
        some (entries, openTable [] places) := by
  unfold read? at h
  split at h
  · rename_i hchars
    rw [hchars] at hmark
    exact absurd rfl hmark
  · obtain ⟨text, hjoined, h⟩ := Option.bind_eq_some_iff.1 h
    obtain ⟨statements, hstatements, h⟩ := Option.bind_eq_some_iff.1 h
    obtain ⟨⟨entries', table⟩, hfold, h⟩ := Option.bind_eq_some_iff.1 h
    cases h
    obtain ⟨places, hreads, rfl⟩ := exists_reads hstatements
    obtain rfl : table = openTable [] places := table_of_foldlM_step hfold
    exact ⟨text, places, ⟨hjoined, hreads⟩, hfold⟩

end Document

end Pedigree.Toml
