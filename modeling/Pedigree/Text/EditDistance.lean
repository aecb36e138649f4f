/-!
# Edit distance

The number of characters to insert, delete or replace that turns one text into another, computed
row by row. A row holds the distances of the text read so far to the starts of the other text,
the empty start first.
-/

namespace Pedigree.Text

/-- The next row behind its first entry. `diagonal` and `left` are the neighbours of the entry
that is to be computed, `above` runs over the entries above. -/
def extendRow (c : Char) (diagonal left : Nat) : List Char → List Nat → List Nat
  | d :: text, above :: row =>
    let entry := if c = d then diagonal else 1 + min (min diagonal above) left
    entry :: extendRow c above entry text row
  | _, _ => []

/-- The row for one more character. -/
def nextRow (text : List Char) (row : List Nat) (c : Char) : List Nat :=
  match row with
  | [] => []
  | first :: row => (first + 1) :: extendRow c first (first + 1) text row

/-- The edit distance of two texts. -/
def editDistance (a b : List Char) : Nat :=
  (a.foldl (nextRow b) (List.range (b.length + 1))).getLast?.getD 0

end Pedigree.Text
