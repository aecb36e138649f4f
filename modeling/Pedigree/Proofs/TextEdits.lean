import Mathlib.Order.Bounds.Basic
import Pedigree.Text.EditDistance

/-!
# The least number of edits

An edit inserts, deletes or replaces one character anywhere in a text (`Text.Edit`), and
`Text.Edits n` is `n` edits in a row. `Text.distance` compares two texts by their first characters.
One edit changes it by at most one (`Edit.distance_le`), and as many edits lead from one text to
the other (`edits_distance`), so it is the least number of edits that do (`isLeast_distance`).

The rows of the edit distance grow at the last characters of two starts, so an entry is the
distance of the starts read backwards (`distanceRow`). An entry comes from its three neighbours, and
from the diagonal alone where the characters agree, because neighbours differ by at most one
(`distance_cons_cons_eq`). Texts may as well be edited backwards (`edits_reverse_iff`), and so
`isLeast_editDistance` follows.
-/

namespace Pedigree.Text

/-! ## Edits -/

/-- One character is inserted, deleted or replaced. -/
inductive Edit : List Char → List Char → Prop
  | insert (front : List Char) (c : Char) (back : List Char) :
    Edit (front ++ back) (front ++ c :: back)
  | delete (front : List Char) (c : Char) (back : List Char) :
    Edit (front ++ c :: back) (front ++ back)
  | replace (front : List Char) (c d : Char) (back : List Char) :
    Edit (front ++ c :: back) (front ++ d :: back)

/-- A number of edits in a row lead from one text to another. -/
inductive Edits : Nat → List Char → List Char → Prop
  | none (a : List Char) : Edits 0 a a
  | step {n : Nat} {a b c : List Char} (h : Edit a b) (hrest : Edits n b c) : Edits (n + 1) a c

variable {a b : List Char} {n : Nat}

theorem Edit.cons (c : Char) (h : Edit a b) : Edit (c :: a) (c :: b) := by
  cases h with
  | insert front d back => exact .insert (c :: front) d back
  | delete front d back => exact .delete (c :: front) d back
  | replace front d d' back => exact .replace (c :: front) d d' back

theorem Edits.cons (c : Char) (h : Edits n a b) : Edits n (c :: a) (c :: b) := by
  induction h with
  | none a => exact .none (c :: a)
  | step h _ ih => exact .step (h.cons c) ih

theorem Edit.reverse (h : Edit a b) : Edit a.reverse b.reverse := by
  cases h with
  | insert front c back => simpa using Edit.insert back.reverse c front.reverse
  | delete front c back => simpa using Edit.delete back.reverse c front.reverse
  | replace front c d back => simpa using Edit.replace back.reverse c d front.reverse

theorem Edits.reverse (h : Edits n a b) : Edits n a.reverse b.reverse := by
  induction h with
  | none a => exact .none a.reverse
  | step h _ ih => exact .step h.reverse ih

theorem edits_reverse_iff : Edits n a.reverse b.reverse ↔ Edits n a b :=
  ⟨fun h => by simpa using h.reverse, Edits.reverse⟩

/-! ## The distance by first characters -/

/-- What it costs to turn one text into the other: the first character of either text may be
dropped for one edit, or both of them, for one edit if they differ. -/
def distance : List Char → List Char → Nat
  | [], b => b.length
  | c :: a, [] => (c :: a).length
  | c :: a, d :: b =>
    min (min (distance a (d :: b) + 1) (distance (c :: a) b + 1))
      (distance a b + if c = d then 0 else 1)
termination_by a b => a.length + b.length

@[simp] theorem distance_nil_left (b : List Char) : distance [] b = b.length := by
  rw [distance]

@[simp] theorem distance_nil_right (a : List Char) : distance a [] = a.length := by
  cases a with
  | nil => rw [distance_nil_left]
  | cons c a => rw [distance]

theorem distance_cons_cons (c d : Char) (a b : List Char) :
    distance (c :: a) (d :: b) =
      min (min (distance a (d :: b) + 1) (distance (c :: a) b + 1))
        (distance a b + if c = d then 0 else 1) := by
  rw [distance]

theorem distance_comm (a b : List Char) : distance a b = distance b a := by
  fun_induction distance a b with
  | case1 b => rw [distance_nil_right]
  | case2 c a => rw [distance_nil_left]
  | case3 c a d b ihLeft ihRight ihBoth =>
    rw [distance_cons_cons d c, ihLeft, ihRight, ihBoth, min_comm (distance (d :: b) a + 1)]
    simp only [eq_comm]

theorem distance_cons_left_le (c : Char) (a b : List Char) :
    distance (c :: a) b ≤ distance a b + 1 := by
  cases b with
  | nil => simp
  | cons d b =>
    rw [distance_cons_cons]
    omega

theorem distance_cons_right_le (a : List Char) (d : Char) (b : List Char) :
    distance a (d :: b) ≤ distance a b + 1 := by
  rw [distance_comm a, distance_comm a]
  exact distance_cons_left_le d b a

theorem distance_le_cons_left (c : Char) (a b : List Char) :
    distance a b ≤ distance (c :: a) b + 1 := by
  induction b with
  | nil => simp; omega
  | cons d b ih =>
    have hright := distance_cons_right_le a d b
    rw [distance_cons_cons]
    omega

theorem distance_le_cons_right (a : List Char) (d : Char) (b : List Char) :
    distance a b ≤ distance a (d :: b) + 1 := by
  rw [distance_comm a, distance_comm a]
  exact distance_le_cons_left d b a

/-- Where the first characters agree, none of them has to be dropped alone. -/
theorem distance_cons_cons_eq (c d : Char) (a b : List Char) :
    distance (c :: a) (d :: b) =
      if c = d then distance a b
      else 1 + min (min (distance a b) (distance a (d :: b))) (distance (c :: a) b) := by
  have hleft := distance_le_cons_left c a b
  have hright := distance_le_cons_right a d b
  rw [distance_cons_cons]
  split <;> omega

/-! ## Edits and the distance -/

theorem distance_replace_le (c d : Char) (a b : List Char) :
    distance (c :: a) b ≤ distance (d :: a) b + 1 := by
  induction b with
  | nil => simp
  | cons e b ih =>
    rw [distance_cons_cons, distance_cons_cons]
    split <;> omega

/-- What holds behind a character holds with it. -/
theorem distance_cons_congr_le (h : ∀ t, distance a t ≤ distance b t + 1) (c : Char)
    (t : List Char) : distance (c :: a) t ≤ distance (c :: b) t + 1 := by
  induction t with
  | nil => simpa using h []
  | cons d t ih =>
    have hboth := h t
    have hleft := h (d :: t)
    rw [distance_cons_cons, distance_cons_cons]
    omega

theorem distance_append_le (front : List Char) (h : ∀ t, distance a t ≤ distance b t + 1) :
    ∀ t, distance (front ++ a) t ≤ distance (front ++ b) t + 1 := by
  induction front with
  | nil => exact h
  | cons c front ih => exact distance_cons_congr_le ih c

/-- One edit brings a text nearer to another one by at most one. -/
theorem Edit.distance_le (h : Edit a b) (t : List Char) : distance a t ≤ distance b t + 1 := by
  cases h with
  | insert front c back => exact distance_append_le front (distance_le_cons_left c back) t
  | delete front c back => exact distance_append_le front (distance_cons_left_le c back) t
  | replace front c d back => exact distance_append_le front (distance_replace_le c d back) t

theorem distance_self (a : List Char) : distance a a = 0 := by
  induction a with
  | nil => simp
  | cons c a ih => rw [distance_cons_cons_eq, if_pos rfl, ih]

theorem Edits.distance_le (h : Edits n a b) : distance a b ≤ n := by
  induction h with
  | none a => exact (distance_self a).le
  | step h _ ih => exact (h.distance_le _).trans (Nat.succ_le_succ ih)

theorem edits_insert_all (b : List Char) : Edits b.length [] b := by
  induction b with
  | nil => exact .none []
  | cons d b ih => exact .step (.insert [] d []) (ih.cons d)

theorem edits_delete_all (a : List Char) : Edits a.length a [] := by
  induction a with
  | nil => exact .none []
  | cons c a ih => exact .step (.delete [] c a) ih

/-- As many edits as the distance says are enough. -/
theorem edits_distance (a b : List Char) : Edits (distance a b) a b := by
  fun_induction distance a b with
  | case1 b => exact edits_insert_all b
  | case2 c a => exact edits_delete_all (c :: a)
  | case3 c a d b ihLeft ihRight ihBoth =>
    have hdelete : Edits (distance a (d :: b) + 1) (c :: a) (d :: b) :=
      .step (.delete [] c a) ihLeft
    have hinsert : Edits (distance (c :: a) b + 1) (c :: a) (d :: b) :=
      .step (.insert [] d (c :: a)) (ihRight.cons d)
    have hboth : Edits (distance a b + if c = d then 0 else 1) (c :: a) (d :: b) := by
      split
      · rename_i h
        exact h ▸ ihBoth.cons c
      · exact .step (.replace [] c d a) (ihBoth.cons d)
    exact min_rec' (Edits · (c :: a) (d :: b))
      (min_rec' (Edits · (c :: a) (d :: b)) hdelete hinsert) hboth

theorem isLeast_distance (a b : List Char) : IsLeast {n | Edits n a b} (distance a b) :=
  ⟨edits_distance a b, fun _ h => h.distance_le⟩

/-! ## Rows -/

/-- The distances of a text to a start of another text and to its longer starts. Both the text and
the starts have their last character first. -/
def distanceRow (read start : List Char) : List Char → List Nat
  | [] => [distance read start]
  | d :: text => distance read start :: distanceRow read (d :: start) text

theorem distanceRow_eq_cons (read start text : List Char) :
    distanceRow read start text = distance read start :: (distanceRow read start text).tail := by
  cases text <;> rfl

theorem extendRow_distanceRow (c : Char) (read start text : List Char) :
    extendRow c (distance read start) (distance (c :: read) start) text
      (distanceRow read start text).tail = (distanceRow (c :: read) start text).tail := by
  induction text generalizing start with
  | nil => rfl
  | cons d text ih =>
    simp only [distanceRow, List.tail_cons]
    rw [distanceRow_eq_cons read, extendRow, ← distance_cons_cons_eq, ih, ← distanceRow_eq_cons]

theorem nextRow_distanceRow (text read : List Char) (c : Char) :
    nextRow text (distanceRow read [] text) c = distanceRow (c :: read) [] text := by
  have hfirst : distance read [] + 1 = distance (c :: read) [] := by simp
  rw [distanceRow_eq_cons read, nextRow, hfirst, extendRow_distanceRow, ← distanceRow_eq_cons]

theorem foldl_nextRow (text read : List Char) (a : List Char) :
    a.foldl (nextRow text) (distanceRow read [] text) =
      distanceRow (a.reverse ++ read) [] text := by
  induction a generalizing read with
  | nil => rfl
  | cons c a ih =>
    rw [List.foldl_cons, nextRow_distanceRow, ih, List.reverse_cons, List.append_assoc,
      List.singleton_append]

/-- The first row counts. -/
theorem distanceRow_nil (start text : List Char) :
    distanceRow [] start text = List.range' start.length (text.length + 1) := by
  induction text generalizing start with
  | nil => simp [distanceRow]
  | cons d text ih => simp [distanceRow, ih, List.range'_succ]

theorem getLast?_distanceRow (read start text : List Char) :
    (distanceRow read start text).getLast? = some (distance read (text.reverse ++ start)) := by
  induction text generalizing start with
  | nil => rfl
  | cons d text ih =>
    rw [distanceRow, distanceRow_eq_cons, List.getLast?_cons_cons, ← distanceRow_eq_cons, ih,
      List.reverse_cons, List.append_assoc, List.singleton_append]

theorem editDistance_eq (a b : List Char) :
    editDistance a b = distance a.reverse b.reverse := by
  have hfirst : List.range (b.length + 1) = distanceRow [] [] b := by
    rw [distanceRow_nil, List.range_eq_range', List.length_nil]
  rw [editDistance, hfirst, foldl_nextRow, getLast?_distanceRow, List.append_nil, List.append_nil,
    Option.getD_some]

/-- The edit distance of two texts is the least number of characters to insert, delete or replace
that turns one into the other. -/
theorem isLeast_editDistance (a b : List Char) :
    IsLeast {n | Edits n a b} (editDistance a b) := by
  have hleast := isLeast_distance a.reverse b.reverse
  simp only [edits_reverse_iff] at hleast
  rwa [editDistance_eq]

example : editDistance "indnt".toList "indent".toList = 1 := by decide

end Pedigree.Text
