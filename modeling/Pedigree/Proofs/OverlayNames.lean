import Mathlib.Data.List.TakeWhile
import Pedigree.Definition

/-!
# Names of overlays

The overlay of a definition is looked up under the name of the definition, a dot and the locale.
Whether an entry of a collection is an overlay at all is decided by what stands before its last
dot. `stem?_overlayName` brings the two together : they speak of the same definition if the locale
has no dot. If it has one, the front of the locale counts as a part of the definition's name.
-/

namespace Pedigree

/-- The part of a name after its last dot, the whole name if it has none. -/
def lastPart (name : String) : String :=
  String.ofList (name.toList.reverse.takeWhile (· != '.')).reverse

theorem reverse_overlayName (name last : String) :
    (overlayName name last).toList.reverse =
      last.toList.reverse ++ '.' :: name.toList.reverse := by
  simp [overlayName, String.toList_append]

theorem overlayName_assoc (name front last : String) :
    overlayName name (overlayName front last) = overlayName (overlayName name front) last := by
  simp only [overlayName, String.append_assoc]

/-- No character of a part without dots ends it. -/
theorem bne_dot_of_mem_reverse {last : String} (h : '.' ∉ last.toList) :
    ∀ c ∈ last.toList.reverse, (c != '.') = true := by
  intro c hc
  rw [bne_iff_ne]
  rintro rfl
  exact h (List.mem_reverse.1 hc)

theorem stem?_overlayName_of_not_mem (name : String) {last : String} (h : '.' ∉ last.toList) :
    stem? (overlayName name last) = some name := by
  have hdrop : (overlayName name last).toList.reverse.dropWhile (· != '.') =
      '.' :: name.toList.reverse := by
    rw [reverse_overlayName, List.dropWhile_append_of_pos (bne_dot_of_mem_reverse h)]
    exact List.dropWhile_cons_of_neg (by simp)
  simp [stem?, hdrop]

theorem lastPart_overlayName (name : String) {last : String} (h : '.' ∉ last.toList) :
    lastPart (overlayName name last) = last := by
  rw [lastPart, reverse_overlayName, List.takeWhile_append_of_pos (bne_dot_of_mem_reverse h),
    List.takeWhile_cons_of_neg (by simp)]
  simp

/-- A name with a dot is cut at the last one. -/
theorem exists_eq_overlayName {name : String} (h : '.' ∈ name.toList) :
    ∃ stem last, '.' ∉ last.toList ∧ name = overlayName stem last := by
  obtain ⟨last, stem, hsplit, hlast⟩ := List.eq_append_cons_of_mem (List.mem_reverse.2 h)
  refine ⟨String.ofList stem.reverse, String.ofList last.reverse, by simpa using hlast, ?_⟩
  have hname : name.toList = stem.reverse ++ '.' :: last.reverse := by
    rw [← List.reverse_reverse name.toList, hsplit]
    simp
  rw [← String.toList_inj, hname]
  simp [overlayName]

theorem stem?_eq_none_iff {name : String} : stem? name = none ↔ '.' ∉ name.toList := by
  constructor
  · intro hnone hmem
    obtain ⟨stem, last, hlast, rfl⟩ := exists_eq_overlayName hmem
    rw [stem?_overlayName_of_not_mem stem hlast] at hnone
    cases hnone
  · intro h
    have hdrop : name.toList.reverse.dropWhile (· != '.') = [] :=
      List.dropWhile_eq_nil_iff.2 (bne_dot_of_mem_reverse h)
    rw [stem?, hdrop]

/-- A name with a stem is the stem, a dot and a part without dots. -/
theorem exists_of_stem? {name stem : String} (h : stem? name = some stem) :
    ∃ last, '.' ∉ last.toList ∧ name = overlayName stem last := by
  have hmem : '.' ∈ name.toList := by
    by_contra hnot
    rw [stem?_eq_none_iff.2 hnot] at h
    cases h
  obtain ⟨stem', last, hlast, rfl⟩ := exists_eq_overlayName hmem
  rw [stem?_overlayName_of_not_mem stem' hlast] at h
  exact ⟨last, hlast, by rw [Option.some.inj h]⟩

/-- The front of a locale with dots belongs to the stem of the overlay's name. -/
theorem stem?_overlayName (name locale : String) :
    stem? (overlayName name locale) =
      some (match stem? locale with
        | none => name
        | some front => overlayName name front) := by
  cases hstem : stem? locale with
  | none => exact stem?_overlayName_of_not_mem name (stem?_eq_none_iff.1 hstem)
  | some front =>
    obtain ⟨last, hlast, rfl⟩ := exists_of_stem? hstem
    rw [overlayName_assoc]
    exact stem?_overlayName_of_not_mem _ hlast

namespace Collection

variable {collection other : Collection} {name stem : String}

theorem isOverlay_of_stem? (h : stem? name = some stem) :
    collection.isOverlay name = collection.contains stem := by
  rw [isOverlay, h]

/-- The names of a collection decide which entries are overlays. -/
theorem isOverlay_congr (h : ∀ n, n ∈ other.keys ↔ n ∈ collection.keys) :
    other.isOverlay = collection.isOverlay := by
  funext name
  unfold isOverlay
  split
  · rw [Bool.eq_iff_iff, OrderedMap.contains_iff, OrderedMap.contains_iff, h]
  · rfl

/-- The overlay of an entry is told apart if the locale has no dot, or if the entry has an overlay
for the front of the locale too. -/
theorem isOverlay_overlayName_iff (hname : name ∈ collection.keys) (locale : String) :
    collection.isOverlay (overlayName name locale) = true ↔
      ∀ front, stem? locale = some front → overlayName name front ∈ collection.keys := by
  rw [isOverlay_of_stem? (stem?_overlayName name locale), OrderedMap.contains_iff]
  cases stem? locale <;> simp [hname]

end Collection

end Pedigree
