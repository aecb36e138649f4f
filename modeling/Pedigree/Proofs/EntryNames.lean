import Mathlib.Data.List.TakeWhile
import Pedigree.DefinitionDirectory
import Pedigree.Proofs.ByteOrder

/-!
# Names of entries in bytes

An operating system gives the name of an entry as bytes, which need not be text (`RawName`). Such a
name is cut at its last dot before anything is known of it (`RawName.stem`, `RawName.extension?`).
The byte of a dot stands for a dot only, so a name that is text is cut where the text is
(`RawName.stem_ofText`, `RawName.extension?_ofText`), and a name whose two parts are text is text
(`RawName.exists_ofText`).
-/

namespace Pedigree

/-! ## Cutting at the last separator -/

section SplitLast

variable {α : Type} [DecidableEq α] {separator : α}

/-- What stands before the last separator and behind it, unless nothing stands before it. -/
def splitLast (separator : α) (list : List α) : List α × Option (List α) :=
  let reversed := list.reverse
  let stem := (reversed.dropWhile (· != separator)).drop 1
  if stem.isEmpty then (list, none)
  else (stem.reverse, some (reversed.takeWhile (· != separator)).reverse)

theorem bne_of_mem_reverse {list : List α} (h : separator ∉ list) :
    ∀ a ∈ list.reverse, (a != separator) = true := by
  intro a ha
  rw [bne_iff_ne]
  rintro rfl
  exact h (List.mem_reverse.1 ha)

theorem dropWhile_reverse_of_notMem {list : List α} (h : separator ∉ list) :
    list.reverse.dropWhile (· != separator) = [] :=
  List.dropWhile_eq_nil_iff.2 (bne_of_mem_reverse h)

theorem splitLast_of_notMem {list : List α} (h : separator ∉ list) :
    splitLast separator list = (list, none) := by
  simp [splitLast, dropWhile_reverse_of_notMem h]

theorem takeWhile_reverse_append (stem : List α) {rest : List α} (h : separator ∉ rest) :
    (stem ++ separator :: rest).reverse.takeWhile (· != separator) = rest.reverse := by
  rw [List.reverse_append, List.reverse_cons, List.append_assoc,
    List.takeWhile_append_of_pos (bne_of_mem_reverse h), List.singleton_append,
    List.takeWhile_cons_of_neg (by simp), List.append_nil]

theorem dropWhile_reverse_append (stem : List α) {rest : List α} (h : separator ∉ rest) :
    (stem ++ separator :: rest).reverse.dropWhile (· != separator) = separator :: stem.reverse := by
  have hcut := List.takeWhile_append_dropWhile (p := (· != separator))
    (l := (stem ++ separator :: rest).reverse)
  rw [takeWhile_reverse_append stem h] at hcut
  exact List.append_cancel_left (hcut.trans (by simp))

theorem splitLast_append (stem : List α) {rest : List α} (h : separator ∉ rest) :
    splitLast separator (stem ++ separator :: rest) =
      if stem = [] then (separator :: rest, none) else (stem, some rest) := by
  simp only [splitLast, takeWhile_reverse_append stem h, dropWhile_reverse_append stem h,
    List.drop_one, List.tail_cons, List.isEmpty_iff, List.reverse_eq_nil_iff, List.reverse_reverse]
  split
  · rename_i hstem
    rw [hstem, List.nil_append]
  · rfl

omit [DecidableEq α] in
/-- A list without a separator is not cut, and one with a separator at the last one. -/
theorem notMem_or_exists_append (separator : α) (list : List α) :
    separator ∉ list ∨ ∃ stem rest, separator ∉ rest ∧ list = stem ++ separator :: rest := by
  refine or_iff_not_imp_left.2 fun h => ?_
  obtain ⟨rest, stem, hsplit, hrest⟩ :=
    List.eq_append_cons_of_mem (List.mem_reverse.2 (not_not.1 h))
  refine ⟨stem.reverse, rest.reverse, by simpa using hrest, ?_⟩
  rw [← List.reverse_reverse list, hsplit]
  simp

/-- What is cut is put together from its parts. -/
theorem eq_append_of_splitLast {list stem rest : List α}
    (h : splitLast separator list = (stem, some rest)) : list = stem ++ separator :: rest := by
  rcases notMem_or_exists_append separator list with hnot | ⟨stem', rest', hrest, rfl⟩
  · rw [splitLast_of_notMem hnot] at h
    cases h
  · rw [splitLast_append stem' hrest] at h
    split at h
    · cases h
    · cases h
      rfl

end SplitLast

/-- Names of files are cut at the last dot. -/
theorem Path.splitExtension_eq (name : String) : splitExtension name =
    (String.ofList (splitLast '.' name.toList).1,
      (splitLast '.' name.toList).2.map String.ofList) := by
  simp only [splitExtension, splitLast]
  split
  · simp
  · rfl

/-- A name with an extension is its stem, a dot, and the extension. -/
theorem Path.eq_of_splitExtension {name stem extension : String}
    (h : splitExtension name = (stem, some extension)) : name = stem ++ "." ++ extension := by
  rw [splitExtension_eq] at h
  obtain ⟨rfl, hextension⟩ := Prod.mk.inj h
  obtain ⟨rest, hrest, rfl⟩ := Option.map_eq_some_iff.1 hextension
  have hname := eq_append_of_splitLast (Prod.ext rfl hrest)
  refine String.toList_inj.1 (hname.trans ?_)
  simp

/-! ## Names that may be text -/

/-- The name of an entry as an operating system gives it. -/
@[ext]
structure RawName where
  bytes : List UInt8
deriving DecidableEq

namespace RawName

/-- The byte of a dot. -/
def dot : UInt8 := 46

/-- The bytes of a name that is text. -/
def ofText (name : String) : RawName := ⟨Text.bytes name.toList⟩

/-- The name as text, if its bytes are UTF-8. -/
def text? (name : RawName) : Option String := Text.decode? name.bytes.toByteArray

/-- The name as it is shown. What is no text in it is replaced. -/
def shown (name : RawName) : String :=
  name.text?.getD (Text.decodeLossy name.bytes.toByteArray)

/-- The name without its extension. -/
def stem (name : RawName) : RawName := ⟨(splitLast dot name.bytes).1⟩

/-- The extension of a name, if it has one. -/
def extension? (name : RawName) : Option RawName := (splitLast dot name.bytes).2.map RawName.mk

/-- Whether a file of this name holds a definition. The extension has to be text. -/
def isDefinitionFile (extensions : List String) (name : RawName) : Bool :=
  match name.extension?.bind text? with
  | some extension => extensions.contains extension
  | none => false

theorem text?_eq_some_iff {name : RawName} {text : String} :
    name.text? = some text ↔ name = ofText text := by
  obtain ⟨bytes⟩ := name
  rw [text?, Text.decode?_eq_some_iff, ofText, RawName.mk.injEq]
  constructor
  · intro hencoded
    have hbytes := congrArg (fun encoded => encoded.data.toList) hencoded
    dsimp only at hbytes
    rwa [List.toList_data_toByteArray, Text.toList_toUTF8] at hbytes
  · rintro rfl
    exact String.utf8Encode_toList

@[simp] theorem text?_ofText (name : String) : (ofText name).text? = some name :=
  text?_eq_some_iff.2 rfl

@[simp] theorem shown_ofText (name : String) : (ofText name).shown = name := by
  rw [shown, text?_ofText, Option.getD_some]

theorem ofText_injective {name other : String} (h : ofText name = ofText other) :
    name = other := by
  have htext := text?_ofText name
  rw [h, text?_ofText] at htext
  exact (Option.some.inj htext).symm

theorem ofText_lt_iff {name other : String} :
    (ofText name).bytes < (ofText other).bytes ↔ name < other := by
  rw [Text.lt_iff_lex_bytes, Text.toList_toUTF8, Text.toList_toUTF8]
  rfl

/-- A text is cut in bytes where it is cut in characters. -/
theorem splitLast_bytes (text : List Char) : splitLast dot (Text.bytes text) =
    (Text.bytes (splitLast '.' text).1, (splitLast '.' text).2.map Text.bytes) := by
  have hdot : ∀ {rest : List Char}, '.' ∉ rest → dot ∉ Text.bytes rest := fun h =>
    Text.notMem_bytes (d := '.') (by decide) h
  rcases notMem_or_exists_append '.' text with hnot | ⟨stem, rest, hrest, rfl⟩
  · rw [splitLast_of_notMem hnot, splitLast_of_notMem (hdot hnot)]
    rfl
  · have hbytes : Text.bytes (stem ++ '.' :: rest) =
        Text.bytes stem ++ dot :: Text.bytes rest := Text.bytes_append ..
    rw [hbytes, splitLast_append _ hrest, splitLast_append _ (hdot hrest)]
    by_cases hstem : stem = []
    · subst hstem
      rfl
    · rw [if_neg hstem, if_neg (Text.bytes_ne_nil hstem)]
      rfl

theorem stem_ofText (name : String) :
    (ofText name).stem = ofText (Path.splitExtension name).1 := by
  rw [stem, ofText, splitLast_bytes, Path.splitExtension_eq, ofText, String.toList_ofList]

theorem extension?_ofText (name : String) :
    (ofText name).extension? = (Path.splitExtension name).2.map ofText := by
  rw [extension?, ofText, splitLast_bytes, Path.splitExtension_eq, Option.map_map, Option.map_map]
  refine Option.map_congr fun rest _ => ?_
  rw [Function.comp_apply, Function.comp_apply, ofText, String.toList_ofList]

theorem isDefinitionFile_ofText (extensions : List String) (name : String) :
    (ofText name).isDefinitionFile extensions = FileTree.isDefinitionFile extensions name := by
  rw [isDefinitionFile, extension?_ofText, FileTree.isDefinitionFile]
  cases (Path.splitExtension name).2 with
  | none => rfl
  | some extension => simp

theorem exists_extension {name : RawName} {extensions : List String}
    (h : name.isDefinitionFile extensions) : ∃ extension text, name.extension? = some extension ∧
      extension.text? = some text := by
  unfold isDefinitionFile at h
  split at h
  · rename_i text htext
    obtain ⟨extension, hextension, htext⟩ := Option.bind_eq_some_iff.1 htext
    exact ⟨extension, text, hextension, htext⟩
  · cases h

/-- A name with an extension is text if both parts are. -/
theorem exists_ofText {name : RawName} {extensions : List String} {stem : String}
    (h : name.isDefinitionFile extensions) (hstem : name.stem.text? = some stem) :
    ∃ text, name = ofText text := by
  obtain ⟨_, extension, hextension, htext⟩ := exists_extension h
  obtain ⟨rest, hrest, rfl⟩ := Option.map_eq_some_iff.1 hextension
  have hbefore : (splitLast dot name.bytes).1 = Text.bytes stem.toList :=
    congrArg bytes (text?_eq_some_iff.1 hstem)
  have hafter : rest = Text.bytes extension.toList := congrArg bytes (text?_eq_some_iff.1 htext)
  refine ⟨String.ofList (stem.toList ++ '.' :: extension.toList), congrArg RawName.mk ?_⟩
  calc name.bytes = (splitLast dot name.bytes).1 ++ dot :: rest :=
        eq_append_of_splitLast (Prod.ext rfl hrest)
    _ = Text.bytes (stem.toList ++ '.' :: extension.toList) := by
        rw [hbefore, hafter, Text.bytes_append]
        rfl
    _ = _ := by rw [String.toList_ofList]

end RawName

end Pedigree
