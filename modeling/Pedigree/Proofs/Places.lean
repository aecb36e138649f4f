import Pedigree.FileTree.Staging
import Pedigree.Proofs.MadeDirectories

/-!
# Places

A path whose last step is a name leads to a place in a directory, whether something stands there or
not (`FileTree.placeOf`). What the operations at a path do is read off the node at that place, and
different paths may lead to the same one. The directory that is made for a path is the one that its
place is in (`find_directoryOf`).

As long as the directories stay, paths lead to the same places and temporary files are found where
they were (`placeOf_of_keeps`, `findTemporary_of_keeps`).
-/

namespace Pedigree

namespace FileTree

variable {t r : FileTree} {path : Path} {temporary : Temporary} {directory source place : Location}
  {name : String} {content : ByteArray}

/-! ## Places -/

/-- Where a path leads whose last step is a name. -/
def placeOf (t : FileTree) (path : Path) : Except FileFault Location := do
  let directory ← t.findParent path
  match path.steps.getLast? with
  | some (.name name) => return .named name :: directory
  | _ => throw .busy

theorem placeOf_eq_ok_iff : t.placeOf path = .ok place ↔ ∃ directory name,
    t.findParent path = .ok directory ∧ path.steps.getLast? = some (.name name) ∧
      place = .named name :: directory := by
  rw [placeOf, bind_eq_ok_iff]
  refine exists_congr fun directory => ?_
  split
  · rename_i name hlast
    simp [hlast, pure, Except.pure, eq_comm]
  · rename_i hlast
    have : ∀ name, path.steps.getLast? ≠ some (.name name) := hlast
    simp [this, throw, throwThe, MonadExceptOf.throw]

theorem findTemporary_eq_ok_iff : t.findTemporary temporary = .ok source ↔
    ∃ directory, t.find temporary.directory = .ok (directory, .directory) ∧
      source = .temporary temporary.number :: directory := by
  rw [findTemporary, bind_eq_ok_iff]
  constructor
  · rintro ⟨⟨location, _ | _⟩, hfind, hnode⟩
    · cases hnode
    · exact ⟨location, hfind, (Except.ok.inj hnode).symm⟩
  · rintro ⟨location, hfind, rfl⟩
    exact ⟨_, hfind, rfl⟩

/-- No path leads to a temporary file. -/
theorem placeOf_ne (hplace : t.placeOf path = .ok place)
    (hsource : r.findTemporary temporary = .ok source) : place ≠ source := by
  obtain ⟨_, _, -, -, rfl⟩ := placeOf_eq_ok_iff.1 hplace
  obtain ⟨_, -, rfl⟩ := findTemporary_eq_ok_iff.1 hsource
  simp

theorem findParent_of_keeps (h : t.Keeps r) (hparent : t.findParent path = .ok directory) :
    r.findParent path = .ok directory := by
  have htext := text_ne_of_findParent hparent
  rw [findParent_eq_enter htext] at hparent ⊢
  exact h.origin path ▸ enter_of_keeps h hparent

theorem placeOf_of_keeps (h : t.Keeps r) (hplace : t.placeOf path = .ok place) :
    r.placeOf path = .ok place := by
  obtain ⟨directory, name, hparent, hlast, rfl⟩ := placeOf_eq_ok_iff.1 hplace
  exact placeOf_eq_ok_iff.2 ⟨directory, name, findParent_of_keeps h hparent, hlast, rfl⟩

theorem findTemporary_of_keeps (h : t.Keeps r) (hsource : t.findTemporary temporary = .ok source) :
    r.findTemporary temporary = .ok source := by
  obtain ⟨directory, hfind, rfl⟩ := findTemporary_eq_ok_iff.1 hsource
  obtain ⟨htext, henter⟩ := find_eq_ok_directory_iff.1 hfind
  exact findTemporary_eq_ok_iff.2 ⟨directory,
    find_eq_ok_directory_iff.2 ⟨htext, h.origin _ ▸ enter_of_keeps h henter⟩, rfl⟩

/-- A path finds what stands at its place. -/
theorem find_of_placeOf (hplace : t.placeOf path = .ok place) :
    t.find path = t.look path place := by
  obtain ⟨directory, name, hparent, hlast, rfl⟩ := placeOf_eq_ok_iff.1 hplace
  have htext := text_ne_of_findParent hparent
  rw [findParent_eq_enter htext] at hparent
  obtain ⟨hwalk, hnode⟩ := enter_eq_ok_iff.1 hparent
  rw [find_eq_look htext, ← List.dropLast_append_getLast? _ hlast, walk_append, hwalk]
  change (t.walk directory [.name name] >>= t.look path) = _
  rw [walk, hnode]
  rfl

/-! ## What stands at a place -/

theorem isDirectory_iff_of_placeOf (hplace : t.placeOf path = .ok place) :
    t.isDirectory path ↔ t.node? place = some .directory := by
  simp only [isDirectory_iff, find_of_placeOf hplace, look_eq_ok_directory_iff, check_eq_ok_iff,
    exists_eq_left]

/-- The file at a place is read by every path that leads there and does not ask for a directory. -/
theorem readBytes_eq_ok_iff (hplace : t.placeOf path = .ok place)
    (hfile : t.node? place = some (.file content)) :
    t.readBytes path = .ok content ↔ path.endsInSlash = false := by
  rw [readBytes, find_of_placeOf hplace, look, hfile]
  cases path.endsInSlash
  · exact iff_of_true rfl rfl
  · exact iff_of_false nofun nofun

theorem previousContent_of_placeOf (hplace : t.placeOf path = .ok place)
    (hslash : path.endsInSlash = false) (hfree : t.node? place ≠ some .directory) :
    t.previousContent path = .ok (t.contentAt? place) := by
  rw [previousContent, readBytes, find_of_placeOf hplace, look, contentAt?]
  rcases hfound : t.node? place with _ | (content | _)
  · rfl
  · rw [hslash]
    rfl
  · exact absurd hfound hfree

/-! ## The directory of a place -/

/-- A path stands in its parent, and in the working directory if the parent is the empty path. -/
theorem directoryOf_of_parent? {parent : Path} (h : path.parent? = some parent) :
    (directoryOf path).text ≠ "" ∧ (directoryOf path).isAbsolute = parent.isAbsolute ∧
      (directoryOf path).moves = parent.moves ∧
        (parent.Trimmed → (directoryOf path).Trimmed) := by
  rw [directoryOf, h]
  simp only
  split
  · rename_i hempty
    rw [String.isEmpty_iff] at hempty
    rw [Path.moves_of_text_eq_empty hempty, Path.isAbsolute, Path.isAbsolute, hempty]
    exact ⟨by decide, rfl, rfl, fun _ _ => rfl⟩
  · rename_i hempty
    exact ⟨by simpa using hempty, rfl, rfl, id⟩

/-- The last step of a path is taken in the directory that the path stands in. -/
theorem standsIn_directoryOf (hlast : path.steps.getLast? = some (.name name)) :
    path.StandsIn (directoryOf path) := by
  have hsteps := List.dropLast_append_getLast? _ hlast
  have hmoves : path.moves = Path.Step.moves path.steps.dropLast ++ [.name name] := by
    have hname : Path.Step.moves [.name name] = [.name name] := rfl
    rw [← hname, ← Path.Step.moves_append, hsteps, Path.moves]
  have hne : path.moves ≠ [] := by simp [hmoves]
  obtain ⟨parent, hparent⟩ := Path.exists_parent? hne
  obtain ⟨htext, habsolute, hfront, -⟩ := directoryOf_of_parent? hparent
  obtain ⟨habsolute', -, ⟨step, hstep⟩ | ⟨hnil, -⟩⟩ := Path.parent?_eq_some hparent
  · have heq := (List.append_inj' (hmoves.symm.trans hstep) rfl).1
    exact ⟨fun hempty => hne (Path.moves_of_text_eq_empty hempty),
      habsolute.trans habsolute', heq.trans hfront.symm, htext⟩
  · exact absurd hnil hne

theorem find_directoryOf (hparent : t.findParent path = .ok directory)
    (hlast : path.steps.getLast? = some (.name name)) :
    t.find (directoryOf path) = .ok (directory, .directory) := by
  have hstands := standsIn_directoryOf hlast
  rw [findParent_of_standsIn hstands] at hparent
  exact find_eq_ok_directory_iff.2 ⟨hstands.directoryText, hparent⟩

theorem makeDirectories_of_find (h : t.find path = .ok (directory, .directory)) :
    t.makeDirectories path = (.ok (), t) := by
  obtain ⟨rest, hancestors⟩ := Path.ancestors_eq_cons (find_eq_ok_directory_iff.1 h).1
  rw [makeDirectories, hancestors]
  exact makeEach_of_isDirectory (isDirectory_iff.2 ⟨directory, h⟩) rest

/-! ## Renaming -/

theorem renameTemporary_eq_ok_iff : t.renameTemporary temporary path = .ok r ↔
    ∃ source directory name content, t.findTemporary temporary = .ok source ∧
      t.findParent path = .ok directory ∧ path.steps.getLast? = some (.name name) ∧
        t.node? source = some (.file content) ∧ path.endsInSlash = false ∧
          t.node? (.named name :: directory) ≠ some .directory ∧
            r = (t.drop source).put directory name (.file content) := by
  constructor
  · intro h
    obtain ⟨source, hsource, h⟩ := bind_eq_ok_iff.1 h
    obtain ⟨directory, hparent, h⟩ := bind_eq_ok_iff.1 h
    split at h
    · rename_i name hlast
      simp only at h
      split at h
      · cases h
      · cases h
      · rename_i content hnode
        refine ⟨source, directory, name, content, hsource, hparent, hlast, hnode, ?_⟩
        cases hslash : path.endsInSlash with
        | true => simp only [hslash, if_true] at h; cases h
        | false =>
          by_cases hplace : t.node? (.named name :: directory) = some .directory
          · simp only [hslash, hplace] at h; cases h
          · simp only [hslash, hplace] at h
            exact ⟨rfl, hplace, (Except.ok.inj h).symm⟩
    · cases h
  · rintro ⟨source, directory, name, content, hsource, hparent, hlast, hnode, hslash, hplace, rfl⟩
    rw [renameTemporary, hsource, hparent]
    simp only [bind, Except.bind, hlast, hnode, hslash, hplace]
    rfl

end FileTree

end Pedigree
