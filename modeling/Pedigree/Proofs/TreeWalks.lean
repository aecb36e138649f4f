import Pedigree.FileTree.Change
import Pedigree.Log
import Pedigree.Proofs.PathSteps

/-!
# Walks through a file tree

`FileTree.enter` takes steps that have to end in a directory. It composes (`enter_append`), skips
the steps that lead nowhere (`enter_moves`), and goes the same way through every tree that still
has the directories (`FileTree.Keeps`, `enter_of_keeps`). The operations at a path are read as
look-ups at the location that `enter` finds.

`FileTree.GrowsAlong` relates a tree to one that has more directories, all of them on a path.
-/

namespace Pedigree

/-- Where a step leads. -/
def Path.Step.next (location : Location) (step : Path.Step) : Location :=
  match step with
  | .stay => location
  | .up => location.drop 1
  | .name s => .named s :: location

namespace FileTree

variable {t r : FileTree}

/-! ## Nodes -/

@[simp] theorem node?_nil (t : FileTree) : t.node? [] = some .directory := rfl

theorem node?_cons (t : FileTree) (name : EntryName) (directory : Location) :
    t.node? (name :: directory) = t.nodes.get? (name :: directory) := rfl

theorem node?_put (t : FileTree) (directory : Location) (name : String) (node : FileNode)
    (location : Location) : (t.put directory name node).node? location =
      if location = .named name :: directory then some node else t.node? location := by
  split
  · rename_i heq
    rw [heq]
    exact OrderedMap.get?_insert_self ..
  · rename_i hne
    cases location with
    | nil => rfl
    | cons first rest => exact OrderedMap.get?_insert_of_ne hne ..

theorem node?_drop (t : FileTree) (name : EntryName) (directory location : Location) :
    (t.drop (name :: directory)).node? location =
      if location = name :: directory then none else t.node? location := by
  split
  · rename_i heq
    rw [heq]
    exact OrderedMap.get?_erase_self ..
  · rename_i hne
    cases location with
    | nil => rfl
    | cons first rest => exact OrderedMap.get?_erase_of_ne hne ..

theorem node?_addTemporary (t : FileTree) (directory : Location) (content : ByteArray)
    (location : Location) : (t.addTemporary directory content).node? location =
      if location = .temporary t.fresh :: directory then some (.file content)
      else t.node? location := by
  split
  · rename_i heq
    rw [heq]
    exact OrderedMap.get?_insert_self ..
  · rename_i hne
    cases location with
    | nil => rfl
    | cons first rest => exact OrderedMap.get?_insert_of_ne hne ..

theorem node?_temporary (t : FileTree) {number : Nat} (h : t.fresh ≤ number)
    (directory : Location) : t.node? (.temporary number :: directory) = none :=
  t.unused number directory h

/-! ## Entering directories -/

/-- The location itself, if it is a directory. -/
def check (t : FileTree) (location : Location) : Except FileFault Location :=
  match t.node? location with
  | none => .error .missing
  | some (.file _) => .error .notADirectory
  | some .directory => .ok location

/-- Takes steps from a location, and ends in a directory. -/
def enter (t : FileTree) (location : Location) (steps : List Path.Step) :
    Except FileFault Location :=
  t.walk location steps >>= t.check

theorem check_eq_ok_iff {location place : Location} :
    t.check location = .ok place ↔ place = location ∧ t.node? location = some .directory := by
  unfold check
  split
  · rename_i hnode
    simp [hnode]
  · rename_i hnode
    simp [hnode]
  · rename_i hnode
    simp [hnode, eq_comm]

theorem enter_cons (t : FileTree) (location : Location) (step : Path.Step)
    (rest : List Path.Step) : t.enter location (step :: rest) =
      t.check location >>= fun location => t.enter (step.next location) rest := by
  rw [enter, walk.eq_def, check]
  rcases hnode : t.node? location with _ | (content | _)
  · rfl
  · rfl
  · cases step <;> rfl

/-- A walk looks at the place it starts from. -/
theorem check_bind_enter (t : FileTree) (location : Location) (steps : List Path.Step) :
    (t.check location >>= fun location => t.enter location steps) = t.enter location steps := by
  have hcheck : (t.check location >>= t.check) = t.check location := by
    unfold check
    split <;> simp_all [bind, Except.bind]
  cases steps with
  | nil => exact hcheck
  | cons step rest =>
    simp only [enter_cons]
    rw [← bind_assoc, hcheck]

theorem enter_append (t : FileTree) (location : Location) (before after : List Path.Step) :
    t.enter location (before ++ after) =
      t.enter location before >>= fun location => t.enter location after := by
  induction before generalizing location with
  | nil => exact (t.check_bind_enter location after).symm
  | cons step rest ih =>
    rw [List.cons_append, enter_cons, enter_cons, bind_assoc]
    simp only [ih]

/-- Steps that lead nowhere make no difference. -/
theorem enter_moves (t : FileTree) (location : Location) (steps : List Path.Step) :
    t.enter location (Path.Step.moves steps) = t.enter location steps := by
  induction steps generalizing location with
  | nil => rfl
  | cons step rest ih =>
    by_cases hstep : step = .stay
    · subst hstep
      rw [Path.Step.moves_stay_cons, ih, enter_cons]
      exact (t.check_bind_enter location rest).symm
    · rw [← List.singleton_append, Path.Step.moves_append, Path.Step.moves_singleton hstep,
        List.singleton_append, List.singleton_append, enter_cons, enter_cons]
      simp only [ih]

theorem enter_eq_ok_iff {location place : Location} {steps : List Path.Step} :
    t.enter location steps = .ok place ↔
      t.walk location steps = .ok place ∧ t.node? place = some .directory := by
  rw [enter, bind_eq_ok_iff]
  constructor
  · rintro ⟨found, hwalk, hcheck⟩
    obtain ⟨rfl, hnode⟩ := check_eq_ok_iff.1 hcheck
    exact ⟨hwalk, hnode⟩
  · rintro ⟨hwalk, hnode⟩
    exact ⟨place, hwalk, check_eq_ok_iff.2 ⟨rfl, hnode⟩⟩

theorem node?_of_enter {location place : Location} {steps : List Path.Step}
    (h : t.enter location steps = .ok place) : t.node? place = some .directory :=
  (enter_eq_ok_iff.1 h).2

theorem check_eq_error {location : Location} {fault : FileFault}
    (h : t.check location = .error fault) : fault = .missing ∨ fault = .notADirectory := by
  unfold check at h
  split at h
  · exact Or.inl (Except.error.inj h).symm
  · exact Or.inr (Except.error.inj h).symm
  · cases h

theorem enter_eq_error {location : Location} {steps : List Path.Step} {fault : FileFault}
    (h : t.enter location steps = .error fault) : fault = .missing ∨ fault = .notADirectory := by
  induction steps generalizing location with
  | nil => exact check_eq_error h
  | cons step rest ih =>
    rw [enter_cons] at h
    cases hcheck : t.check location with
    | error other =>
      rw [hcheck] at h
      exact check_eq_error (hcheck.trans (congrArg _ (Except.error.inj h)))
    | ok start =>
      rw [hcheck] at h
      exact ih h

/-- What is a directory remains one. -/
structure Keeps (t r : FileTree) : Prop where
  workingDirectory : r.workingDirectory = t.workingDirectory
  directory : ∀ location, t.node? location = some .directory →
    r.node? location = some .directory

theorem Keeps.origin (h : t.Keeps r) (path : Path) : r.origin path = t.origin path := by
  rw [FileTree.origin, FileTree.origin, h.workingDirectory]

theorem Keeps.trans {s : FileTree} (h : t.Keeps r) (hnext : r.Keeps s) : t.Keeps s :=
  ⟨hnext.workingDirectory.trans h.workingDirectory,
    fun location hnode => hnext.directory location (h.directory location hnode)⟩

theorem keeps_addTemporary (t : FileTree) (directory : Location) (content : ByteArray) :
    t.Keeps (t.addTemporary directory content) := by
  refine ⟨rfl, fun location hnode => ?_⟩
  rw [node?_addTemporary, if_neg, hnode]
  rintro rfl
  rw [t.node?_temporary le_rfl] at hnode
  cases hnode

/-- The same steps enter the same directory. -/
theorem enter_of_keeps (h : t.Keeps r) {location place : Location} {steps : List Path.Step}
    (henter : t.enter location steps = .ok place) : r.enter location steps = .ok place := by
  induction steps generalizing location with
  | nil =>
    obtain ⟨rfl, hnode⟩ := check_eq_ok_iff.1 henter
    exact check_eq_ok_iff.2 ⟨rfl, h.directory _ hnode⟩
  | cons step rest ih =>
    rw [enter_cons, bind_eq_ok_iff] at henter ⊢
    obtain ⟨start, hstart, hrest⟩ := henter
    obtain ⟨rfl, hnode⟩ := check_eq_ok_iff.1 hstart
    exact ⟨start, check_eq_ok_iff.2 ⟨rfl, h.directory _ hnode⟩, ih hrest⟩

/-! ## Operations at a path -/

theorem findParent_eq_enter {path : Path} (h : path.text ≠ "") :
    t.findParent path = t.enter (t.origin path) path.steps.dropLast := by
  have htext : path.text.isEmpty = false := by simpa using h
  simp only [findParent, htext]
  rw [if_neg Bool.false_ne_true]
  refine congrArg _ (funext fun location => ?_)
  unfold check
  rcases t.node? location with _ | (content | _) <;> rfl

theorem walk_append (t : FileTree) (location : Location) (before after : List Path.Step) :
    t.walk location (before ++ after) =
      t.walk location before >>= fun location => t.walk location after := by
  induction before generalizing location with
  | nil => rfl
  | cons step rest ih =>
    rw [List.cons_append, walk.eq_def, walk.eq_def t location (step :: rest)]
    rcases hnode : t.node? location with _ | (content | _)
    · rfl
    · rfl
    · cases step <;> exact ih _

/-- What a path that leads to a location finds there. -/
def look (t : FileTree) (path : Path) (location : Location) :
    Except FileFault (Location × FileNode) :=
  match t.node? location with
  | none => .error .missing
  | some (.file content) =>
    if path.endsInSlash then .error .notADirectory else .ok (location, .file content)
  | some .directory => .ok (location, .directory)

theorem find_empty {path : Path} (h : path.text = "") : t.find path = .error .missing := by
  rw [find, h]
  rfl

theorem find_eq_look {path : Path} (h : path.text ≠ "") :
    t.find path = t.walk (t.origin path) path.steps >>= t.look path := by
  have htext : path.text.isEmpty = false := by simpa using h
  simp only [find, htext]
  rw [if_neg Bool.false_ne_true]
  refine congrArg _ (funext fun location => ?_)
  unfold look
  rcases t.node? location with _ | (content | _)
  · rfl
  · cases path.endsInSlash <;> rfl
  · rfl

theorem look_eq_ok_directory_iff {path : Path} {location place : Location} :
    t.look path location = .ok (place, .directory) ↔ t.check location = .ok place := by
  unfold look check
  rcases t.node? location with _ | (content | _)
  · simp
  · cases path.endsInSlash <;> simp
  · simp

theorem find_eq_ok_directory_iff {path : Path} {place : Location} :
    t.find path = .ok (place, .directory) ↔
      path.text ≠ "" ∧ t.enter (t.origin path) path.steps = .ok place := by
  by_cases htext : path.text = ""
  · simp [find_empty htext, htext]
  · simp only [find_eq_look htext, enter, bind_eq_ok_iff, look_eq_ok_directory_iff, ne_eq, htext,
      not_false_eq_true, true_and]

theorem isDirectory_iff {path : Path} :
    t.isDirectory path = true ↔ ∃ place, t.find path = .ok (place, .directory) := by
  unfold isDirectory
  split
  · rename_i place hfind
    exact ⟨fun _ => ⟨place, hfind⟩, fun _ => rfl⟩
  · rename_i hfind
    refine ⟨nofun, ?_⟩
    rintro ⟨place, h⟩
    exact absurd h (hfind place)

/-! ## Growing along a path -/

/-- The path leads through a directory. -/
def Passes (t : FileTree) (path : Path) (location : Location) : Prop :=
  ∃ taken, taken <+: path.moves ∧ t.enter (t.origin path) taken = .ok location

/-- A location holds what it held, or nothing stood there and it is now a directory on the path. -/
def KeptOrMade (t r : FileTree) (path : Path) (location : Location) : Prop :=
  r.node? location = t.node? location ∨
    t.node? location = none ∧ r.node? location = some .directory ∧ r.Passes path location

/-- Only directories on the path are new. -/
structure GrowsAlong (path : Path) (t r : FileTree) : Prop where
  workingDirectory : r.workingDirectory = t.workingDirectory
  keptOrMade : ∀ location, t.KeptOrMade r path location

theorem GrowsAlong.refl (path : Path) (t : FileTree) : GrowsAlong path t t :=
  ⟨rfl, fun _ => Or.inl rfl⟩

theorem GrowsAlong.keeps {path : Path} (h : GrowsAlong path t r) : t.Keeps r := by
  refine ⟨h.workingDirectory, fun location hnode => ?_⟩
  rcases h.keptOrMade location with hkept | ⟨-, hmade, -⟩
  · rw [hkept, hnode]
  · exact hmade

/-- No file is new, and none is gone. -/
theorem GrowsAlong.file_iff {path : Path} (h : GrowsAlong path t r) {location : Location}
    {content : ByteArray} :
    t.node? location = some (.file content) ↔ r.node? location = some (.file content) := by
  rcases h.keptOrMade location with hkept | ⟨hnone, hmade, -⟩
  · rw [hkept]
  · simp [hnone, hmade]

theorem Passes.of_keeps (h : t.Keeps r) {path : Path} {location : Location}
    (hpasses : t.Passes path location) : r.Passes path location := by
  obtain ⟨taken, hprefix, henter⟩ := hpasses
  exact ⟨taken, hprefix, h.origin path ▸ enter_of_keeps h henter⟩

theorem GrowsAlong.trans {path : Path} {s : FileTree} (h : GrowsAlong path t r)
    (hnext : GrowsAlong path r s) : GrowsAlong path t s := by
  refine ⟨hnext.workingDirectory.trans h.workingDirectory, fun location => ?_⟩
  rcases h.keptOrMade location with hkept | ⟨hnone, hmade, hpasses⟩
  · rcases hnext.keptOrMade location with hkept' | ⟨hnone, hmade, hpasses⟩
    · exact Or.inl (hkept'.trans hkept)
    · exact Or.inr ⟨hkept ▸ hnone, hmade, hpasses⟩
  · exact Or.inr ⟨hnone, hnext.keeps.directory _ hmade, hpasses.of_keeps hnext.keeps⟩

/-- A path that leads through another passes what the other passes. -/
theorem Passes.of_leadsThrough {path part : Path} (h : path.LeadsThrough part)
    {location : Location} (hpasses : t.Passes part location) : t.Passes path location := by
  obtain ⟨taken, hprefix, henter⟩ := hpasses
  refine ⟨taken, hprefix.trans h.moves, ?_⟩
  rwa [origin, ← h.isAbsolute]

theorem GrowsAlong.of_leadsThrough {path part : Path} (h : path.LeadsThrough part)
    (hgrows : GrowsAlong part t r) : GrowsAlong path t r := by
  refine ⟨hgrows.workingDirectory, fun location => ?_⟩
  rcases hgrows.keptOrMade location with hkept | ⟨hnone, hmade, hpasses⟩
  · exact Or.inl hkept
  · exact Or.inr ⟨hnone, hmade, hpasses.of_leadsThrough h⟩

end FileTree

end Pedigree
