import Pedigree.Proofs.Places

/-!
# Staging and renaming

A target is a name in an output directory, and its content waits beside it. Once the output
directory can be entered, everything that can still be in the way is a directory at the target :
staging looks for one first (`stage_runs`), and what has been staged is renamed without a failure
(`commit_runs`). So the targets that a commit could have to restore are never needed here.
-/

namespace Pedigree

namespace Path

/-- A path to the same place as another one, by the same moves. -/
structure SameWay (p q : Path) : Prop where
  text : p.text ≠ ""
  isAbsolute : p.isAbsolute = q.isAbsolute
  moves : p.moves = q.moves

theorem SameWay.leadsThrough {p q part : Path} (h : p.SameWay q) (hpart : p.LeadsThrough part) :
    q.LeadsThrough part :=
  ⟨hpart.isAbsolute.trans h.isAbsolute, h.moves ▸ hpart.moves⟩

theorem Names.parent {target directory parent : Path} {name : String}
    (h : target.Names directory name) (hparent : target.parent? = some parent) :
    parent.isAbsolute = directory.isAbsolute ∧ parent.moves = directory.moves ∧
      parent.Trimmed := by
  obtain ⟨habsolute, htrimmed, hmoves⟩ := parent?_eq_some hparent
  have htarget : target.moves = directory.moves ++ [.name name] := by
    rw [moves, h.steps, Step.moves_append, Step.moves_singleton Step.noConfusion, moves]
  refine ⟨habsolute.trans h.isAbsolute, ?_, htrimmed⟩
  rcases hmoves with ⟨step, hmoves⟩ | ⟨hnil, -⟩
  · rw [htarget] at hmoves
    exact (List.append_inj' hmoves rfl).1.symm
  · rw [htarget] at hnil
    simp at hnil

end Path

namespace FileTree

variable {t r : FileTree} {output target : Path} {name : String} {directory : Location}

/-! ## Output directories -/

theorem directoryOf_of_isName (h : Path.IsName name) :
    (directoryOf (output.join ⟨name⟩)).SameWay output ∧
      (directoryOf (output.join ⟨name⟩)).Trimmed := by
  obtain ⟨parent, hparent⟩ : ∃ parent, (output.join ⟨name⟩).parent? = some parent :=
    ⟨_, Path.parent?_join h⟩
  obtain ⟨habsolute, hmoves, htrimmed⟩ := (Path.names_join h).parent hparent
  obtain ⟨htext, habsolute', hmoves', htrimmed'⟩ := directoryOf_of_parent? hparent
  exact ⟨⟨htext, habsolute'.trans habsolute, hmoves'.trans hmoves⟩, htrimmed' htrimmed⟩

/-- Names in one output directory are staged in one directory. -/
theorem directoryOf_eq_of_isName {other : String} (h : Path.IsName name)
    (hother : Path.IsName other) :
    directoryOf (output.join ⟨name⟩) = directoryOf (output.join ⟨other⟩) := by
  rw [directoryOf, directoryOf, Path.parent?_join_eq h hother]

/-- The location is the directory that the path leads to. The empty path is the working
directory. -/
def Enters (t : FileTree) (path : Path) (location : Location) : Prop :=
  t.enter (t.origin path) path.steps = .ok location

theorem Enters.of_keeps (h : t.Enters output directory) (hkeeps : t.Keeps r) :
    r.Enters output directory := by
  rw [Enters, hkeeps.origin]
  exact enter_of_keeps hkeeps h

theorem enters_iff_of_sameWay {path : Path} (h : path.SameWay output) :
    t.find path = .ok (directory, .directory) ↔ t.Enters output directory := by
  rw [find_eq_ok_directory_iff, Enters, ← enter_moves, ← enter_moves t _ output.steps]
  change path.text ≠ "" ∧ t.enter _ path.moves = _ ↔ t.enter _ output.moves = _
  rw [h.moves, origin, origin, h.isAbsolute]
  exact and_iff_right h.text

/-- The directories that are made lie on the path of the output directory. -/
theorem grows_makeDirectories {path : Path} {outcome : Except FileFault Unit}
    (hway : path.SameWay output) (h : t.makeDirectories path = (outcome, r)) :
    GrowsAlong output t r :=
  grows_makeEach (fun _ hmem => hway.leadsThrough (Path.leadsThrough_of_mem_ancestors hmem)) h

/-- The output directory can be entered once it has been made. -/
theorem exists_enters_of_makeDirectories {path : Path} (hway : path.SameWay output)
    (h : t.makeDirectories path = (.ok (), r)) : ∃ directory, r.Enters output directory := by
  obtain ⟨rest, hancestors⟩ := Path.ancestors_eq_cons hway.text
  rw [makeDirectories, hancestors] at h
  obtain ⟨directory, hfind⟩ := isDirectory_iff.1 (isDirectory_of_makeEach h)
  exact ⟨directory, (enters_iff_of_sameWay hway).1 hfind⟩

/-- Nothing is left to make once the output directory can be entered. -/
theorem makeDirectories_of_enters {path : Path} (hway : path.SameWay output)
    (h : t.Enters output directory) : t.makeDirectories path = (.ok (), t) :=
  makeDirectories_of_find ((enters_iff_of_sameWay hway).2 h)

/-! ## Targets -/

theorem findParent_of_names (h : target.Names output name) (henters : t.Enters output directory) :
    t.findParent target = .ok directory := by
  rw [findParent_eq_enter h.text, h.steps, List.dropLast_concat, origin, h.isAbsolute]
  exact henters

theorem getLast?_steps_of_names (h : target.Names output name) :
    target.steps.getLast? = some (.name name) := by
  rw [h.steps, List.getLast?_concat]

theorem placeOf_of_names (h : target.Names output name) (henters : t.Enters output directory) :
    t.placeOf target = .ok (.named name :: directory) :=
  placeOf_eq_ok_iff.2
    ⟨directory, name, findParent_of_names h henters, getLast?_steps_of_names h, rfl⟩

/-! ## Staging -/

theorem runs_expect_ok {α : Type} (path : Path) (a : α) (t : FileTree) :
    (expect path (.ok a)).Runs t (.ok a) t := .pure a t

theorem runs_expect_error {α : Type} (path : Path) (fault : FileFault) (t : FileTree) :
    (expect path (.error fault) : Change α).Runs t (.error (.io path fault)) t := .fail _ t

theorem prepare_runs {outcome : Except FileFault Unit}
    (h : t.makeDirectories (directoryOf target) = (outcome, r)) :
    (prepare target).Runs t (outcome.mapError (.io (directoryOf target))) r := by
  unfold prepare
  refine .bind (.read t) ?_
  rw [h]
  refine .bind (.write t r) ?_
  cases outcome with
  | ok => exact runs_expect_ok ..
  | error fault => exact runs_expect_error ..

theorem makeTemporary_of_find (h : t.find target = .ok (directory, .directory))
    (content : ByteArray) : t.makeTemporary target content =
      .ok (⟨target, t.fresh⟩, t.addTemporary directory content) := by
  rw [makeTemporary, h]
  rfl

/-- Nothing is staged where the directories cannot be made. -/
theorem stage_runs_of_makeDirectories {fault : FileFault} (content : ByteArray)
    (h : t.makeDirectories (directoryOf target) = (.error fault, r)) :
    (stage target content).Runs t (.error (.io (directoryOf target) fault)) r :=
  .bind_error (prepare_runs h)

/-- Nothing is staged in the place of a directory. -/
theorem stage_runs_of_directory (hname : Path.IsName name) (content : ByteArray)
    (h : t.makeDirectories (directoryOf (output.join ⟨name⟩)) = (.ok (), r))
    (henters : r.Enters output directory)
    (hnode : r.node? (.named name :: directory) = some .directory) :
    (stage (output.join ⟨name⟩) content).Runs t
      (.error (.io (output.join ⟨name⟩) .targetIsDirectory)) r := by
  have hdirectory :=
    (isDirectory_iff_of_placeOf (placeOf_of_names (Path.names_join hname) henters)).2 hnode
  refine .bind (prepare_runs h) (.bind (.read r) ?_)
  simp only [hdirectory, if_true]
  exact .bind_error (.fail ..)

/-- Everything else is staged, once the directory is there. -/
theorem stage_runs_of_findParent (hmake : t.makeDirectories (directoryOf target) = (.ok (), r))
    (hparent : r.findParent target = .ok directory)
    (hlast : target.steps.getLast? = some (.name name))
    (hnode : r.node? (.named name :: directory) ≠ some .directory) (content : ByteArray) :
    (stage target content).Runs t (.ok ⟨⟨directoryOf target, r.fresh⟩, target⟩)
      (r.addTemporary directory content) := by
  have hplace := placeOf_eq_ok_iff.2 ⟨directory, name, hparent, hlast, rfl⟩
  have hdirectory : ¬r.isDirectory target := fun h =>
    hnode ((isDirectory_iff_of_placeOf hplace).1 h)
  refine .bind (prepare_runs hmake) (.bind (.read r) ?_)
  simp only [hdirectory, Bool.false_eq_true, if_false,
    makeTemporary_of_find (find_directoryOf hparent hlast)]
  exact .bind (runs_expect_ok ..) (.bind (.write ..) (.pure ..))

theorem stage_runs (hname : Path.IsName name) (content : ByteArray)
    (h : t.makeDirectories (directoryOf (output.join ⟨name⟩)) = (.ok (), r))
    (henters : r.Enters output directory)
    (hnode : r.node? (.named name :: directory) ≠ some .directory) :
    (stage (output.join ⟨name⟩) content).Runs t
      (.ok ⟨⟨directoryOf (output.join ⟨name⟩), r.fresh⟩, output.join ⟨name⟩⟩)
      (r.addTemporary directory content) :=
  have hnames := Path.names_join hname
  stage_runs_of_findParent h (findParent_of_names hnames henters) (getLast?_steps_of_names hnames)
    hnode content

/-! ## Renaming -/

theorem rename_runs_ok {staged : Staged}
    (h : t.renameTemporary staged.temporary staged.target = .ok r) :
    (rename staged).Runs t (.ok ()) r := by
  refine .bind (.read t) ?_
  rw [h]
  exact .write ..

theorem rename_runs_error {staged : Staged} {fault : FileFault}
    (h : t.renameTemporary staged.temporary staged.target = .error fault) :
    (rename staged).Runs t (.error (.io staged.target fault)) t := by
  refine .bind (.read t) ?_
  rw [h]
  exact .fail ..

/-- A content that waits beside its target. -/
structure Waiting where
  number : Nat
  name : String
  content : ByteArray

namespace Waiting

variable {w : Waiting} {parent : Path}

/-- The file as it was staged. -/
def staged (output parent : Path) (w : Waiting) : Staged :=
  ⟨⟨parent, w.number⟩, output.join ⟨w.name⟩⟩

/-- The tree in which the content stands at its target. -/
def place (directory : Location) (t : FileTree) (w : Waiting) : FileTree :=
  (t.drop (.temporary w.number :: directory)).put directory w.name (.file w.content)

/-- The content is there, and nothing keeps it from its target. -/
structure Ready (t : FileTree) (directory : Location) (w : Waiting) : Prop where
  isName : Path.IsName w.name
  temporary : t.node? (.temporary w.number :: directory) = some (.file w.content)
  target : t.node? (.named w.name :: directory) ≠ some .directory

theorem node?_place (t : FileTree) (directory : Location) (w : Waiting) (location : Location) :
    (w.place directory t).node? location =
      if location = .named w.name :: directory then some (.file w.content)
      else if location = .temporary w.number :: directory then none else t.node? location := by
  rw [place, node?_put, node?_drop]

theorem keeps_place (h : w.Ready t directory) : t.Keeps (w.place directory t) := by
  refine ⟨rfl, fun location hnode => ?_⟩
  have htarget : location ≠ .named w.name :: directory := fun heq => h.target (heq ▸ hnode)
  have htemporary : location ≠ .temporary w.number :: directory := by
    rintro rfl
    rw [h.temporary] at hnode
    cases hnode
  rw [node?_place, if_neg htarget, if_neg htemporary, hnode]

/-- What waits under another number waits on. -/
theorem Ready.place {other : Waiting} (h : other.Ready t directory)
    (hne : other.number ≠ w.number) : other.Ready (w.place directory t) directory := by
  refine ⟨h.isName, ?_, ?_⟩
  · rw [node?_place, if_neg (by simp), if_neg (by simpa using hne), h.temporary]
  · rw [node?_place]
    split
    · simp
    · rw [if_neg (by simp)]
      exact h.target

theorem rename_runs (h : w.Ready t directory) (henters : t.Enters output directory)
    (hparent : parent.SameWay output) :
    (rename (w.staged output parent)).Runs t (.ok ()) (w.place directory t) := by
  have hnames : (output.join ⟨w.name⟩).Names output w.name := Path.names_join h.isName
  have hsource : t.findTemporary ⟨parent, w.number⟩ = .ok (.temporary w.number :: directory) :=
    findTemporary_eq_ok_iff.2 ⟨directory, (enters_iff_of_sameWay hparent).2 henters, rfl⟩
  exact rename_runs_ok (renameTemporary_eq_ok_iff.2 ⟨_, directory, w.name, w.content, hsource,
    findParent_of_names hnames henters, getLast?_steps_of_names hnames, h.temporary,
    hnames.endsInSlash, h.target, rfl⟩)

/-- One step of a commit. -/
theorem commit_cons_runs {replaced : List (Path × Option ByteArray)} {rest : List Staged}
    {outcome : Except Failure Unit} (h : w.Ready t directory)
    (henters : t.Enters output directory) (hparent : parent.SameWay output)
    (hrest : (commit ((output.join ⟨w.name⟩, t.contentAt? (.named w.name :: directory)) ::
      replaced) rest).Runs (w.place directory t) outcome r) :
    (commit replaced (w.staged output parent :: rest)).Runs t outcome r := by
  rw [commit]
  refine .bind (.attempt (.bind (.read t) (.bind ?_
    (.bind (rename_runs h henters hparent) (.pure ..))))) hrest
  rw [staged, previousContent_of_placeOf (placeOf_of_names (Path.names_join h.isName) henters)
    (Path.names_join h.isName).endsInSlash h.target]
  exact runs_expect_ok ..

/-- A commit of what waits under different numbers puts everything in place. -/
theorem commit_runs {replaced : List (Path × Option ByteArray)} {waiting : List Waiting}
    (hdistinct : waiting.Pairwise fun w other => other.number ≠ w.number)
    (hready : ∀ w ∈ waiting, w.Ready t directory) (henters : t.Enters output directory)
    (hparent : parent.SameWay output) :
    (commit replaced (waiting.map (staged output parent))).Runs t (.ok ())
      (waiting.foldl (place directory) t) := by
  induction waiting generalizing t replaced with
  | nil => exact .pure ..
  | cons w rest ih =>
    obtain ⟨hw, hrest⟩ := List.forall_mem_cons.1 hready
    obtain ⟨hnumber, hdistinct⟩ := List.pairwise_cons.1 hdistinct
    -- the rest stays ready, since putting one content in place leaves the other numbers alone
    refine commit_cons_runs hw henters hparent (ih hdistinct ?_ (henters.of_keeps (keeps_place hw)))
    exact fun other hmem => (hrest other hmem).place (hnumber other hmem)

end Waiting

end FileTree

end Pedigree
