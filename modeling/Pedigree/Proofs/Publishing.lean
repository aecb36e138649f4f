import Pedigree.Commands
import Pedigree.Proofs.DefinitionFiles
import Pedigree.Proofs.StagedFiles
import Pedigree.Proofs.Stages

/-!
# Publishing both documents or neither

A publication makes the output directory, stages both documents and renames them. What it can
come to is one of three things (`FileTree.Publishes`), and a compilation that gets so far comes to
the same (`Project.Compiles`). A failure leaves all files as they were, a success replaces the two
documents (`Project.compile_all_or_nothing`).

The documents are no definition files unless `json` is an extension of definitions, so a repeated
compilation reads what the first one has read, and writes the same. If it fails, it fails at the
same place, with one exception : a file that is first met at the end of the output path may be met
on the way there once the first attempt has made a directory that the path steps up from
(`Project.not_forall_same_outcome`).
-/

namespace Pedigree

namespace FileTree

variable {t r s : FileTree} {output : Path} {documents : Documents} {directory : Location}

theorem isName_propertiesFile : Path.IsName propertiesFile.text := ⟨by decide, rfl⟩

theorem isName_objectsFile : Path.IsName objectsFile.text := ⟨by decide, rfl⟩

/-- Where the properties document goes. -/
def propertiesAt (directory : Location) : Location := .named propertiesFile.text :: directory

/-- Where the objects document goes. -/
def objectsAt (directory : Location) : Location := .named objectsFile.text :: directory

/-- The directory that the documents are staged in. -/
def stagingDirectory (output : Path) : Path := directoryOf (output.join propertiesFile)

theorem directoryOf_objectsFile (output : Path) :
    directoryOf (output.join objectsFile) = stagingDirectory output :=
  directoryOf_eq_of_isName isName_objectsFile isName_propertiesFile

theorem stagingDirectory_sameWay (output : Path) : (stagingDirectory output).SameWay output :=
  (directoryOf_of_isName isName_propertiesFile).1

theorem stagingDirectory_trimmed (output : Path) : (stagingDirectory output).Trimmed :=
  (directoryOf_of_isName isName_propertiesFile).2

/-- The directories and the files are the same. -/
structure Same (t r : FileTree) : Prop where
  workingDirectory : r.workingDirectory = t.workingDirectory
  node? : ∀ location, r.node? location = t.node? location

theorem Same.refl (t : FileTree) : t.Same t := ⟨rfl, fun _ => rfl⟩

theorem Same.keeps (h : t.Same r) : t.Keeps r :=
  ⟨h.workingDirectory, fun location hnode => (h.node? location).trans hnode⟩

/-- Both documents have been written and nothing else. -/
structure Writes (documents : Documents) (directory : Location) (t r : FileTree) : Prop where
  workingDirectory : r.workingDirectory = t.workingDirectory
  properties : r.node? (propertiesAt directory) = some (.file documents.properties.toUTF8)
  objects : r.node? (objectsAt directory) = some (.file documents.objects.toUTF8)
  others : ∀ location, location ≠ propertiesAt directory → location ≠ objectsAt directory →
    r.node? location = t.node? location

/-! ## One publication -/

theorem publish_runs_of_makeDirectories {fault : FileFault}
    (h : t.makeDirectories (stagingDirectory output) = (.error fault, r)) :
    (publish output documents).Runs t (.error (.io (stagingDirectory output) fault)) r :=
  .bind_error (stage_runs_of_makeDirectories _ h)

theorem publish_runs_of_properties_isDirectory
    (h : t.makeDirectories (stagingDirectory output) = (.ok (), r))
    (henters : r.Enters output directory)
    (hproperties : r.node? (propertiesAt directory) = some .directory) :
    (publish output documents).Runs t
      (.error (.io (output.join propertiesFile) .targetIsDirectory)) r :=
  .bind_error (stage_runs_of_directory isName_propertiesFile _ h henters hproperties)

/-- The directories are there already when the second document is staged. -/
theorem makeDirectories_for_objects (h : t.Enters output directory) :
    t.makeDirectories (directoryOf (output.join objectsFile)) = (.ok (), t) :=
  makeDirectories_of_enters (directoryOf_of_isName isName_objectsFile).1 h

theorem discard_runs (henters : t.Enters output directory) (number : Nat) (target : Path) :
    (discard [⟨⟨stagingDirectory output, number⟩, target⟩]).Runs t (.ok ())
      (t.drop (.temporary number :: directory)) := by
  have hfind := (enters_iff_of_sameWay (stagingDirectory_sameWay output)).2 henters
  refine .bind (.read t) ?_
  have hdiscard : t.discardTemporary ⟨stagingDirectory output, number⟩ =
      t.drop (.temporary number :: directory) := by
    rw [discardTemporary, findTemporary, hfind]
    rfl
  rw [List.foldl_cons, List.foldl_nil, hdiscard]
  exact .write ..

theorem same_drop_addTemporary (t : FileTree) (directory : Location) (content : ByteArray) :
    t.Same ((t.addTemporary directory content).drop (.temporary t.fresh :: directory)) := by
  refine ⟨rfl, fun location => ?_⟩
  rw [node?_drop, node?_addTemporary]
  split
  · rename_i hlocation
    rw [hlocation, t.node?_temporary le_rfl]
  · rfl

theorem publish_runs_of_objects_isDirectory
    (h : t.makeDirectories (stagingDirectory output) = (.ok (), r))
    (henters : r.Enters output directory)
    (hproperties : r.node? (propertiesAt directory) ≠ some .directory)
    (hobjects : r.node? (objectsAt directory) = some .directory) :
    ∃ s, (publish output documents).Runs t
      (.error (.io (output.join objectsFile) .targetIsDirectory)) s ∧ r.Same s := by
  have hkeeps := keeps_addTemporary r directory documents.properties.toUTF8
  have henters' := henters.of_keeps hkeeps
  exact ⟨_, .bind (stage_runs isName_propertiesFile _ h henters hproperties)
    (.bind (.attempt (stage_runs_of_directory isName_objectsFile _
      (makeDirectories_for_objects henters') henters' (hkeeps.directory _ hobjects)))
      (.bind (discard_runs henters' ..) (.fail ..))), same_drop_addTemporary ..⟩

/-- The documents that wait when both are staged. -/
def waiting (r : FileTree) (documents : Documents) : List Waiting :=
  [⟨r.fresh, propertiesFile.text, documents.properties.toUTF8⟩,
    ⟨r.fresh + 1, objectsFile.text, documents.objects.toUTF8⟩]

/-- The tree in which both documents are staged. -/
def stageBoth (r : FileTree) (documents : Documents) (directory : Location) : FileTree :=
  (r.addTemporary directory documents.properties.toUTF8).addTemporary directory
    documents.objects.toUTF8

theorem node?_stageBoth (r : FileTree) (documents : Documents) (directory location : Location) :
    (r.stageBoth documents directory).node? location =
      if location = .temporary (r.fresh + 1) :: directory then
        some (.file documents.objects.toUTF8)
      else if location = .temporary r.fresh :: directory then
        some (.file documents.properties.toUTF8)
      else r.node? location := by
  rw [stageBoth, node?_addTemporary, node?_addTemporary]
  rfl

theorem ready_waiting (hproperties : r.node? (propertiesAt directory) ≠ some .directory)
    (hobjects : r.node? (objectsAt directory) ≠ some .directory) :
    ∀ w ∈ waiting r documents, w.Ready (r.stageBoth documents directory) directory := by
  have hnamed : ∀ name : String,
      (r.stageBoth documents directory).node? (.named name :: directory) =
        r.node? (.named name :: directory) := by
    intro name
    rw [node?_stageBoth, if_neg (by simp), if_neg (by simp)]
  rw [waiting, List.forall_mem_cons, List.forall_mem_singleton]
  refine ⟨⟨isName_propertiesFile, ?_, ?_⟩, ⟨isName_objectsFile, ?_, ?_⟩⟩
  · rw [node?_stageBoth, if_neg (by simp), if_pos rfl]
  · rw [hnamed]
    exact hproperties
  · rw [node?_stageBoth, if_pos rfl]
  · rw [hnamed]
    exact hobjects

theorem writes_foldl_waiting (r : FileTree) (documents : Documents) (directory : Location) :
    r.Writes documents directory
      ((waiting r documents).foldl (Waiting.place directory)
        (r.stageBoth documents directory)) := by
  have hne : EntryName.named propertiesFile.text :: directory ≠
      .named objectsFile.text :: directory := by simp [propertiesFile, objectsFile]
  rw [waiting, List.foldl_cons, List.foldl_cons, List.foldl_nil]
  refine ⟨rfl, ?_, ?_, fun location hproperties hobjects => ?_⟩ <;>
    simp only [Waiting.node?_place, propertiesAt, objectsAt, if_true] at *
  · rw [if_neg hne, if_neg (by simp)]
  · rw [if_neg hobjects, if_neg hproperties, node?_stageBoth]
    split
    · rename_i hlocation
      rw [hlocation, node?_temporary _ (Nat.le_succ _)]
    · split
      · rename_i hlocation
        rw [hlocation, node?_temporary _ le_rfl]
      · rfl

theorem publish_runs (h : t.makeDirectories (stagingDirectory output) = (.ok (), r))
    (henters : r.Enters output directory)
    (hproperties : r.node? (propertiesAt directory) ≠ some .directory)
    (hobjects : r.node? (objectsAt directory) ≠ some .directory) :
    ∃ s, (publish output documents).Runs t
      (.ok [output.join propertiesFile, output.join objectsFile]) s ∧
        r.Writes documents directory s := by
  have hkeeps := keeps_addTemporary r directory documents.properties.toUTF8
  have henters' := henters.of_keeps hkeeps
  have henters'' := henters'.of_keeps (keeps_addTemporary _ directory documents.objects.toUTF8)
  have hobjects' : (r.addTemporary directory documents.properties.toUTF8).node?
      (objectsAt directory) ≠ some .directory := by
    rwa [node?_addTemporary, if_neg (by simp [objectsAt])]
  have hobjectsStaged := stage_runs isName_objectsFile documents.objects.toUTF8
    (makeDirectories_for_objects henters') henters' hobjects'
  rw [directoryOf_objectsFile] at hobjectsStaged
  refine ⟨_, .bind (stage_runs isName_propertiesFile _ h henters hproperties)
    (.bind (.attempt hobjectsStaged) (.bind (Waiting.commit_runs ?_
      (ready_waiting hproperties hobjects) henters'' (stagingDirectory_sameWay output))
      (.bind (.say ..) (.pure ..)))), writes_foldl_waiting r documents directory⟩
  simp [waiting]

/-! ## Every publication -/

/-- What a publication can come to. -/
inductive Publishes (output : Path) (documents : Documents) (t : FileTree) :
    Except Failure (List Path) → FileTree → Prop
  /-- The output directory cannot be made. -/
  | unmade {fault : FileFault} {r : FileTree}
    (h : t.makeDirectories (stagingDirectory output) = (.error fault, r)) :
    Publishes output documents t (.error (.io (stagingDirectory output) fault)) r
  /-- A directory stands in the place of a document. -/
  | inTheWay {r s : FileTree} {directory : Location} {file : Path}
    (h : t.makeDirectories (stagingDirectory output) = (.ok (), r))
    (henters : r.Enters output directory) (hsame : r.Same s)
    (hfile : file = propertiesFile ∧ r.node? (propertiesAt directory) = some .directory ∨
      file = objectsFile ∧ r.node? (propertiesAt directory) ≠ some .directory ∧
        r.node? (objectsAt directory) = some .directory) :
    Publishes output documents t (.error (.io (output.join file) .targetIsDirectory)) s
  /-- Both documents are written. -/
  | written {r s : FileTree} {directory : Location}
    (h : t.makeDirectories (stagingDirectory output) = (.ok (), r))
    (henters : r.Enters output directory)
    (hproperties : r.node? (propertiesAt directory) ≠ some .directory)
    (hobjects : r.node? (objectsAt directory) ≠ some .directory)
    (hwrites : r.Writes documents directory s) :
    Publishes output documents t
      (.ok [output.join propertiesFile, output.join objectsFile]) s

theorem exists_publishes (output : Path) (documents : Documents) (t : FileTree) :
    ∃ outcome s, (publish output documents).Runs t outcome s ∧
      Publishes output documents t outcome s := by
  rcases h : t.makeDirectories (stagingDirectory output) with ⟨fault | _, r⟩
  · exact ⟨_, _, publish_runs_of_makeDirectories h, .unmade h⟩
  · obtain ⟨directory, henters⟩ :=
      exists_enters_of_makeDirectories (stagingDirectory_sameWay output) h
    by_cases hproperties : r.node? (propertiesAt directory) = some .directory
    · exact ⟨_, _, publish_runs_of_properties_isDirectory h henters hproperties,
        .inTheWay h henters (.refl r) (Or.inl ⟨rfl, hproperties⟩)⟩
    · by_cases hobjects : r.node? (objectsAt directory) = some .directory
      · obtain ⟨s, hruns, hsame⟩ :=
          publish_runs_of_objects_isDirectory h henters hproperties hobjects
        exact ⟨_, s, hruns, .inTheWay h henters hsame (Or.inr ⟨rfl, hproperties, hobjects⟩)⟩
      · obtain ⟨s, hruns, hwrites⟩ := publish_runs h henters hproperties hobjects
        exact ⟨_, s, hruns, .written h henters hproperties hobjects hwrites⟩

theorem grows_stagingDirectory {outcome : Except FileFault Unit}
    (h : t.makeDirectories (stagingDirectory output) = (outcome, r)) : GrowsAlong output t r :=
  grows_makeDirectories (stagingDirectory_sameWay output) h

theorem GrowsAlong.same (h : GrowsAlong output t r) (hsame : r.Same s) : GrowsAlong output t s := by
  refine ⟨hsame.workingDirectory.trans h.workingDirectory, fun location => ?_⟩
  rcases h.keptOrMade location with hkept | ⟨hnone, hmade, hpasses⟩
  · exact Or.inl ((hsame.node? location).trans hkept)
  · exact Or.inr ⟨hnone, (hsame.node? location).trans hmade, hpasses.of_keeps hsame.keeps⟩

/-- A publication that fails writes nothing. -/
theorem Publishes.grows {failure : Failure} (h : Publishes output documents t (.error failure) s) :
    GrowsAlong output t s := by
  cases h with
  | unmade h => exact grows_stagingDirectory h
  | inTheWay h _ hsame _ => exact (grows_stagingDirectory h).same hsame

/-- Only the two documents differ from what was there, apart from directories. -/
theorem Writes.keeps (h : t.Writes documents directory s)
    (hproperties : t.node? (propertiesAt directory) ≠ some .directory)
    (hobjects : t.node? (objectsAt directory) ≠ some .directory) : t.Keeps s := by
  refine ⟨h.workingDirectory, fun location hnode => ?_⟩
  rw [h.others location, hnode]
  · exact fun heq => hproperties (heq ▸ hnode)
  · exact fun heq => hobjects (heq ▸ hnode)

/-- Documents that are written once more are the same. -/
theorem Writes.same (h : t.Writes documents directory r) (hagain : r.Writes documents directory s) :
    r.Same s := by
  refine ⟨hagain.workingDirectory, fun location => ?_⟩
  by_cases hproperties : location = propertiesAt directory
  · rw [hproperties, hagain.properties, h.properties]
  · by_cases hobjects : location = objectsAt directory
    · rw [hobjects, hagain.objects, h.objects]
    · exact hagain.others location hproperties hobjects

/-- A failure that is met at another point when the attempt is repeated. It takes a path that steps
up again from a directory that is missing at first, or a tree with loose ends. -/
structure MetElsewhere {α : Type} (t : FileTree) (output : Path) (first again : Except Failure α) :
    Prop where
  first : first = .error (.io (stagingDirectory output) .exists)
  again : again = .error (.io (stagingDirectory output) .notADirectory)
  up : t.Grounded → .up ∈ output.steps

theorem up_mem_steps_of_mem_ancestors {part : Path}
    (hpart : part ∈ (stagingDirectory output).ancestors) (hup : .up ∈ part.steps) :
    .up ∈ output.steps := by
  have hleads := (stagingDirectory_sameWay output).leadsThrough
    (Path.leadsThrough_of_mem_ancestors hpart)
  have hmoves : .up ∈ part.moves := List.mem_filter.2 ⟨hup, rfl⟩
  exact List.mem_of_mem_filter (hleads.moves.subset hmoves)

/-- A publication that is repeated changes nothing, and comes to the same. Only a file in the way
of the output directory may be met elsewhere. -/
theorem Publishes.again {outcome : Except Failure (List Path)}
    (h : Publishes output documents t outcome s) :
    ∃ again s', (publish output documents).Runs s again s' ∧ s.Same s' ∧
      (again = outcome ∨ t.MetElsewhere output outcome again) := by
  cases h with
  | unmade h =>
    have hchain := Path.isChain_ancestors (stagingDirectory_trimmed output)
    obtain ⟨again, hagain, hfault⟩ := makeEach_again hchain h
    refine ⟨_, _, publish_runs_of_makeDirectories hagain, .refl s, ?_⟩
    rcases hfault with rfl | ⟨rfl, rfl⟩
    · exact Or.inl rfl
    · refine Or.inr ⟨rfl, rfl, fun hgrounded => ?_⟩
      by_contra hup
      -- without a step upwards nothing was made, so the second attempt is the first one
      obtain rfl := eq_of_makeEach_eq_error hgrounded hchain
        (fun _ hmem => Path.leadsThrough_of_mem_ancestors hmem)
        (fun _ hmem hmem' => hup (up_mem_steps_of_mem_ancestors hmem hmem')) h
      cases (Prod.mk.inj (h.symm.trans hagain)).1
  | inTheWay h henters hsame hfile =>
    have henters' := henters.of_keeps hsame.keeps
    have hmade := makeDirectories_of_enters (stagingDirectory_sameWay output) henters'
    rcases hfile with ⟨rfl, hproperties⟩ | ⟨rfl, hproperties, hobjects⟩
    · rw [← hsame.node?] at hproperties
      exact ⟨_, _, publish_runs_of_properties_isDirectory hmade henters' hproperties, .refl s,
        Or.inl rfl⟩
    · rw [← hsame.node?] at hproperties hobjects
      obtain ⟨s', hruns, hsame'⟩ :=
        publish_runs_of_objects_isDirectory hmade henters' hproperties hobjects
      exact ⟨_, s', hruns, hsame', Or.inl rfl⟩
  | written h henters hproperties hobjects hwrites =>
    have henters' := henters.of_keeps (hwrites.keeps hproperties hobjects)
    have hmade := makeDirectories_of_enters (stagingDirectory_sameWay output) henters'
    obtain ⟨s', hruns, hwrites'⟩ := publish_runs hmade henters'
      (by rw [hwrites.properties]; simp) (by rw [hwrites.objects]; simp)
    exact ⟨_, s', hruns, hwrites.same hwrites', Or.inl rfl⟩

/-! ## Definition files -/

theorem GrowsAlong.sameSources (h : GrowsAlong output t r) (extensions : List String) :
    SameSources extensions t r :=
  ⟨h.keeps, fun _ _ _ _ => h.file_iff⟩

theorem isDefinitionFile_of_extension {extensions : List String} {name extension : String}
    (h : extension ∉ extensions) (hname : (Path.splitExtension name).2 = some extension) :
    isDefinitionFile extensions name = false := by
  rw [isDefinitionFile, hname]
  simpa using h

/-- The documents are no definition files, and everything else is as it was. -/
theorem Writes.sameSources {extensions : List String} (h : "json" ∉ extensions)
    (hwrites : t.Writes documents directory s)
    (hproperties : t.node? (propertiesAt directory) ≠ some .directory)
    (hobjects : t.node? (objectsAt directory) ≠ some .directory) : SameSources extensions t s := by
  refine ⟨hwrites.keeps hproperties hobjects, fun name parent content hname => ?_⟩
  have hne : ∀ document, (Path.splitExtension document).2 = some "json" →
      EntryName.named name :: parent ≠ .named document :: directory := by
    intro document hextension heq
    obtain ⟨rfl, -⟩ := by simpa using heq
    rw [isDefinitionFile_of_extension h hextension] at hname
    cases hname
  rw [hwrites.others _ (hne _ rfl) (hne _ rfl)]

theorem SameSources.trans {extensions : List String} (h : SameSources extensions t r)
    (hnext : SameSources extensions r s) : SameSources extensions t s := by
  refine ⟨h.keeps.trans hnext.keeps, fun name directory content hname => ?_⟩
  rw [h.file name directory content hname, hnext.file name directory content hname]

/-- What a publication leaves still holds all that it was compiled from. -/
theorem Publishes.sameSources {extensions : List String} (hjson : "json" ∉ extensions)
    {outcome : Except Failure (List Path)} (h : Publishes output documents t outcome s) :
    SameSources extensions t s := by
  cases h with
  | unmade h => exact (grows_stagingDirectory h).sameSources extensions
  | inTheWay h _ hsame _ => exact ((grows_stagingDirectory h).same hsame).sameSources extensions
  | written h _ hproperties hobjects hwrites =>
    exact ((grows_stagingDirectory h).sameSources extensions).trans
      (hwrites.sameSources hjson hproperties hobjects)

end FileTree

/-! ## Compilations -/

namespace Project

variable {p : Project} {t s : FileTree}

theorem compile_apply (p : Project) (t : FileTree) : p.compile t =
    Compilation.compile (p.source t) (publish p.outputDirectory) p.locale p.indent t := rfl

theorem compile_runs_of_render {failure : Failure}
    (h : (Compilation.render (p.source t) p.locale p.indent).outcome = .error failure) :
    p.compile.Runs t (.error failure) t :=
  .congr (compile_apply p t) (Compilation.compile_runs_of_render h)

theorem compile_runs {counts : Summary} {documents : Documents}
    {outcome : Except Failure (List Path)}
    (hrender : (Compilation.render (p.source t) p.locale p.indent).outcome =
      .ok (counts, documents))
    (hpublish : (publish p.outputDirectory documents).Runs t outcome s) :
    p.compile.Runs t (outcome.map fun written => { counts with written }) s :=
  .congr (compile_apply p t) (Compilation.compile_runs hrender hpublish)

/-- What a compilation can come to. -/
inductive Compiles (p : Project) (t : FileTree) : Except Failure Summary → FileTree → Prop
  /-- The definitions cannot be compiled. -/
  | refused {failure : Failure}
    (h : (Compilation.render (p.source t) p.locale p.indent).outcome = .error failure) :
    Compiles p t (.error failure) t
  /-- The documents are published, or not. -/
  | published {counts : Summary} {documents : Documents} {outcome : Except Failure (List Path)}
    {s : FileTree}
    (hrender : (Compilation.render (p.source t) p.locale p.indent).outcome =
      .ok (counts, documents))
    (h : FileTree.Publishes p.outputDirectory documents t outcome s) :
    Compiles p t (outcome.map fun written => { counts with written }) s

theorem compiles (p : Project) (t : FileTree) :
    p.Compiles t (p.compile t).1.outcome (p.compile t).2 := by
  rcases h : (Compilation.render (p.source t) p.locale p.indent).outcome with
    failure | ⟨counts, documents⟩
  · obtain ⟨houtcome, hafter⟩ := compile_runs_of_render h
    rw [houtcome, hafter]
    exact .refused h
  · obtain ⟨outcome, s, hruns, hpublishes⟩ :=
      FileTree.exists_publishes p.outputDirectory documents t
    obtain ⟨houtcome, hafter⟩ := compile_runs h hruns
    rw [houtcome, hafter]
    exact .published h hpublishes

theorem Compiles.grows {failure : Failure} (h : p.Compiles t (.error failure) s) :
    FileTree.GrowsAlong p.outputDirectory t s := by
  generalize houtcome : Except.error failure = outcome at h
  cases h with
  | refused => exact .refl ..
  | @published counts documents outcome s hrender h =>
    cases outcome with
    | error failure => exact h.grows
    | ok written => cases houtcome

/-- What a successful compilation has done : both documents are where they belong, in place of
nothing or of files, and apart from them only directories on the output path are new. -/
structure Compiled (p : Project) (t : FileTree) (summary : Summary) (s : FileTree)
    (documents : Documents) (directory : Location) : Prop where
  render : ∃ counts,
    (Compilation.render (p.source t) p.locale p.indent).outcome = .ok (counts, documents) ∧
      summary = { counts with
        written := [p.outputDirectory.join propertiesFile, p.outputDirectory.join objectsFile] }
  workingDirectory : s.workingDirectory = t.workingDirectory
  enters : s.Enters p.outputDirectory directory
  properties : s.node? (FileTree.propertiesAt directory) =
    some (.file documents.properties.toUTF8)
  objects : s.node? (FileTree.objectsAt directory) = some (.file documents.objects.toUTF8)
  replaced : t.node? (FileTree.propertiesAt directory) ≠ some .directory ∧
    t.node? (FileTree.objectsAt directory) ≠ some .directory
  others : ∀ location, location ≠ FileTree.propertiesAt directory →
    location ≠ FileTree.objectsAt directory → t.KeptOrMade s p.outputDirectory location

theorem Compiles.compiled {summary : Summary} (h : p.Compiles t (.ok summary) s) :
    ∃ documents directory, p.Compiled t summary s documents directory := by
  generalize houtcome : Except.ok summary = outcome at h
  cases h with
  | refused => cases houtcome
  | @published counts documents outcome s hrender h =>
    cases h with
    | unmade => cases houtcome
    | inTheWay => cases houtcome
    | @written r s directory h henters hproperties hobjects hwrites =>
      have hgrows := FileTree.grows_stagingDirectory h
      have hkeeps := hwrites.keeps hproperties hobjects
      refine ⟨documents, directory, ⟨counts, hrender, Except.ok.inj houtcome⟩,
        hwrites.workingDirectory.trans hgrows.workingDirectory, henters.of_keeps hkeeps,
        hwrites.properties, hwrites.objects,
        ⟨fun hnode => hproperties (hgrows.keeps.directory _ hnode),
          fun hnode => hobjects (hgrows.keeps.directory _ hnode)⟩,
        fun location hfirst hsecond => ?_⟩
      rw [FileTree.KeptOrMade, hwrites.others location hfirst hsecond]
      rcases hgrows.keptOrMade location with hkept | ⟨hnone, hmade, hpasses⟩
      · exact Or.inl hkept
      · exact Or.inr ⟨hnone, hmade, hpasses.of_keeps hkeeps⟩

theorem Compiles.again (hjson : "json" ∉ p.extensions) {outcome : Except Failure Summary}
    (h : p.Compiles t outcome s) :
    ∃ again s', p.compile.Runs s again s' ∧ s.Same s' ∧
      (again = outcome ∨ t.MetElsewhere p.outputDirectory outcome again) := by
  cases h with
  | refused h => exact ⟨_, _, compile_runs_of_render h, .refl _, Or.inl rfl⟩
  | @published counts documents outcome s hrender h =>
    obtain ⟨again, s', hruns, hsame, houtcome⟩ := h.again
    have hsources := h.sameSources hjson
    have hrender' : (Compilation.render (p.source s) p.locale p.indent).outcome =
        .ok (counts, documents) := by
      rw [← hrender]
      exact congrArg _ (Compilation.render_congr (fun kind scope => hsources.source) hrender)
    refine ⟨_, _, compile_runs hrender' hruns, hsame, ?_⟩
    rcases houtcome with rfl | ⟨rfl, rfl, hup⟩
    · exact Or.inl rfl
    · exact Or.inr ⟨rfl, rfl, hup⟩

/-- A compilation writes both documents or neither, and repeating it changes nothing. -/
theorem compile_all_or_nothing (p : Project) (t : FileTree) :
    (∀ failure, (p.compile t).1.outcome = .error failure →
      FileTree.GrowsAlong p.outputDirectory t (p.compile t).2) ∧
    (∀ summary, (p.compile t).1.outcome = .ok summary →
      ∃ documents directory, p.Compiled t summary (p.compile t).2 documents directory) ∧
    ("json" ∉ p.extensions →
      (p.compile t).2.Same (p.compile (p.compile t).2).2 ∧
      ((p.compile (p.compile t).2).1.outcome = (p.compile t).1.outcome ∨
        t.MetElsewhere p.outputDirectory (p.compile t).1.outcome
          (p.compile (p.compile t).2).1.outcome)) := by
  have hcompiles := p.compiles t
  refine ⟨fun failure hfailure => ?_, fun summary hsummary => ?_, fun hjson => ?_⟩
  · rw [hfailure] at hcompiles
    exact hcompiles.grows
  · rw [hsummary] at hcompiles
    exact hcompiles.compiled
  · obtain ⟨again, s', ⟨hagain, hafter⟩, hsame, houtcome⟩ := hcompiles.again hjson
    rw [hagain, hafter]
    exact ⟨hsame, houtcome⟩

/-- Empty scopes, and a file that is in the way of `blocked/sub`. -/
def blockedTree : FileTree :=
  let work := FileTree.empty "work"
  let work := work.put [.named "work"] "blocked" (.file ByteArray.empty)
  let work := work.put [.named "work"] "properties" .directory
  let work := work.put [.named "properties", .named "work"] "bases" .directory
  let work := work.put [.named "work"] "objects" .directory
  work.put [.named "objects", .named "work"] "bases" .directory

/-- A project in the working directory whose output path steps up again from a directory that is
not there. -/
def detour : Project := ⟨⟨"."⟩, none, ["yaml"], ⟨"./new/../blocked/sub"⟩, 4⟩

theorem ancestors_stagingDirectory_detour :
    (FileTree.stagingDirectory detour.outputDirectory).ancestors =
      [⟨"./new/../blocked/sub"⟩, ⟨"./new/../blocked"⟩, ⟨"./new/.."⟩, ⟨"./new"⟩, ⟨"."⟩] := by
  have hlength : "./new/../blocked/sub".length = 20 := by decide
  have hjoin : detour.outputDirectory.join propertiesFile =
      ⟨"./new/../blocked/sub/properties.json"⟩ := by decide
  simp [FileTree.stagingDirectory, hjoin, FileTree.directoryOf, Path.ancestors, hlength,
    Path.ancestors.go, Path.parent?, Path.trimEnd, Path.anchorLength, Path.dropComponent]

theorem exists_render_detour {t : FileTree}
    (h : ∀ kind, (detour.source t kind).outcome = .ok ⟨.empty, .empty⟩) :
    ∃ counts documents, (Compilation.render (detour.source t) detour.locale
      detour.indent).outcome = .ok (counts, documents) := by
  have hresolve : (Compilation.resolve (detour.source t) none).outcome =
      .ok ⟨.empty, .empty⟩ := by
    simp only [Compilation.resolve, Logged.outcome_bind, h]
    rfl
  obtain ⟨sorted, hsorted⟩ : ∃ sorted, Collection.sortByOrder .empty = .ok sorted := by
    unfold Collection.sortByOrder
    split
    · rename_i hentries
      cases hentries
    · exact ⟨_, rfl⟩
  obtain ⟨documents, hdocuments⟩ : ∃ documents,
      Resolved.render ⟨.empty, .empty⟩ detour.indent = .ok documents :=
    ⟨_, bind_eq_ok_iff.2 ⟨sorted, hsorted, rfl⟩⟩
  exact ⟨_, documents, Logged.bind_eq_ok_iff.2
    ⟨_, hresolve, Logged.bind_eq_ok_iff.2 ⟨documents, hdocuments, rfl⟩⟩⟩

theorem outcome_source_blockedTree (kind : ScopeKind) :
    (detour.source blockedTree kind).outcome = .ok ⟨.empty, .empty⟩ := by
  have hitems : (blockedTree.readCollection detour.extensions
      (detour.root.join ⟨kind.directoryName⟩)).outcome = .ok .empty :=
    FileTree.outcome_readCollection_of_no_files [.named kind.directoryName, .named "work"]
      (by cases kind <;> rfl) (by cases kind <;> decide)
  have hbases : (blockedTree.readCollection detour.extensions
      ((detour.root.join ⟨kind.directoryName⟩).join ⟨basesDirectory⟩)).outcome = .ok .empty :=
    FileTree.outcome_readCollection_of_no_files
      [.named basesDirectory, .named kind.directoryName, .named "work"]
      (by cases kind <;> rfl) (by cases kind <;> decide)
  refine Logged.bind_eq_ok_iff.2 ⟨.empty, hitems, ?_⟩
  split
  · rfl
  · exact Logged.bind_eq_ok_iff.2 ⟨.empty, hbases, rfl⟩

/-- A repeated compilation may fail for another reason : `blocked` is met at the end of the output
path at first, and on the way once the directory `new` is there. -/
theorem not_forall_same_outcome : ¬∀ (p : Project) (t : FileTree), "json" ∉ p.extensions →
    (p.compile (p.compile t).2).1.outcome = (p.compile t).1.outcome := by
  intro h
  let after := blockedTree.put [.named "work"] "new" .directory
  have hfirst : blockedTree.makeDirectories (FileTree.stagingDirectory detour.outputDirectory) =
      (.error .exists, after) := by
    rw [FileTree.makeDirectories, ancestors_stagingDirectory_detour]
    rfl
  have hsecond : after.makeDirectories (FileTree.stagingDirectory detour.outputDirectory) =
      (.error .notADirectory, after) := by
    rw [FileTree.makeDirectories, ancestors_stagingDirectory_detour]
    rfl
  have hsource : ∀ kind, (detour.source after kind).outcome = .ok ⟨.empty, .empty⟩ := by
    intro kind
    have hload := outcome_source_blockedTree kind
    rw [← hload]
    exact congrArg _ (((FileTree.grows_stagingDirectory hfirst).sameSources _).source hload)
  obtain ⟨_, _, hrender⟩ := exists_render_detour outcome_source_blockedTree
  obtain ⟨_, _, hrender'⟩ := exists_render_detour hsource
  obtain ⟨hoccurs, hafter⟩ :=
    compile_runs hrender (FileTree.publish_runs_of_makeDirectories hfirst)
  obtain ⟨hagain, -⟩ := compile_runs hrender' (FileTree.publish_runs_of_makeDirectories hsecond)
  have hsame := h detour blockedTree (by decide)
  rw [hafter, hagain, hoccurs] at hsame
  simp [Except.map] at hsame

end Project

end Pedigree
