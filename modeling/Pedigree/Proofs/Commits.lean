import Pedigree.Proofs.StagedFiles

/-!
# Commits

A commit renames staged contents over their targets, one after the other. Every renaming moves a
content from where it waits to the place of its target (`FileTree.Moves`). No directory comes or
goes, so every path leads to the same place all the time. `FileTree.Committed` is a commit on its
way, with the log of what its targets held.

Where the place of the last renaming gets back what it held, the tree is the one before that
renaming, but for the content that waited (`Moves.undo`). So it does not matter how often a place
is replaced, and by which paths : rolling back from the last renaming to the first leads to the
tree at the start, but for contents that waited (`Committed.rollBack_runs`). A commit settles every
content, or it leaves nothing behind (`commitAll_all_or_nothing`).
-/

namespace Pedigree

namespace FileTree

variable {t r s : FileTree} {path target : Path} {temporary : Temporary}
  {directory source place : Location} {name : String} {content : ByteArray}

/-! ## One renaming -/

/-- A waiting content is moved to a place. -/
structure Moves (t : FileTree) (source place : Location) (content : ByteArray) (r : FileTree) :
    Prop where
  waits : t.node? source = some (.file content)
  free : t.node? place ≠ some .directory
  workingDirectory : r.workingDirectory = t.workingDirectory
  node? : ∀ location, r.node? location =
    if location = place then some (.file content)
    else if location = source then none else t.node? location

theorem exists_moves_of_renameTemporary (h : t.renameTemporary temporary path = .ok r) :
    ∃ source place content, t.findTemporary temporary = .ok source ∧ t.placeOf path = .ok place ∧
      path.endsInSlash = false ∧ t.Moves source place content r := by
  obtain ⟨source, directory, name, content, hsource, hparent, hlast, hwaits, hslash, hfree, rfl⟩ :=
    renameTemporary_eq_ok_iff.1 h
  refine ⟨source, _, content, hsource, placeOf_eq_ok_iff.2 ⟨directory, name, hparent, hlast, rfl⟩,
    hslash, hwaits, hfree, rfl, fun location => ?_⟩
  obtain ⟨parent, -, rfl⟩ := findTemporary_eq_ok_iff.1 hsource
  rw [node?_put, node?_drop]

theorem Moves.keeps (h : t.Moves source place content r) : t.Keeps r := by
  refine ⟨h.workingDirectory, fun location hnode => ?_⟩
  rw [h.node?, if_neg, if_neg, hnode]
  · rintro rfl
    rw [h.waits] at hnode
    cases hnode
  · rintro rfl
    exact h.free hnode

/-- No directory is new. -/
theorem Moves.keeps_back (h : t.Moves source place content r) : r.Keeps t := by
  refine ⟨h.workingDirectory.symm, fun location hnode => ?_⟩
  rw [h.node?] at hnode
  split at hnode
  · cases hnode
  · split at hnode
    · cases hnode
    · exact hnode

/-! ## Giving back -/

/-- Where a path leads to a file, the file is replaced and nothing else is touched. -/
theorem writeAtomically_runs (hplace : t.placeOf target = .ok place)
    (hslash : target.endsInSlash = false) (hfree : t.node? place ≠ some .directory)
    (content : ByteArray) : ∃ r, (writeAtomically target content).Runs t (.ok ()) r ∧
      r.workingDirectory = t.workingDirectory ∧ ∀ location, r.node? location =
        if location = place then some (.file content) else t.node? location := by
  obtain ⟨directory, name, hparent, hlast, rfl⟩ := placeOf_eq_ok_iff.1 hplace
  have hkeeps := keeps_addTemporary t directory content
  have hsource : (t.addTemporary directory content).findTemporary
      ⟨directoryOf target, t.fresh⟩ = .ok (.temporary t.fresh :: directory) :=
    findTemporary_of_keeps hkeeps
      (findTemporary_eq_ok_iff.2 ⟨directory, find_directoryOf hparent hlast, rfl⟩)
  have hrename := renameTemporary_eq_ok_iff.2 ⟨_, directory, name, content, hsource,
    findParent_of_keeps hkeeps hparent, hlast, by rw [node?_addTemporary, if_pos rfl], hslash,
    by rwa [node?_addTemporary, if_neg (by simp)], rfl⟩
  have hmake := makeDirectories_of_find (find_directoryOf hparent hlast)
  refine ⟨_, .bind (stage_runs_of_findParent hmake hparent hlast hfree content)
    (.bind (.attempt (rename_runs_ok hrename)) (.pure ..)), rfl, fun location => ?_⟩
  rw [node?_put, node?_drop, node?_addTemporary]
  split
  · rfl
  · split
    · rename_i hlocation
      rw [hlocation, t.node?_temporary le_rfl]
    · rfl

/-- A file is given back what it held before, or taken away, and nothing else is touched. -/
theorem restore_runs (hplace : t.placeOf target = .ok place)
    (hslash : target.endsInSlash = false) (hfile : t.node? place = some (.file content))
    (previous : Option ByteArray) : ∃ r, (restore target previous).Runs t (.ok ()) r ∧
      r.workingDirectory = t.workingDirectory ∧ ∀ location, r.node? location =
        if location = place then previous.map .file else t.node? location := by
  cases previous with
  | some content => exact writeAtomically_runs hplace hslash (by rw [hfile]; nofun) content
  | none =>
    obtain ⟨directory, name, -, -, rfl⟩ := placeOf_eq_ok_iff.1 hplace
    have hremove : t.removeFile target = .ok (t.drop (.named name :: directory)) := by
      rw [removeFile, find_of_placeOf hplace, look, hfile, hslash]
      rfl
    have hexpect : (expect target (t.removeFile target)).Runs t
        (.ok (t.drop (.named name :: directory))) t := by
      rw [hremove]
      exact runs_expect_ok ..
    exact ⟨_, .bind (.read t) (.bind hexpect (.write ..)), rfl, node?_drop t _ _⟩

/-! ## The course of a commit -/

/-- The locations of staged contents. -/
def Waits (t : FileTree) (staged : List Staged) (location : Location) : Prop :=
  ∃ w ∈ staged, t.findTemporary w.temporary = .ok location

/-- All is as it was, but nothing may be left at some locations. -/
structure Lacks (gone : Location → Prop) (t r : FileTree) : Prop where
  workingDirectory : r.workingDirectory = t.workingDirectory
  node? : ∀ location, r.node? location = t.node? location ∨
    gone location ∧ r.node? location = none

/-- Staged contents have been renamed in order. What the targets held before is listed, the last
first. -/
inductive Committed (t : FileTree) :
    List Staged → List (Path × Option ByteArray) → FileTree → Prop where
  | start : Committed t [] [] t
  | step {staged : List Staged} {replaced : List (Path × Option ByteArray)} {r s : FileTree}
      {w : Staged} {source place : Location} {content : ByteArray}
      (h : Committed t staged replaced r) (hsource : r.findTemporary w.temporary = .ok source)
      (hplace : r.placeOf w.target = .ok place) (hslash : w.target.endsInSlash = false)
      (hmoves : r.Moves source place content s) :
      Committed t (staged ++ [w]) ((w.target, r.contentAt? place) :: replaced) s

theorem Lacks.keeps_back {gone : Location → Prop} (h : Lacks gone t r) : r.Keeps t := by
  refine ⟨h.workingDirectory.symm, fun location hnode => ?_⟩
  rcases h.node? location with hsame | ⟨-, hnone⟩
  · rw [← hsame, hnode]
  · rw [hnone] at hnode
    cases hnode

theorem Committed.keeps {staged : List Staged} {replaced : List (Path × Option ByteArray)}
    (h : Committed t staged replaced r) : t.Keeps r ∧ r.Keeps t := by
  induction h with
  | start => exact ⟨⟨rfl, fun _ => id⟩, ⟨rfl, fun _ => id⟩⟩
  | step h hsource hplace hslash hmoves ih =>
    exact ⟨ih.1.trans hmoves.keeps, hmoves.keeps_back.trans ih.2⟩

/-! ## Rolling back -/

/-- The node at a place that is no directory. -/
theorem map_contentAt? (h : t.node? place ≠ some .directory) :
    (t.contentAt? place).map .file = t.node? place := by
  unfold contentAt?
  rcases hnode : t.node? place with _ | (content | _)
  · rfl
  · rfl
  · exact absurd hnode h

theorem rollBack_cons_runs {previous : Option ByteArray}
    {rest : List (Path × Option ByteArray)}
    (hrestore : (restore target previous).Runs t (.ok ()) r)
    (hrest : (rollBack rest).Runs r (.ok ()) s) :
    (rollBack ((target, previous) :: rest)).Runs t (.ok ()) s :=
  .bind (.attempt hrestore) (.bind (.pure ..) hrest)

/-- Where the place gets back what it held, only the content that was moved there is missing. -/
theorem Moves.undo {gone : Location → Prop} {s' : FileTree} (h : t.Moves source place content r)
    (hsource : gone source) (hlacks : Lacks gone r s) (hkeeps : r.Keeps s)
    (hdirectory : s'.workingDirectory = s.workingDirectory)
    (hnode : ∀ location, s'.node? location =
      if location = place then t.node? place else s.node? location) :
    Lacks gone t s' ∧ t.Keeps s' := by
  have hworking := hdirectory.trans (hlacks.workingDirectory.trans h.workingDirectory)
  refine ⟨⟨hworking, fun location => ?_⟩, ⟨hworking, fun location hlocation => ?_⟩⟩
  · have hmoved := h.node? location
    rw [hnode]
    by_cases hplace : location = place
    · rw [if_pos hplace, hplace]
      exact .inl rfl
    · rw [if_neg hplace] at hmoved ⊢
      rcases hlacks.node? location with hsame | hmissing
      · by_cases hwaits : location = source
        · rw [if_pos hwaits] at hmoved
          exact .inr ⟨hwaits ▸ hsource, hsame.trans hmoved⟩
        · rw [if_neg hwaits] at hmoved
          exact .inl (hsame.trans hmoved)
      · exact .inr hmissing
  · rw [hnode]
    split
    · rename_i hplace
      exact hplace ▸ hlocation
    · exact (h.keeps.trans hkeeps).directory location hlocation

/-- Rolling back restores every target, the last one first. Only contents that waited are missing
then. -/
theorem Committed.rollBack_runs {gone : Location → Prop} {staged : List Staged}
    {replaced : List (Path × Option ByteArray)} (h : Committed t staged replaced r)
    (hgone : ∀ location, t.Waits staged location → gone location)
    (hplaces : ∀ path place, t.placeOf path = .ok place → ¬gone place)
    (hlacks : Lacks gone r s) (hkeeps : r.Keeps s) :
    ∃ s', (rollBack replaced).Runs s (.ok ()) s' ∧ Lacks gone t s' := by
  induction h generalizing s with
  | start => exact ⟨s, .pure .., hlacks⟩
  | @step staged replaced r r' w source place content h hsource hplace hslash hmoves ih =>
    have hsource' : gone source :=
      hgone source ⟨w, by simp, findTemporary_of_keeps h.keeps.2 hsource⟩
    have hfile : s.node? place = some (.file content) := by
      rcases hlacks.node? place with hsame | ⟨hplaceGone, -⟩
      · rw [hsame, hmoves.node?, if_pos rfl]
      · exact absurd hplaceGone (hplaces _ _ (placeOf_of_keeps h.keeps.2 hplace))
    obtain ⟨s', hrestore, hdirectory, hnode⟩ :=
      restore_runs (placeOf_of_keeps (hmoves.keeps.trans hkeeps) hplace) hslash hfile
        (r.contentAt? place)
    rw [map_contentAt? hmoves.free] at hnode
    have hearlier : ∀ location, t.Waits staged location → gone location := by
      rintro location ⟨v, hv, hfind⟩
      exact hgone location ⟨v, List.mem_append_left _ hv, hfind⟩
    obtain ⟨hlacks', hkeeps'⟩ := hmoves.undo hsource' hlacks hkeeps hdirectory hnode
    obtain ⟨final, hrest, hfinal⟩ := ih hearlier hlacks' hkeeps'
    exact ⟨final, rollBack_cons_runs hrestore hrest, hfinal⟩

/-! ## Giving up -/

theorem Lacks.refl (gone : Location → Prop) (t : FileTree) : Lacks gone t t :=
  ⟨rfl, fun _ => .inl rfl⟩

theorem Lacks.discardTemporary {gone : Location → Prop} (h : Lacks gone t r)
    (hgone : ∀ location, t.findTemporary temporary = .ok location → gone location) :
    Lacks gone t (r.discardTemporary temporary) := by
  unfold FileTree.discardTemporary
  split
  · rename_i source hsource
    have hsource' := hgone source (findTemporary_of_keeps h.keeps_back hsource)
    obtain ⟨directory, -, rfl⟩ := findTemporary_eq_ok_iff.1 hsource
    refine ⟨h.workingDirectory, fun location => ?_⟩
    rw [node?_drop]
    split
    · rename_i hlocation
      exact .inr ⟨hlocation ▸ hsource', rfl⟩
    · exact h.node? location
  · exact h

/-- What is still waiting is removed. -/
theorem Lacks.discard_runs {gone : Location → Prop} {staged : List Staged} (h : Lacks gone t r)
    (hgone : ∀ location, t.Waits staged location → gone location) :
    ∃ s, (discard staged).Runs r (.ok ()) s ∧ Lacks gone t s := by
  refine ⟨_, .bind (.read r) (.write ..), ?_⟩
  induction staged generalizing r with
  | nil => exact h
  | cons w rest ih =>
    refine ih (h.discardTemporary fun location hfind => hgone location ⟨w, by simp, hfind⟩) ?_
    rintro location ⟨v, hv, hfind⟩
    exact hgone location ⟨v, List.mem_cons_of_mem w hv, hfind⟩

/-! ## Steps of a commit -/

/-- A commit goes on after a content that has been moved, or it gives up in the tree it came to. -/
theorem commit_cons_cases (t : FileTree) (replaced : List (Path × Option ByteArray)) (w : Staged)
    (rest : List Staged) :
    (∃ source place content r, t.findTemporary w.temporary = .ok source ∧
      t.placeOf w.target = .ok place ∧ w.target.endsInSlash = false ∧
        t.Moves source place content r ∧ ∀ outcome s,
          (commit ((w.target, t.contentAt? place) :: replaced) rest).Runs r outcome s →
            (commit replaced (w :: rest)).Runs t outcome s) ∨
    ∃ failure, ∀ r s, (rollBack replaced).Runs t (.ok ()) r →
      (discard (w :: rest)).Runs r (.ok ()) s →
        (commit replaced (w :: rest)).Runs t (.error failure) s := by
  cases hprevious : t.previousContent w.target with
  | error fault =>
    refine .inr ⟨.io w.target fault, fun r s hroll hdiscard => ?_⟩
    refine .bind (.attempt (.bind (.read t) (.bind_error ?_)))
      (.bind hroll (.bind hdiscard (.fail ..)))
    rw [hprevious]
    exact runs_expect_error ..
  | ok previous =>
    have hexpect : (expect w.target (t.previousContent w.target)).Runs t (.ok previous) t := by
      rw [hprevious]
      exact runs_expect_ok ..
    cases hrename : t.renameTemporary w.temporary w.target with
    | error fault =>
      exact .inr ⟨.io w.target fault, fun r s hroll hdiscard =>
        .bind (.attempt (.bind (.read t) (.bind hexpect (.bind_error (rename_runs_error hrename)))))
          (.bind hroll (.bind hdiscard (.fail ..)))⟩
    | ok r =>
      obtain ⟨source, place, content, hsource, hplace, hslash, hmoves⟩ :=
        exists_moves_of_renameTemporary hrename
      rw [previousContent_of_placeOf hplace hslash hmoves.free] at hprevious
      obtain rfl := Except.ok.inj hprevious
      exact .inl ⟨source, place, content, r, hsource, hplace, hslash, hmoves, fun outcome s hrest =>
        .bind (.attempt (.bind (.read t) (.bind hexpect (.bind (rename_runs_ok hrename)
          (.pure ..))))) hrest⟩

/-- The rest of a commit is done in full, or the whole commit is undone. -/
theorem Committed.commit_runs {staged : List Staged} {replaced : List (Path × Option ByteArray)}
    (h : Committed t staged replaced r) (rest : List Staged) :
    (∃ replaced' s, (commit replaced rest).Runs r (.ok ()) s ∧
      Committed t (staged ++ rest) replaced' s) ∨
    ∃ failure s, (commit replaced rest).Runs r (.error failure) s ∧
      Lacks (t.Waits (staged ++ rest)) t s := by
  induction rest generalizing staged replaced r with
  | nil => exact .inl ⟨replaced, r, .pure .., by rwa [List.append_nil]⟩
  | cons w rest ih =>
    rcases commit_cons_cases r replaced w rest with
      ⟨source, place, content, r', hsource, hplace, hslash, hmoves, hgoes⟩ | ⟨failure, hfails⟩
    · rw [List.append_cons]
      rcases ih (h.step hsource hplace hslash hmoves) with
        ⟨replaced', s, hruns, hcommitted⟩ | ⟨failure, s, hruns, hlacks⟩
      · exact .inl ⟨replaced', s, hgoes _ _ hruns, hcommitted⟩
      · exact .inr ⟨failure, s, hgoes _ _ hruns, hlacks⟩
    · have hplaces : ∀ path place, t.placeOf path = .ok place →
          ¬t.Waits (staged ++ w :: rest) place := by
        rintro path place hplace ⟨v, -, hfind⟩
        exact placeOf_ne hplace hfind rfl
      have hwaits : ∀ (fewer : List Staged), fewer ⊆ staged ++ w :: rest → ∀ location,
          t.Waits fewer location → t.Waits (staged ++ w :: rest) location := by
        rintro fewer hsubset location ⟨v, hv, hfind⟩
        exact ⟨v, hsubset hv, hfind⟩
      obtain ⟨r', hroll, hlacks⟩ := h.rollBack_runs
        (hwaits staged (List.subset_append_left ..)) hplaces (.refl _ r) ⟨rfl, fun _ => id⟩
      obtain ⟨s, hdiscard, hlacks⟩ := hlacks.discard_runs
        (hwaits (w :: rest) (List.subset_append_right ..))
      exact .inr ⟨failure, s, hfails r' s hroll hdiscard, hlacks⟩

/-! ## All or nothing -/

/-- A staged content waits no more, and its target holds it unless a later one has the same
place. -/
def Settled (t r : FileTree) (w : Staged) (later : List Staged) : Prop :=
  ∃ source place content, t.findTemporary w.temporary = .ok source ∧
    t.node? source = some (.file content) ∧ r.node? source = none ∧
      t.placeOf w.target = .ok place ∧ ((∀ v ∈ later, t.placeOf v.target ≠ .ok place) →
        r.node? place = some (.file content) ∧ r.readBytes w.target = .ok content)

/-- Every content is settled, and no other place is touched. -/
structure Replaces (staged : List Staged) (t r : FileTree) : Prop where
  workingDirectory : r.workingDirectory = t.workingDirectory
  settled : ∀ before w later, staged = before ++ w :: later → t.Settled r w later
  others : ∀ location, ¬t.Waits staged location →
    (∀ w ∈ staged, t.placeOf w.target ≠ .ok location) → r.node? location = t.node? location

variable {w : Staged}

/-- The content that is moved is settled. -/
theorem Moves.settled (h : r.Moves source place content s) (hkeeps : t.Keeps s)
    (hsource : t.findTemporary w.temporary = .ok source)
    (hwaits : t.node? source = some (.file content)) (hplace : t.placeOf w.target = .ok place)
    (hslash : w.target.endsInSlash = false) : t.Settled s w [] := by
  have hfile : s.node? place = some (.file content) := by rw [h.node?, if_pos rfl]
  refine ⟨source, place, content, hsource, hwaits, ?_, hplace, fun _ =>
    ⟨hfile, (readBytes_eq_ok_iff (placeOf_of_keeps hkeeps hplace) hfile).2 hslash⟩⟩
  rw [h.node?, if_neg (placeOf_ne hplace hsource).symm, if_pos rfl]

/-- One more move settles one more content, and may replace what an earlier one has put. -/
theorem Settled.step {v : Staged} {later : List Staged} (h : t.Settled r v later)
    (hkeeps : t.Keeps r) (hmoves : r.Moves source place content s)
    (hsource : t.findTemporary w.temporary = .ok source)
    (hplace : t.placeOf w.target = .ok place) : t.Settled s v (later ++ [w]) := by
  obtain ⟨waited, held, earlier, hwaited, hwaits, hgone, hheld, hholds⟩ := h
  refine ⟨waited, held, earlier, hwaited, hwaits, ?_, hheld, fun hlater => ?_⟩
  · rw [hmoves.node?, if_neg (placeOf_ne hplace hwaited).symm, hgone, ite_self]
  · obtain ⟨hfile, hread⟩ := hholds fun other hmem => hlater other (List.mem_append_left _ hmem)
    have hne : held ≠ place := fun heq => hlater w (by simp) (heq ▸ hplace)
    have hfile' : s.node? held = some (.file earlier) := by
      rw [hmoves.node?, if_neg hne, if_neg (placeOf_ne hheld hsource), hfile]
    rw [readBytes_eq_ok_iff (placeOf_of_keeps hkeeps hheld) hfile] at hread
    exact ⟨hfile', (readBytes_eq_ok_iff
      (placeOf_of_keeps (hkeeps.trans hmoves.keeps) hheld) hfile').2 hread⟩

/-- What still waits has not been touched. -/
theorem Replaces.node?_of_waits {staged : List Staged} (h : Replaces staged t r)
    (hsource : t.findTemporary temporary = .ok source)
    (hwaits : r.node? source = some (.file content)) : t.node? source = some (.file content) := by
  rw [← h.others source ?_ fun w _ hplace => placeOf_ne hplace hsource rfl, hwaits]
  rintro ⟨w, hw, hfind⟩
  obtain ⟨before, later, hsplit⟩ := List.append_of_mem hw
  obtain ⟨found, _, _, hfound, -, hgone, -⟩ := h.settled before w later hsplit
  obtain rfl := Except.ok.inj (hfound.symm.trans hfind)
  rw [hgone] at hwaits
  cases hwaits

theorem Committed.replaces {staged : List Staged} {replaced : List (Path × Option ByteArray)}
    (h : Committed t staged replaced r) : Replaces staged t r := by
  induction h with
  | start => exact ⟨rfl, by simp, fun _ _ _ => rfl⟩
  | @step staged replaced r s w source place content h hsource hplace hslash hmoves ih =>
    have hkeeps := h.keeps.1
    have hsource := findTemporary_of_keeps h.keeps.2 hsource
    have hplace := placeOf_of_keeps h.keeps.2 hplace
    refine ⟨hmoves.workingDirectory.trans ih.workingDirectory, ?_, ?_⟩
    · intro before v later hsplit
      rcases List.eq_nil_or_concat later with rfl | ⟨later, last, rfl⟩
      · obtain ⟨-, hv⟩ := List.append_inj' hsplit rfl
        obtain rfl := List.singleton_inj.1 hv
        exact hmoves.settled (hkeeps.trans hmoves.keeps) hsource
          (ih.node?_of_waits hsource hmoves.waits) hplace hslash
      · rw [List.concat_eq_append, ← List.cons_append, ← List.append_assoc] at hsplit
        obtain ⟨hstaged, hlast⟩ := List.append_inj' hsplit rfl
        obtain rfl := List.singleton_inj.1 hlast
        rw [List.concat_eq_append]
        exact (ih.settled before v later hstaged).step hkeeps hmoves hsource hplace
    · intro location hwaits hplaces
      rw [hmoves.node?, if_neg, if_neg, ih.others]
      · rintro ⟨v, hv, hfind⟩
        exact hwaits ⟨v, List.mem_append_left _ hv, hfind⟩
      · exact fun v hv => hplaces v (List.mem_append_left _ hv)
      · rintro rfl
        exact hwaits ⟨w, by simp, hsource⟩
      · rintro rfl
        exact hplaces w (by simp) hplace

/-- A commit that succeeds replaces every target. One that fails leaves all as it was, apart from
the staged contents, which may be gone. -/
theorem commitAll_all_or_nothing (staged : List Staged) (t : FileTree) :
    match (commitAll staged t).1.outcome with
    | .ok () => Replaces staged t (commitAll staged t).2
    | .error _ => Lacks (t.Waits staged) t (commitAll staged t).2 := by
  rcases Committed.start.commit_runs (t := t) staged with
    ⟨replaced, s, ⟨houtcome, hstate⟩, hcommitted⟩ | ⟨failure, s, ⟨houtcome, hstate⟩, hlacks⟩
  · rw [commitAll, houtcome, hstate]
    exact hcommitted.replaces
  · rw [commitAll, houtcome, hstate]
    exact hlacks

/-- A note that two contents wait to replace, a content for an index that is not there yet, and a
log. -/
def notesTree : FileTree :=
  let work := FileTree.empty "work"
  let work := work.put [.named "work"] "note" (.file "old".toUTF8)
  let work := work.put [.named "work"] "log" (.file "kept".toUTF8)
  let work := work.addTemporary [.named "work"] "first".toUTF8
  let work := work.addTemporary [.named "work"] "second".toUTF8
  work.addTemporary [.named "work"] "list".toUTF8

/-- The contents that wait. The paths of the first two lead to the same file. -/
def stagedNotes : List Staged :=
  [⟨⟨⟨"."⟩, 0⟩, ⟨"note"⟩⟩, ⟨⟨⟨"."⟩, 1⟩, ⟨"./note"⟩⟩, ⟨⟨⟨"."⟩, 2⟩, ⟨"index"⟩⟩]

theorem commitAll_stagedNotes : (commitAll stagedNotes notesTree).1.outcome = .ok () ∧
    Replaces stagedNotes notesTree (commitAll stagedNotes notesTree).2 := by
  have houtcome : (commitAll stagedNotes notesTree).1.outcome = .ok () := by decide +kernel
  have hcommit := commitAll_all_or_nothing stagedNotes notesTree
  rw [houtcome] at hcommit
  exact ⟨houtcome, hcommit⟩

end FileTree

end Pedigree
