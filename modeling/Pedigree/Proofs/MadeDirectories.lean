import Pedigree.Proofs.TreeWalks

/-!
# Making directories

Directories are made from the inside out : where the parent is missing, the parents are made
first. What is new afterwards are directories on the path, whether the attempt succeeds or not
(`grows_makeEach`), and a path that leads to a directory is left alone
(`makeEach_of_isDirectory`).

A failed attempt that is repeated changes nothing (`makeEach_again`). It fails again, though not
always for the same reason : a file in the way of a directory may have been out of reach before
the first attempt made the way to it.
-/

namespace Pedigree.FileTree

variable {t r : FileTree} {path : Path}

/-! ## One directory -/

/-- Makes a directory under the name that a last step gives. -/
def makeIn (t : FileTree) (last : Option Path.Step) (parent : Location) :
    Except FileFault FileTree :=
  match last with
  | some (.name name) =>
    if (t.node? (.named name :: parent)).isSome then .error .exists
    else .ok (t.put parent name .directory)
  | _ => .error .exists

theorem makeDirectory_eq (t : FileTree) (path : Path) :
    t.makeDirectory path = t.findParent path >>= t.makeIn path.steps.getLast? := by
  unfold makeDirectory
  refine congrArg _ (funext fun parent => ?_)
  generalize path.steps.getLast? = last
  rcases last with _ | (_ | _ | name)
  · rfl
  · rfl
  · rfl
  · unfold makeIn
    cases hnode : (t.node? (.named name :: parent)).isSome <;> simp only [hnode] <;> rfl

theorem makeDirectory_of_findParent {fault : FileFault} (h : t.findParent path = .error fault) :
    t.makeDirectory path = .error fault := by
  rw [makeDirectory_eq, h]
  rfl

theorem makeDirectory_eq_ok (h : t.makeDirectory path = .ok r) :
    ∃ parent name, t.findParent path = .ok parent ∧ path.steps.getLast? = some (.name name) ∧
      t.node? (.named name :: parent) = none ∧ r = t.put parent name .directory := by
  rw [makeDirectory_eq, bind_eq_ok_iff] at h
  obtain ⟨parent, hparent, hmake⟩ := h
  unfold makeIn at hmake
  split at hmake
  · rename_i name hlast
    split at hmake
    · cases hmake
    · rename_i hnode
      exact ⟨parent, name, hparent, hlast, by simpa using hnode, (Except.ok.inj hmake).symm⟩
  · cases hmake

/-- A directory is not made because the way to it is not there, or because something is. -/
theorem makeDirectory_eq_error {fault : FileFault} (h : t.makeDirectory path = .error fault) :
    t.findParent path = .error fault ∨
      fault = .exists ∧ ∃ parent, t.findParent path = .ok parent := by
  rw [makeDirectory_eq] at h
  cases hparent : t.findParent path with
  | error _ =>
    rw [hparent] at h
    exact Or.inl (congrArg _ (Except.error.inj h))
  | ok parent =>
    rw [hparent] at h
    have hmake : t.makeIn path.steps.getLast? parent = .error fault := h
    unfold makeIn at hmake
    refine Or.inr ⟨?_, parent, rfl⟩
    split at hmake
    · split at hmake
      · exact (Except.error.inj hmake).symm
      · cases hmake
    · exact (Except.error.inj hmake).symm

theorem findParent_empty (h : path.text = "") : t.findParent path = .error .missing := by
  rw [findParent, h]
  rfl

theorem text_ne_of_findParent {parent : Location} (h : t.findParent path = .ok parent) :
    path.text ≠ "" := by
  intro hempty
  rw [findParent_empty hempty] at h
  cases h

/-- A directory that was made can be entered, and nothing else has changed. -/
theorem enter_of_makeDirectory (h : t.makeDirectory path = .ok r) :
    ∃ place, r.enter (r.origin path) path.steps = .ok place ∧ t.node? place = none ∧
      t.Keeps r ∧ ∀ location, location ≠ place → r.node? location = t.node? location := by
  obtain ⟨parent, name, hparent, hlast, hnone, rfl⟩ := makeDirectory_eq_ok h
  have hkeeps : t.Keeps (t.put parent name .directory) := by
    refine ⟨rfl, fun location hnode => ?_⟩
    rw [node?_put]
    split
    · rfl
    · exact hnode
  rw [findParent_eq_enter (text_ne_of_findParent hparent)] at hparent
  refine ⟨.named name :: parent, ?_, hnone, hkeeps, fun location hne => ?_⟩
  · rw [← List.dropLast_append_getLast? _ hlast, enter_append, hkeeps.origin,
      enter_of_keeps hkeeps hparent]
    change FileTree.enter _ _ _ = _
    rw [enter_cons, check_eq_ok_iff.2 ⟨rfl, node?_of_enter (enter_of_keeps hkeeps hparent)⟩]
    exact check_eq_ok_iff.2 ⟨rfl, by rw [Path.Step.next, node?_put, if_pos rfl]⟩
  · rw [node?_put, if_neg hne]

theorem grows_makeDirectory (h : t.makeDirectory path = .ok r) : GrowsAlong path t r := by
  obtain ⟨place, henter, hnone, hkeeps, hothers⟩ := enter_of_makeDirectory h
  refine ⟨hkeeps.workingDirectory, fun location => ?_⟩
  by_cases hplace : location = place
  · subst hplace
    exact Or.inr ⟨hnone, node?_of_enter henter,
      path.moves, List.prefix_rfl, (enter_moves ..).trans henter⟩
  · exact Or.inl (hothers location hplace)

theorem isDirectory_of_makeDirectory (h : t.makeDirectory path = .ok r) : r.isDirectory path := by
  obtain ⟨place, henter, -⟩ := enter_of_makeDirectory h
  obtain ⟨_, _, hparent, -⟩ := makeDirectory_eq_ok h
  exact isDirectory_iff.2
    ⟨place, find_eq_ok_directory_iff.2 ⟨text_ne_of_findParent hparent, henter⟩⟩

/-- There is a way to a directory that is there, and no other one can be made in its place. -/
theorem makeDirectory_of_isDirectory (h : t.isDirectory path) :
    t.makeDirectory path = .error .exists := by
  obtain ⟨place, hfind⟩ := isDirectory_iff.1 h
  obtain ⟨htext, henter⟩ := find_eq_ok_directory_iff.1 hfind
  rw [makeDirectory_eq, findParent_eq_enter htext]
  rcases List.eq_nil_or_concat path.steps with hnil | ⟨front, last, hsteps⟩
  · rw [hnil] at henter ⊢
    change t.enter _ [] >>= _ = _
    rw [henter]
    rfl
  · rw [List.concat_eq_append] at hsteps
    rw [hsteps, enter_append, bind_eq_ok_iff] at henter
    obtain ⟨parent, hparent, hlast⟩ := henter
    rw [hsteps, List.dropLast_concat, hparent, List.getLast?_concat]
    change t.makeIn (some last) parent = _
    unfold makeIn
    split
    · rename_i name heq
      obtain rfl := Option.some.inj heq
      rw [enter_cons, bind_eq_ok_iff] at hlast
      obtain ⟨start, hstart, hcheck⟩ := hlast
      obtain ⟨rfl, -⟩ := check_eq_ok_iff.1 hstart
      obtain ⟨-, hnode⟩ := check_eq_ok_iff.1 hcheck
      rw [Path.Step.next] at hnode
      rw [hnode]
      rfl
    · rfl

/-- Makes a directory, or is content with the one that is there. -/
def makeOne (t : FileTree) (path : Path) : Except FileFault Unit × FileTree :=
  match t.makeDirectory path with
  | .ok made => (.ok (), made)
  | .error fault => (if t.isDirectory path then .ok () else .error fault, t)

theorem makeOne_eq_ok (h : t.makeOne path = (.ok (), r)) :
    r.isDirectory path ∧ GrowsAlong path t r := by
  unfold makeOne at h
  split at h
  · rename_i made hmake
    obtain rfl : made = r := (Prod.mk.inj h).2
    exact ⟨isDirectory_of_makeDirectory hmake, grows_makeDirectory hmake⟩
  · obtain ⟨hif, rfl⟩ := Prod.mk.inj h
    split at hif
    · rename_i hdirectory
      exact ⟨hdirectory, .refl path t⟩
    · cases hif

theorem makeOne_eq_error {fault : FileFault} (h : t.makeOne path = (.error fault, r)) :
    r = t ∧ t.makeDirectory path = .error fault ∧ t.isDirectory path = false := by
  unfold makeOne at h
  split at h
  · cases (Prod.mk.inj h).1
  · rename_i hmake
    obtain ⟨hif, rfl⟩ := Prod.mk.inj h
    split at hif
    · cases hif
    · rename_i hdirectory
      obtain rfl := Except.error.inj hif
      exact ⟨rfl, hmake, by simpa using hdirectory⟩

/-! ## Directories inside each other -/

theorem makeEach_of_ne_missing (h : t.makeDirectory path ≠ .error .missing)
    (parents : List Path) : t.makeEach (path :: parents) = t.makeOne path := by
  rw [makeEach, makeOne]
  split
  · rename_i hmake
    rw [hmake]
  · rename_i hmake
    exact absurd hmake h
  · rename_i hmake
    rw [hmake]

/-- The parents are made first where a directory on the way is missing. -/
theorem makeEach_of_missing (h : t.makeDirectory path = .error .missing) (parents : List Path) :
    t.makeEach (path :: parents) =
      match t.makeEach parents with
      | (.error fault, reached) => (.error fault, reached)
      | (.ok (), reached) => reached.makeOne path := by
  rw [makeEach, h]
  rfl

/-- The three ways in which directories are made, or not. -/
theorem makeEach_cons_cases {outcome : Except FileFault Unit} {parents : List Path}
    (h : t.makeEach (path :: parents) = (outcome, r)) :
    t.makeDirectory path ≠ .error .missing ∧ t.makeOne path = (outcome, r) ∨
    t.makeDirectory path = .error .missing ∧
      ((∃ fault, t.makeEach parents = (.error fault, r) ∧ outcome = .error fault) ∨
        ∃ reached, t.makeEach parents = (.ok (), reached) ∧
          reached.makeOne path = (outcome, r)) := by
  by_cases hmissing : t.makeDirectory path = .error .missing
  · rw [makeEach_of_missing hmissing] at h
    refine Or.inr ⟨hmissing, ?_⟩
    rcases hparents : t.makeEach parents with ⟨_ | _, reached⟩
    · rw [hparents] at h
      obtain ⟨rfl, rfl⟩ := Prod.mk.inj h
      exact Or.inl ⟨_, rfl, rfl⟩
    · rw [hparents] at h
      exact Or.inr ⟨reached, rfl, h⟩
  · rw [makeEach_of_ne_missing hmissing] at h
    exact Or.inl ⟨hmissing, h⟩

theorem grows_makeOne {outcome : Except FileFault Unit} (h : t.makeOne path = (outcome, r)) :
    GrowsAlong path t r := by
  cases outcome with
  | ok => exact (makeOne_eq_ok h).2
  | error fault => exact (makeOne_eq_error h).1 ▸ .refl path t

/-- Directories that are made one after the other are all on the path they are made for. -/
theorem grows_makeEach {outcome : Except FileFault Unit} {paths : List Path}
    (hpaths : ∀ part ∈ paths, path.LeadsThrough part) (h : t.makeEach paths = (outcome, r)) :
    GrowsAlong path t r := by
  induction paths generalizing r outcome with
  | nil => exact (Prod.mk.inj h).2 ▸ .refl path t
  | cons part parents ih =>
    have hpart := hpaths part List.mem_cons_self
    have hparents := fun other hmem => hpaths other (List.mem_cons_of_mem part hmem)
    rcases makeEach_cons_cases h with
      ⟨-, hone⟩ | ⟨-, ⟨fault, hfailed, -⟩ | ⟨reached, hreached, hone⟩⟩
    · exact (grows_makeOne hone).of_leadsThrough hpart
    · exact ih hparents hfailed
    · exact (ih hparents hreached).trans ((grows_makeOne hone).of_leadsThrough hpart)

theorem isDirectory_of_makeEach {parents : List Path}
    (h : t.makeEach (path :: parents) = (.ok (), r)) : r.isDirectory path := by
  rcases makeEach_cons_cases h with
    ⟨-, hone⟩ | ⟨-, ⟨fault, -, hfault⟩ | ⟨reached, -, hone⟩⟩
  · exact (makeOne_eq_ok hone).1
  · cases hfault
  · exact (makeOne_eq_ok hone).1

theorem makeEach_of_isDirectory (h : t.isDirectory path) (parents : List Path) :
    t.makeEach (path :: parents) = (.ok (), t) := by
  have hmake := makeDirectory_of_isDirectory h
  rw [makeEach_of_ne_missing (by rw [hmake]; nofun), makeOne, hmake]
  simp only [h, if_true]

/-! ## Trying again -/

theorem findParent_of_standsIn {directory : Path} (h : path.StandsIn directory) :
    t.findParent path = t.enter (t.origin directory) directory.steps := by
  rw [findParent_eq_enter h.text, ← enter_moves, h.moves, Path.moves, enter_moves, origin, origin,
    h.isAbsolute]

theorem isDirectory_iff_of_standsIn {directory : Path} (h : path.StandsIn directory) :
    t.isDirectory directory ↔ ∃ parent, t.findParent path = .ok parent := by
  simp only [isDirectory_iff, find_eq_ok_directory_iff, findParent_of_standsIn h, ne_eq,
    h.directoryText, not_false_eq_true, true_and]

/-- No directory is missing on the way to one that stands in a directory. -/
theorem makeDirectory_ne_missing {directory : Path} (h : path.StandsIn directory)
    (hdirectory : t.isDirectory directory) : t.makeDirectory path ≠ .error .missing := by
  intro hmissing
  obtain ⟨parent, hparent⟩ := (isDirectory_iff_of_standsIn h).1 hdirectory
  rcases makeDirectory_eq_error hmissing with hfault | ⟨hfault, -⟩
  · rw [hparent] at hfault
    cases hfault
  · cases hfault

/-- Nothing has been made if the way is still missing in the end. -/
theorem eq_of_makeEach_missing {paths : List Path} (hchain : paths.IsChain Path.StandsIn)
    (h : t.makeEach paths = (.error .missing, r)) : r = t := by
  induction paths generalizing r with
  | nil => cases (Prod.mk.inj h).1
  | cons path parents ih =>
    rcases makeEach_cons_cases h with
      ⟨-, hone⟩ | ⟨-, ⟨fault, hfailed, hfault⟩ | ⟨reached, hreached, hone⟩⟩
    · exact (makeOne_eq_error hone).1
    · obtain rfl := Except.error.inj hfault
      exact ih hchain.tail hfailed
    · obtain ⟨rfl, hmissing, -⟩ := makeOne_eq_error hone
      cases parents with
      | nil => exact (Prod.mk.inj hreached).2.symm
      | cons directory rest =>
        exact absurd hmissing (makeDirectory_ne_missing (List.isChain_cons_cons.1 hchain).1
          (isDirectory_of_makeEach hreached))

theorem findParent_eq_error {fault : FileFault} (h : t.findParent path = .error fault) :
    fault = .missing ∨ fault = .notADirectory := by
  by_cases htext : path.text = ""
  · rw [findParent_empty htext] at h
    exact Or.inl (Except.error.inj h).symm
  · rw [findParent_eq_enter htext] at h
    exact enter_eq_error h

/-- What can go wrong where a directory is made. -/
theorem fault_of_makeOne {fault : FileFault} (h : t.makeOne path = (.error fault, r)) :
    fault = .missing ∨ fault = .notADirectory ∨ fault = .exists := by
  obtain ⟨-, hmake, -⟩ := makeOne_eq_error h
  rcases makeDirectory_eq_error hmake with hparent | ⟨hexists, -⟩
  · exact (findParent_eq_error hparent).imp_right Or.inl
  · exact Or.inr (Or.inr hexists)

theorem fault_of_makeEach {paths : List Path} {fault : FileFault}
    (h : t.makeEach paths = (.error fault, r)) :
    fault = .missing ∨ fault = .notADirectory ∨ fault = .exists := by
  induction paths generalizing r with
  | nil => cases (Prod.mk.inj h).1
  | cons path parents ih =>
    rcases makeEach_cons_cases h with
      ⟨-, hone⟩ | ⟨-, ⟨other, hfailed, hfault⟩ | ⟨reached, -, hone⟩⟩
    · exact fault_of_makeOne hone
    · obtain rfl := Except.error.inj hfault
      exact ih hfailed
    · exact fault_of_makeOne hone

/-- A path whose parents could not be made is not reached either, unless it is still missing. -/
theorem makeOne_of_makeEach_eq_error {parents : List Path} {fault : FileFault}
    (hchain : (path :: parents).IsChain Path.StandsIn)
    (h : r.makeEach parents = (.error fault, r))
    (hpresent : r.makeDirectory path ≠ .error .missing) :
    r.makeOne path = (.error .notADirectory, r) := by
  cases parents with
  | nil => cases (Prod.mk.inj h).1
  | cons directory rest =>
    have hdirectory : ¬r.isDirectory directory := by
      intro hdirectory
      rw [makeEach_of_isDirectory hdirectory] at h
      cases (Prod.mk.inj h).1
    rw [isDirectory_iff_of_standsIn (List.isChain_cons_cons.1 hchain).1] at hdirectory
    cases hparent : r.findParent path with
    | ok parent => exact absurd ⟨parent, hparent⟩ hdirectory
    | error other =>
      have hmake := makeDirectory_of_findParent hparent
      obtain rfl : other = .notADirectory := by
        rcases findParent_eq_error hparent with rfl | rfl
        · exact absurd hmake hpresent
        · rfl
      have hpath : r.isDirectory path = false := by
        rw [Bool.eq_false_iff]
        intro hpath
        rw [makeDirectory_of_isDirectory hpath] at hmake
        cases hmake
      rw [makeOne, hmake]
      simp only [hpath, Bool.false_eq_true, if_false]

/-- A failed attempt that is repeated fails again and changes nothing. The fault is the same one,
or a file that was found in the way is now found on the way. -/
theorem makeEach_again {paths : List Path} {fault : FileFault}
    (hchain : paths.IsChain Path.StandsIn) (h : t.makeEach paths = (.error fault, r)) :
    ∃ again, r.makeEach paths = (.error again, r) ∧
      (again = fault ∨ fault = .exists ∧ again = .notADirectory) := by
  induction paths generalizing r with
  | nil => cases (Prod.mk.inj h).1
  | cons path parents ih =>
    rcases makeEach_cons_cases h with
      ⟨-, hone⟩ | ⟨hmissing, ⟨other, hfailed, hfault⟩ | ⟨reached, hreached, hone⟩⟩
    · obtain ⟨rfl, -⟩ := makeOne_eq_error hone
      exact ⟨fault, h, Or.inl rfl⟩
    · obtain rfl := Except.error.inj hfault
      obtain ⟨again, hagain, hfaults⟩ := ih hchain.tail hfailed
      -- the parents are tried again only where the way is still missing
      by_cases hstill : r.makeDirectory path = .error .missing
      · refine ⟨again, ?_, hfaults⟩
        rw [makeEach_of_missing hstill, hagain]
      · refine ⟨.notADirectory, ?_, ?_⟩
        · rw [makeEach_of_ne_missing hstill]
          exact makeOne_of_makeEach_eq_error hchain hagain hstill
        · rcases fault_of_makeEach hfailed with rfl | rfl | rfl
          · obtain rfl := eq_of_makeEach_missing hchain.tail hfailed
            exact absurd hmissing hstill
          · exact Or.inl rfl
          · exact Or.inr ⟨rfl, rfl⟩
    · obtain ⟨rfl, hmake, -⟩ := makeOne_eq_error hone
      by_cases hstill : r.makeDirectory path = .error .missing
      · obtain rfl : fault = .missing := Except.error.inj (hmake.symm.trans hstill)
        obtain rfl := eq_of_makeEach_missing hchain h
        exact ⟨.missing, h, Or.inl rfl⟩
      · exact ⟨fault, (makeEach_of_ne_missing hstill parents).trans hone, Or.inl rfl⟩

/-! ## Paths without steps upwards -/

/-- Everything stands in a directory. -/
def Grounded (t : FileTree) : Prop :=
  ∀ name directory, t.node? (name :: directory) ≠ none → t.node? directory = some .directory

theorem Grounded.directory_of_suffix (h : t.Grounded) {outer location : Location}
    (hsuffix : outer <:+ location) (hlocation : t.node? location = some .directory) :
    t.node? outer = some .directory := by
  induction location with
  | nil =>
    obtain rfl := List.suffix_nil.1 hsuffix
    exact hlocation
  | cons name directory ih =>
    rcases List.suffix_cons_iff.1 hsuffix with rfl | hsuffix
    · exact hlocation
    · exact ih hsuffix (h name directory (by rw [hlocation]; nofun))

/-- Steps that do not lead upwards only lead further down. -/
theorem suffix_of_enter {steps : List Path.Step} (hup : .up ∉ steps) {location place : Location}
    (h : t.enter location steps = .ok place) : location <:+ place := by
  induction steps generalizing location with
  | nil =>
    obtain ⟨rfl, -⟩ := check_eq_ok_iff.1 h
    exact List.suffix_rfl
  | cons step rest ih =>
    rw [List.mem_cons, not_or] at hup
    rw [enter_cons, bind_eq_ok_iff] at h
    obtain ⟨start, hstart, hrest⟩ := h
    obtain ⟨rfl, -⟩ := check_eq_ok_iff.1 hstart
    refine List.IsSuffix.trans ?_ (ih hup.2 hrest)
    cases step with
    | stay => exact List.suffix_rfl
    | up => exact absurd rfl hup.1
    | name s => exact List.suffix_cons ..

/-- A directory that is there is reached from every directory it stands in. -/
theorem Grounded.enter (h : t.Grounded) {steps : List Path.Step} (hup : .up ∉ steps)
    {location place : Location} (hlater : r.enter location steps = .ok place)
    (hplace : t.node? place = some .directory) : t.enter location steps = .ok place := by
  induction steps generalizing location with
  | nil =>
    obtain ⟨rfl, -⟩ := check_eq_ok_iff.1 hlater
    exact check_eq_ok_iff.2 ⟨rfl, hplace⟩
  | cons step rest ih =>
    have hsuffix := suffix_of_enter hup hlater
    rw [enter_cons, bind_eq_ok_iff] at hlater ⊢
    obtain ⟨start, hstart, hrest⟩ := hlater
    obtain ⟨rfl, -⟩ := check_eq_ok_iff.1 hstart
    exact ⟨start, check_eq_ok_iff.2 ⟨rfl, h.directory_of_suffix hsuffix hplace⟩,
      ih (fun hmem => hup (List.mem_cons_of_mem _ hmem)) hrest⟩

/-- What keeps a directory from being made under a parent that is there is a file. -/
theorem exists_file_of_makeOne {parent : Location} {fault : FileFault} (hup : .up ∉ path.steps)
    (hparent : t.findParent path = .ok parent) (h : t.makeOne path = (.error fault, r)) :
    ∃ name content, t.node? (.named name :: parent) = some (.file content) := by
  obtain ⟨rfl, hmake, hdirectory⟩ := makeOne_eq_error h
  have htext := text_ne_of_findParent hparent
  have hnot : ∀ place, r.enter (r.origin path) path.steps ≠ .ok place := by
    intro place henter
    rw [isDirectory_iff.2 ⟨place, find_eq_ok_directory_iff.2 ⟨htext, henter⟩⟩] at hdirectory
    cases hdirectory
  have henter := hparent
  rw [findParent_eq_enter htext] at henter
  rcases List.eq_nil_or_concat path.steps with hnil | ⟨front, last, hsteps⟩
  · rw [hnil] at henter hnot
    exact absurd henter (hnot parent)
  · rw [List.concat_eq_append] at hsteps
    rw [hsteps, List.dropLast_concat] at henter
    have hlast : ∀ place, r.check (last.next parent) ≠ .ok place := by
      intro place hplace
      apply hnot place
      rw [hsteps, enter_append, henter]
      change r.enter parent [last] = .ok place
      rw [enter_cons, check_eq_ok_iff.2 ⟨rfl, node?_of_enter henter⟩]
      exact hplace
    -- only a name can be taken by a file : `.` leads to the parent, which is there
    cases last with
    | stay => exact absurd (check_eq_ok_iff.2 ⟨rfl, node?_of_enter henter⟩) (hlast parent)
    | up => exact absurd (by rw [hsteps]; simp) hup
    | name s =>
      rcases hnode : r.node? (.named s :: parent) with _ | (content | _)
      · rw [makeDirectory_eq, hparent, hsteps, List.getLast?_concat] at hmake
        change r.makeIn (some (.name s)) parent = _ at hmake
        rw [makeIn, hnode] at hmake
        cases hmake
      · exact ⟨s, content, hnode⟩
      · exact absurd (check_eq_ok_iff.2 ⟨rfl, hnode⟩) (hlast _)

/-- On a path without steps upwards, a failed attempt has made nothing. -/
theorem eq_of_makeEach_eq_error (h : t.Grounded) {paths : List Path}
    (hchain : paths.IsChain Path.StandsIn) (hpaths : ∀ part ∈ paths, path.LeadsThrough part)
    (hup : ∀ part ∈ paths, .up ∉ part.steps) {fault : FileFault}
    (hfailed : t.makeEach paths = (.error fault, r)) : r = t := by
  induction paths generalizing r with
  | nil => cases (Prod.mk.inj hfailed).1
  | cons part parents ih =>
    have hparents := fun other hmem => hpaths other (List.mem_cons_of_mem part hmem)
    rcases makeEach_cons_cases hfailed with
      ⟨-, hone⟩ | ⟨hmissing, ⟨other, hparent, hother⟩ | ⟨reached, hreached, hone⟩⟩
    · exact (makeOne_eq_error hone).1
    · obtain rfl := Except.error.inj hother
      exact ih hchain.tail hparents (fun other hmem => hup other (List.mem_cons_of_mem part hmem))
        hparent
    · cases parents with
      | nil => exact (makeOne_eq_error hone).1.trans (Prod.mk.inj hreached).2.symm
      | cons directory rest =>
        have hstands := (List.isChain_cons_cons.1 hchain).1
        have hgrows := grows_makeEach hparents hreached
        have hpart := hup part List.mem_cons_self
        obtain ⟨parent, hparent⟩ :=
          (isDirectory_iff_of_standsIn hstands).1 (isDirectory_of_makeEach hreached)
        obtain ⟨name, content, hfile⟩ := exists_file_of_makeOne hpart hparent hone
        -- the file was there before, and so was the way to it
        have hplace := h (.named name) parent (by rw [hgrows.file_iff.2 hfile]; nofun)
        rw [findParent_eq_enter hstands.text, hgrows.keeps.origin] at hparent
        have hway := h.enter (fun hmem => hpart (List.dropLast_subset _ hmem)) hparent hplace
        rw [← findParent_eq_enter hstands.text] at hway
        rcases makeDirectory_eq_error hmissing with hfault | ⟨hfault, -⟩
        · rw [hway] at hfault
          cases hfault
        · cases hfault

end Pedigree.FileTree
