import Mathlib.Data.List.Sort
import Pedigree.DefinitionDirectory
import Pedigree.Proofs.TreeWalks

/-!
# What is read from a file tree

The definition files of a directory are known by what stands at the names with a recognized
extension (`mem_definitionFiles`), since their order is the order of their names. So a tree that
keeps its directories and these files gives the same scopes (`FileTree.SameSources.source`),
whatever else is written to it.
-/

namespace Pedigree

namespace FileTree

variable {t r : FileTree} {extensions : List String} {directory : Location}

theorem nameLE_trans (a b c : Entry) (hab : nameLE a b) (hbc : nameLE b c) : nameLE a c := by
  simp only [nameLE, Bool.not_eq_true', decide_eq_false_iff_not, String.not_lt] at hab hbc ⊢
  exact String.le_trans hab hbc

theorem nameLE_total (a b : Entry) : (nameLE a b || nameLE b a) = true := by
  simp only [nameLE, Bool.or_eq_true, Bool.not_eq_true', decide_eq_false_iff_not, String.not_lt]
  exact String.le_total a.1 b.1

/-- The entry of a directory, if a node belongs to one. -/
def entryIn (directory : Location) (node : Location × FileNode) : Option Entry :=
  match node.1 with
  | .named name :: parent => if parent = directory then some (name, node.2) else none
  | _ => none

theorem entriesAt_eq (t : FileTree) (directory : Location) :
    t.entriesAt directory = (t.nodes.entries.filterMap (entryIn directory)).mergeSort nameLE := rfl

theorem entryIn_eq_some_iff {node : Location × FileNode} {entry : Entry} :
    entryIn directory node = some entry ↔ node = (.named entry.1 :: directory, entry.2) := by
  obtain ⟨location, found⟩ := node
  obtain ⟨name, content⟩ := entry
  unfold entryIn
  split
  · rename_i other parent hlocation
    split <;> simp_all
  · rename_i hlocation
    refine ⟨nofun, fun heq => ?_⟩
    exact absurd (Prod.mk.inj heq).1 (hlocation name directory)

theorem mem_entriesAt {name : String} {node : FileNode} :
    (name, node) ∈ t.entriesAt directory ↔ t.node? (.named name :: directory) = some node := by
  rw [entriesAt_eq, List.mem_mergeSort, List.mem_filterMap, node?_cons]
  constructor
  · rintro ⟨entry, hmem, hentry⟩
    obtain rfl := entryIn_eq_some_iff.1 hentry
    exact OrderedMap.get?_of_mem hmem
  · intro hget
    exact ⟨_, Entries.mem_of_get? hget, entryIn_eq_some_iff.2 rfl⟩

/-- No two entries of a directory share a name. -/
theorem distinct_entryIn (t : FileTree) (directory : Location) :
    (t.nodes.entries.filterMap (entryIn directory)).Pairwise fun a b => a.1 ≠ b.1 := by
  refine (List.pairwise_map.1 t.nodes.distinct).filterMap _ ?_
  intro node node' hne entry hentry entry' hentry' heq
  rw [entryIn_eq_some_iff.1 hentry, entryIn_eq_some_iff.1 hentry', heq] at hne
  exact hne rfl

/-- The entries of a directory come in the order of their names, each once. -/
theorem pairwise_entriesAt (t : FileTree) (directory : Location) :
    (t.entriesAt directory).Pairwise fun a b => a.1 < b.1 := by
  have hdistinct : (t.entriesAt directory).Pairwise fun a b => a.1 ≠ b.1 := by
    rw [entriesAt_eq, (List.mergeSort_perm ..).pairwise_iff fun hne => Ne.symm hne]
    exact distinct_entryIn t directory
  refine (hdistinct.and (List.pairwise_mergeSort nameLE_trans nameLE_total _)).imp ?_
  rintro a b ⟨hne, hle⟩
  by_contra hlt
  simp only [nameLE, Bool.not_eq_true', decide_eq_false_iff_not] at hle
  exact hne (String.le_antisymm (String.not_lt.1 hle) (String.not_lt.1 hlt))

/-- The file of an entry, if its name is to be kept. -/
def fileOf? {α : Type} (keep : α → Bool) (entry : α × FileNode) : Option (α × ByteArray) :=
  match entry.2 with
  | .file content => if keep entry.1 then some (entry.1, content) else none
  | .directory => none

theorem fileOf?_eq_some_iff {α : Type} {keep : α → Bool} {entry : α × FileNode}
    {file : α × ByteArray} :
    fileOf? keep entry = some file ↔ entry = (file.1, .file file.2) ∧ keep file.1 := by
  obtain ⟨name, node⟩ := entry
  obtain ⟨other, content⟩ := file
  cases node with
  | directory => exact ⟨nofun, fun h => by cases h.1⟩
  | file found =>
    simp only [fileOf?, Option.ite_none_right_eq_some, Option.some.injEq, Prod.mk.injEq,
      FileNode.file.injEq]
    constructor
    · rintro ⟨hname, rfl, rfl⟩
      exact ⟨⟨rfl, rfl⟩, hname⟩
    · rintro ⟨⟨rfl, rfl⟩, hname⟩
      exact ⟨hname, rfl, rfl⟩

/-- The file of an entry, if it holds a definition. -/
def definitionOf? (extensions : List String) : Entry → Option (String × ByteArray) :=
  fileOf? (isDefinitionFile extensions)

theorem definitionFiles_eq (t : FileTree) (extensions : List String) (directory : Location) :
    t.definitionFiles extensions directory =
      (t.entriesAt directory).filterMap (definitionOf? extensions) := rfl

theorem definitionOf?_eq_some_iff {entry : Entry} {file : String × ByteArray} :
    definitionOf? extensions entry = some file ↔
      entry = (file.1, .file file.2) ∧ isDefinitionFile extensions file.1 :=
  fileOf?_eq_some_iff

theorem mem_definitionFiles {name : String} {content : ByteArray} :
    (name, content) ∈ t.definitionFiles extensions directory ↔
      isDefinitionFile extensions name ∧
        t.node? (.named name :: directory) = some (.file content) := by
  rw [definitionFiles_eq, List.mem_filterMap, ← mem_entriesAt]
  constructor
  · rintro ⟨entry, hmem, hfile⟩
    obtain ⟨rfl, hname⟩ := definitionOf?_eq_some_iff.1 hfile
    exact ⟨hname, hmem⟩
  · rintro ⟨hname, hmem⟩
    exact ⟨_, hmem, definitionOf?_eq_some_iff.2 ⟨rfl, hname⟩⟩

theorem pairwise_definitionFiles (t : FileTree) (extensions : List String)
    (directory : Location) :
    (t.definitionFiles extensions directory).Pairwise fun a b => a.1 < b.1 := by
  refine (pairwise_entriesAt t directory).filterMap _ ?_
  intro entry entry' hlt file hfile file' hfile'
  rw [(definitionOf?_eq_some_iff.1 hfile).1, (definitionOf?_eq_some_iff.1 hfile').1] at hlt
  exact hlt

/-- Definition files in the order of their names are known by what the names stand for. -/
theorem eq_definitionFiles {files : List (String × ByteArray)}
    (hsorted : files.Pairwise fun a b => a.1 < b.1)
    (hfiles : ∀ name content, (name, content) ∈ files ↔ isDefinitionFile extensions name ∧
      t.node? (.named name :: directory) = some (.file content)) :
    files = t.definitionFiles extensions directory := by
  have hirrefl : Std.Irrefl fun a b : String × ByteArray => a.1 < b.1 :=
    ⟨fun a => String.lt_irrefl a.1⟩
  have hantisymm : Std.Antisymm fun a b : String × ByteArray => a.1 < b.1 :=
    ⟨fun _ _ hlt hlt' => absurd hlt' (String.lt_asymm hlt)⟩
  refine hsorted.eq_of_mem_iff (pairwise_definitionFiles t extensions directory) ?_
  rintro ⟨name, content⟩
  rw [hfiles, mem_definitionFiles]

theorem nodup_definitionFiles (t : FileTree) (extensions : List String) (directory : Location) :
    (t.definitionFiles extensions directory).Nodup := by
  refine (pairwise_definitionFiles t extensions directory).imp ?_
  rintro a b hlt rfl
  exact String.lt_irrefl _ hlt

theorem definitionFiles_congr
    (h : ∀ name content, isDefinitionFile extensions name →
      (t.node? (.named name :: directory) = some (.file content) ↔
        r.node? (.named name :: directory) = some (.file content))) :
    t.definitionFiles extensions directory = r.definitionFiles extensions directory :=
  eq_definitionFiles (pairwise_definitionFiles t extensions directory) fun name content =>
    mem_definitionFiles.trans (and_congr_right (h name content))

/-! ## Scopes -/

/-- The directories are still there, and the definition files are the same. -/
structure SameSources (extensions : List String) (t r : FileTree) : Prop where
  keeps : t.Keeps r
  file : ∀ name directory content, isDefinitionFile extensions name →
    (t.node? (.named name :: directory) = some (.file content) ↔
      r.node? (.named name :: directory) = some (.file content))

variable {path : Path}

/-- A collection that could be read is read again. -/
theorem SameSources.readCollection (h : SameSources extensions t r) {read : Collection}
    (hread : (t.readCollection extensions path).outcome = .ok read) :
    r.readCollection extensions path = t.readCollection extensions path := by
  unfold FileTree.readCollection at hread ⊢
  split at hread
  · rename_i location hfind
    have hfind' : r.find path = .ok (location, .directory) := by
      rw [find_eq_ok_directory_iff] at hfind ⊢
      exact ⟨hfind.1, h.keeps.origin path ▸ enter_of_keeps h.keeps hfind.2⟩
    have hfiles : r.definitionFiles extensions location =
        t.definitionFiles extensions location :=
      (definitionFiles_congr fun name content => h.file name location content).symm
    rw [hfind']
    simp only [hfiles]
  · cases hread

theorem SameSources.loadDirectory (h : SameSources extensions t r) {scope : Scope}
    (hload : (t.loadDirectory extensions path).outcome = .ok scope) :
    r.loadDirectory extensions path = t.loadDirectory extensions path := by
  unfold FileTree.loadDirectory at hload ⊢
  obtain ⟨items, hitems, hload⟩ := Logged.bind_eq_ok_iff.1 hload
  rw [h.readCollection hitems]
  split at hload
  · rename_i hbases
    simp only [hbases, if_true]
  · rename_i hbases
    obtain ⟨bases, hread, -⟩ := Logged.bind_eq_ok_iff.1 hload
    simp only [hbases, if_false, h.readCollection hread]

theorem SameSources.source (h : SameSources extensions t r) {root : Path} {kind : ScopeKind}
    {scope : Scope} (hload : (t.source extensions root kind).outcome = .ok scope) :
    r.source extensions root kind = t.source extensions root kind :=
  h.loadDirectory hload

/-- A directory that holds nothing but directories has no definitions. -/
theorem outcome_readCollection_of_no_files (directory : Location)
    (hfind : t.find path = .ok (directory, .directory))
    (h : ∀ entry ∈ t.nodes.entries.filterMap (entryIn directory), entry.2 = .directory) :
    (t.readCollection extensions path).outcome = .ok .empty := by
  have hfiles : t.definitionFiles extensions directory = [] := by
    rw [definitionFiles_eq, List.filterMap_eq_nil_iff]
    intro entry hmem
    rw [definitionOf?, fileOf?, h entry (List.mem_mergeSort.1 hmem)]
  rw [FileTree.readCollection, hfind]
  simp only [hfiles]
  rfl

end FileTree

namespace Compilation

/-- A compilation reads its source only as far as it gets. -/
theorem render_congr {source later : Source} {locale : Option String} {indent : Nat}
    {result : Summary × Documents}
    (h : ∀ kind scope, (source kind).outcome = .ok scope → later kind = source kind)
    (hrender : (render source locale indent).outcome = .ok result) :
    render later locale indent = render source locale indent := by
  obtain ⟨resolved, hresolve, -⟩ := Logged.bind_eq_ok_iff.1 hrender
  obtain ⟨properties, hproperties, hresolve⟩ := Logged.bind_eq_ok_iff.1 hresolve
  obtain ⟨_, -, hresolve⟩ := Logged.bind_eq_ok_iff.1 hresolve
  obtain ⟨objects, hobjects, -⟩ := Logged.bind_eq_ok_iff.1 hresolve
  simp only [render, resolve, h .properties properties hproperties, h .objects objects hobjects]

end Compilation

end Pedigree
