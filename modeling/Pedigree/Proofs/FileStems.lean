import Mathlib.Data.List.Nodup
import Pedigree.Proofs.ListedFiles

/-!
# Stems of definition files

A definition is known by the stem of its file. A file keeps its entry in the collection that is read
if no other file of the directory has its stem (`FileTree.keepsFiles_iff`). Names with one extension
differ in their stems, so with a single extension nothing is lost. With two of them, of the files
`a.yaml` and `a.yml` only the later one is left, and nothing tells
(`FileTree.not_forall_keepsFiles`).
-/

namespace Pedigree.FileTree

/-- The file of this name holds a definition. -/
def IsDefinition (t : FileTree) (extensions : List String) (location : Location) (name : String)
    (content : ByteArray) : Prop :=
  isDefinitionFile extensions name ∧ t.node? (.named name :: location) = some (.file content)

/-- Each definition file of the directory has an entry of its own in the collection. -/
structure KeepsFiles (t : FileTree) (extensions : List String) (directory : Path)
    (location : Location) (collected : Collection) : Prop where
  /-- The entry of a file has its stem for key, and holds its definition. -/
  entry : ∀ name content, t.IsDefinition extensions location name content → ∃ definition,
    parseFile (directory.join ⟨name⟩) content = .ok definition ∧
      collected.get? (Path.splitExtension name).1 = some definition
  /-- No entry is that of two files. -/
  size_eq : collected.size = (t.definitionFiles extensions location).length

/-- No two definition files of the directory share a stem. -/
def DistinctStems (t : FileTree) (extensions : List String) (location : Location) : Prop :=
  ∀ name content name' content', t.IsDefinition extensions location name content →
    t.IsDefinition extensions location name' content' →
      (Path.splitExtension name).1 = (Path.splitExtension name').1 → name = name'

variable {t : FileTree} {extensions : List String} {location : Location} {directory : Path}
  {collected : Collection} {files : List DefinitionFile}

/-- Files with different stems keep their definitions. -/
theorem get?_of_collect (h : collect directory .empty files = .ok collected)
    (hstems : (files.map stem).Nodup) : ∀ file ∈ files, ∃ definition,
      Defines directory file definition ∧ collected.get? (stem file) = some definition := by
  obtain ⟨pairs, hpairs, hgathers⟩ := collect_eq_ok_iff.1 h
  rw [Entries.gathers_iff, Entries.ofPairs_of_nodup (hpairs.keys_eq ▸ hstems)] at hgathers
  intro file hfile
  obtain ⟨definition, hdefinition, hmem⟩ := hpairs.exists_value hfile
  exact ⟨definition, hdefinition, OrderedMap.get?_of_mem (hgathers ▸ hmem)⟩

/-- There are as many definitions as files if and only if no two files share a stem. -/
theorem size_eq_iff_of_collect (h : collect directory .empty files = .ok collected) :
    collected.size = files.length ↔ (files.map stem).Nodup := by
  obtain ⟨pairs, hpairs, hgathers⟩ := collect_eq_ok_iff.1 h
  have hlength : files.length = pairs.length := hpairs.length_eq
  rw [OrderedMap.size, Entries.gathers_iff.1 hgathers, hlength, Entries.length_ofPairs_eq_iff,
    hpairs.keys_eq]

theorem nodup_stems_iff : ((t.definitionFiles extensions location).map stem).Nodup ↔
    t.DistinctStems extensions location := by
  rw [List.nodup_map_iff_inj_on (nodup_definitionFiles t extensions location)]
  constructor
  · intro h name content name' content' hname hname' hstem
    have heq := h _ (mem_definitionFiles.2 hname) _ (mem_definitionFiles.2 hname') hstem
    exact congrArg Prod.fst heq
  · rintro h ⟨name, content⟩ hname ⟨name', content'⟩ hname' hstem
    rw [mem_definitionFiles] at hname hname'
    obtain rfl := h name content name' content' hname hname' hstem
    rw [hname.2] at hname'
    cases hname'.2
    rfl

/-- What is kept of the definition files of a directory is decided by their stems. -/
theorem keepsFiles_iff (hfind : t.find directory = .ok (location, .directory))
    (hread : (t.readCollection extensions directory).outcome = .ok collected) :
    t.KeepsFiles extensions directory location collected ↔
      t.DistinctStems extensions location := by
  rw [outcome_readCollection hfind] at hread
  rw [← nodup_stems_iff, ← size_eq_iff_of_collect hread]
  refine ⟨KeepsFiles.size_eq, fun hsize => ⟨fun name content hname => ?_, hsize⟩⟩
  exact get?_of_collect hread ((size_eq_iff_of_collect hread).1 hsize) (name, content)
    (mem_definitionFiles.2 hname)

theorem exists_extension {name : String} (h : isDefinitionFile extensions name) :
    ∃ stem, ∃ extension ∈ extensions, Path.splitExtension name = (stem, some extension) := by
  unfold isDefinitionFile at h
  split at h
  · rename_i extension hextension
    exact ⟨_, extension, by simpa using h, Prod.ext rfl hextension⟩
  · cases h

/-- Names with one extension differ in their stems. -/
theorem distinctStems_of_one_extension (t : FileTree) (location : Location)
    (h : ∀ extension ∈ extensions, ∀ other ∈ extensions, extension = other) :
    t.DistinctStems extensions location := by
  intro name content name' content' hname hname' hstem
  obtain ⟨stem, extension, hmem, hsplit⟩ := exists_extension hname.1
  obtain ⟨stem', extension', hmem', hsplit'⟩ := exists_extension hname'.1
  obtain rfl : stem = stem' := by rwa [hsplit, hsplit'] at hstem
  rw [Path.eq_of_splitExtension hsplit, Path.eq_of_splitExtension hsplit',
    h extension hmem extension' hmem']

/-- In a collection that could be read every definition file of the directory has an entry of its
own if and only if no two of them share a stem, and none of them does with a single extension. -/
theorem readCollection_keepsFiles_iff (hfind : t.find directory = .ok (location, .directory))
    (hread : (t.readCollection extensions directory).outcome = .ok collected) :
    (t.KeepsFiles extensions directory location collected ↔
      t.DistinctStems extensions location) ∧
    ((∀ extension ∈ extensions, ∀ other ∈ extensions, extension = other) →
      t.KeepsFiles extensions directory location collected) :=
  ⟨keepsFiles_iff hfind hread, fun hone =>
    (keepsFiles_iff hfind hread).2 (distinctStems_of_one_extension t location hone)⟩

/-! ## Files of one stem -/

theorem fault?_text (directory : Path) (name text : String) :
    fault? directory (name, text.toUTF8) =
      failure? (Definition.parse text (directory.join ⟨name⟩)) := by
  rw [fault?, parseIn, parseFile, Text.decode?_eq_some_iff.2 rfl]

/-- The files of the shelf can all be read. -/
theorem exists_readCollection_shelf (extensions : List String) :
    ∃ collected, (shelf.readCollection extensions ⟨"."⟩).outcome = .ok collected := by
  rw [outcome_readCollection find_shelf, ← failure?_eq_none_iff, failure?_collect,
    List.findSome?_eq_none_iff]
  rintro ⟨name, content⟩ hfile
  have hnode := (mem_definitionFiles.1 hfile).2
  rw [node?_cons] at hnode
  have hmem := Entries.mem_of_get? hnode
  have hentries : shelf.nodes.entries = [([.named "work"], .directory),
    ([.named "a.yml", .named "work"], .file "order: 2\n".toUTF8),
    ([.named "a.yaml", .named "work"], .file "order: 1\n".toUTF8),
    ([.named "a-b.yaml", .named "work"], .file "order: 3\n".toUTF8)] := rfl
  simp only [hentries, List.mem_cons, Prod.mk.injEq, List.cons.injEq, EntryName.named.injEq,
    FileNode.file.injEq, reduceCtorEq, and_true, and_false, false_or, or_false,
    List.not_mem_nil] at hmem
  rcases hmem with ⟨rfl, rfl⟩ | ⟨rfl, rfl⟩ | ⟨rfl, rfl⟩
  · rw [fault?_text]
    decide +kernel
  · rw [fault?_text]
    decide +kernel
  · rw [fault?_text]
    decide +kernel

theorem not_distinctStems_shelf :
    ¬shelf.DistinctStems ["yaml", "yml"] [.named "work"] := by
  intro h
  have heq := h "a.yaml" "order: 1\n".toUTF8 "a.yml" "order: 2\n".toUTF8
    ⟨by decide, rfl⟩ ⟨by decide, rfl⟩ (by decide)
  revert heq
  decide

theorem readCollection_keepsFiles_shelf :
    shelf.find ⟨"."⟩ = .ok ([.named "work"], .directory) ∧
      (∃ collected, (shelf.readCollection ["yaml"] ⟨"."⟩).outcome = .ok collected ∧
        shelf.KeepsFiles ["yaml"] ⟨"."⟩ [.named "work"] collected) ∧
      ∃ collected, (shelf.readCollection ["yaml", "yml"] ⟨"."⟩).outcome = .ok collected ∧
        ¬shelf.KeepsFiles ["yaml", "yml"] ⟨"."⟩ [.named "work"] collected := by
  obtain ⟨one, hone⟩ := exists_readCollection_shelf ["yaml"]
  obtain ⟨both, hboth⟩ := exists_readCollection_shelf ["yaml", "yml"]
  obtain ⟨-, hkeeps⟩ := readCollection_keepsFiles_iff find_shelf hone
  obtain ⟨hiff, -⟩ := readCollection_keepsFiles_iff find_shelf hboth
  exact ⟨find_shelf, ⟨one, hone, hkeeps (by decide)⟩, both, hboth,
    fun h => not_distinctStems_shelf (hiff.1 h)⟩

/-- Not every collection that is read has kept all definition files of its directory. -/
theorem not_forall_keepsFiles :
    ¬∀ (t : FileTree) (extensions : List String) (directory : Path) (location : Location)
      (collected : Collection), t.find directory = .ok (location, .directory) →
      (t.readCollection extensions directory).outcome = .ok collected →
      t.KeepsFiles extensions directory location collected := by
  intro h
  obtain ⟨collected, hread⟩ := exists_readCollection_shelf ["yaml", "yml"]
  exact not_distinctStems_shelf
    ((keepsFiles_iff find_shelf hread).1 (h _ _ _ _ _ find_shelf hread))

end Pedigree.FileTree
