import Pedigree.FileTree.Change
import Pedigree.Proofs.DefinitionFiles
import Pedigree.Proofs.EntryNames
import Pedigree.Proofs.Expansion
import Pedigree.Proofs.TreeConversion

/-!
# Definition files in the order of a listing

An operating system lists the entries of a directory in any order, with names that need not be text
(`FileTree.Lists`). To read the definitions, the definition files among them are sorted by the bytes
of their names and added one after the other (`FileTree.readListing`). A name that is no text is
passed over. No two entries share a name, and texts compare as their bytes do, so there is only one
sorted list, and the listing does not matter (`Lists.readListing_eq`).

What comes of the sorted files is known without their order of reading. If each of them holds a
definition, these are gathered by the stems of the names, a stem that occurs twice in its first
place and with the definition of its last file (`collect_eq_ok_iff`). If not, the failure is that of
the first file without a definition (`failure?_collect`).
-/

namespace Pedigree.FileTree

/-! ## Files one after the other -/

/-- A definition file by its name, with its content. -/
abbrev DefinitionFile := String × ByteArray

/-- The name of the definition in a file. -/
def stem (file : DefinitionFile) : String := (Path.splitExtension file.1).1

/-- The definition in a file of a directory. -/
def parseIn (directory : Path) (file : DefinitionFile) : Except Failure Definition :=
  parseFile (directory.join ⟨file.1⟩) file.2

/-- A file of a directory holds this definition. -/
def Defines (directory : Path) (file : DefinitionFile) (definition : Definition) : Prop :=
  parseIn directory file = .ok definition

variable {directory : Path} {files : List DefinitionFile} {read collected : Collection}

theorem collect_cons (directory : Path) (read : Collection) (file : DefinitionFile)
    (rest : List DefinitionFile) :
    collect directory read (file :: rest) = parseIn directory file >>= fun definition =>
      collect directory (read.insert (stem file) definition) rest := rfl

/-- Files that all hold definitions are added under their stems, one after the other. -/
theorem collect_eq_ok_iff_foldl : collect directory read files = .ok collected ↔
    ∃ pairs, Entries.Lists stem (Defines directory) files pairs ∧ collected.entries =
      pairs.foldl (fun entries pair => Entries.insert pair.1 pair.2 entries) read.entries := by
  induction files generalizing read with
  | nil =>
    rw [collect, Except.ok.injEq, OrderedMap.ext_iff, eq_comm]
    constructor
    · exact fun h => ⟨[], .nil, h⟩
    · rintro ⟨pairs, hpairs, h⟩
      cases hpairs
      exact h
  | cons file rest ih =>
    rw [collect_cons, bind_eq_ok_iff]
    constructor
    · rintro ⟨definition, hdefinition, hrest⟩
      obtain ⟨pairs, hpairs, h⟩ := ih.1 hrest
      exact ⟨_, Entries.lists_cons_iff.2 ⟨definition, pairs, hdefinition, hpairs, rfl⟩, h⟩
    · rintro ⟨_, hlists, h⟩
      obtain ⟨definition, pairs, hdefinition, hpairs, rfl⟩ := Entries.lists_cons_iff.1 hlists
      exact ⟨definition, hdefinition, ih.2 ⟨pairs, hpairs, h⟩⟩

/-- Files that all hold definitions are gathered by their stems. -/
theorem collect_eq_ok_iff : collect directory .empty files = .ok collected ↔
    ∃ pairs, Entries.Lists stem (Defines directory) files pairs ∧
      Entries.Gathers pairs collected.entries := by
  rw [collect_eq_ok_iff_foldl]
  exact exists_congr fun pairs => and_congr_right fun _ => Entries.gathers_iff.symm

/-- The failure to read a file, if there is one. -/
def fault? (directory : Path) (file : DefinitionFile) : Option Failure :=
  failure? (parseIn directory file)

/-- The first file without a definition is the failure. -/
theorem failure?_collect (directory : Path) (read : Collection) (files : List DefinitionFile) :
    failure? (collect directory read files) = files.findSome? (fault? directory) := by
  induction files generalizing read with
  | nil => rfl
  | cons file rest ih =>
    rw [collect_cons, List.findSome?_cons, fault?]
    cases hparse : parseIn directory file with
    | error failure => rfl
    | ok definition => exact ih (read.insert (stem file) definition)

/-! ## Files of a listing -/

/-- An entry of a directory by its name in bytes. -/
abbrev RawEntry := RawName × FileNode

/-- A file by its name in bytes, with its content. -/
abbrev RawFile := RawName × ByteArray

/-- The entries of a directory as they may be listed: each of them once, in any order. A tree tells
nothing of names that are no text, so any entries with such names may be among them. -/
structure Lists (t : FileTree) (directory : Location) (listing : List RawEntry) : Prop where
  distinct : (listing.map Prod.fst).Nodup
  mem_iff : ∀ name node,
    (.ofText name, node) ∈ listing ↔ t.node? (.named name :: directory) = some node

/-- Whether a name does not come after another, by bytes. -/
def rawNameLE (a b : RawFile) : Bool := decide (a.1.bytes ≤ b.1.bytes)

/-- The definition files of a listing, sorted by name. -/
def listedFiles (extensions : List String) (listing : List RawEntry) : List RawFile :=
  (listing.filterMap (fileOf? (RawName.isDefinitionFile extensions))).mergeSort rawNameLE

/-- Adds the definitions of files under the stems of their names. A file whose stem is no text is
passed over without a look at its content. -/
def collectListed (directory : Path) (read : Collection) :
    List RawFile → Except Failure Collection
  | [] => .ok read
  | (name, content) :: rest =>
    match name.stem.text? with
    | none => collectListed directory read rest
    | some stem => do
      let definition ← parseFile (directory.join ⟨name.shown⟩) content
      collectListed directory (read.insert stem definition) rest

/-- Reads the definition files of a listing. -/
def readListing (extensions : List String) (directory : Path) (listing : List RawEntry) :
    Except Failure Collection :=
  collectListed directory .empty (listedFiles extensions listing)

/-- A file whose name is text. -/
def textFile? (file : RawFile) : Option DefinitionFile := file.1.text?.map (·, file.2)

variable {t : FileTree} {extensions : List String} {location : Location}
  {listing : List RawEntry}

theorem textFile?_eq_some_iff {raw : RawFile} {file : DefinitionFile} :
    textFile? raw = some file ↔ raw = (.ofText file.1, file.2) := by
  obtain ⟨name, content⟩ := raw
  obtain ⟨text, content'⟩ := file
  simp only [textFile?, Option.map_eq_some_iff, RawName.text?_eq_some_iff, Prod.mk.injEq]
  constructor
  · rintro ⟨_, hname, rfl, rfl⟩
    exact ⟨hname, rfl⟩
  · rintro ⟨hname, rfl⟩
    exact ⟨text, hname, rfl, rfl⟩

/-- The definition files whose stems are text are those whose names are. -/
theorem collectListed_eq {files : List RawFile}
    (h : ∀ file ∈ files, file.1.isDefinitionFile extensions) :
    collectListed directory read files = collect directory read (files.filterMap textFile?) := by
  induction files generalizing read with
  | nil => rfl
  | cons file rest ih =>
    obtain ⟨name, content⟩ := file
    obtain ⟨hname, hrest⟩ := List.forall_mem_cons.1 h
    rw [collectListed]
    split
    · rename_i hstem
      have hskip : textFile? (name, content) = none := by
        by_contra hsome
        obtain ⟨⟨text, _⟩, hfile⟩ := Option.ne_none_iff_exists'.1 hsome
        obtain ⟨rfl, -⟩ := Prod.mk.inj (textFile?_eq_some_iff.1 hfile)
        rw [RawName.stem_ofText, RawName.text?_ofText] at hstem
        cases hstem
      rw [List.filterMap_cons_none hskip, ih hrest]
    · rename_i stem' hstem
      obtain ⟨text, rfl⟩ := RawName.exists_ofText hname hstem
      have hfile : textFile? (.ofText text, content) = some (text, content) :=
        textFile?_eq_some_iff.2 rfl
      rw [RawName.stem_ofText, RawName.text?_ofText, Option.some.injEq] at hstem
      rw [List.filterMap_cons_some hfile, collect_cons, RawName.shown_ofText, ← hstem]
      exact bind_congr fun definition => ih hrest

theorem rawNameLE_trans (a b c : RawFile) (hab : rawNameLE a b) (hbc : rawNameLE b c) :
    rawNameLE a c :=
  decide_eq_true (List.le_trans (of_decide_eq_true hab) (of_decide_eq_true hbc))

theorem rawNameLE_total (a b : RawFile) : (rawNameLE a b || rawNameLE b a) = true := by
  simp only [rawNameLE, Bool.or_eq_true, decide_eq_true_eq]
  exact List.le_total a.1.bytes b.1.bytes

theorem mem_listedFiles {file : RawFile} : file ∈ listedFiles extensions listing ↔
    (file.1, .file file.2) ∈ listing ∧ file.1.isDefinitionFile extensions := by
  rw [listedFiles, List.mem_mergeSort, List.mem_filterMap]
  constructor
  · rintro ⟨entry, hentry, hfile⟩
    obtain ⟨rfl, hname⟩ := fileOf?_eq_some_iff.1 hfile
    exact ⟨hentry, hname⟩
  · rintro ⟨hentry, hname⟩
    exact ⟨_, hentry, fileOf?_eq_some_iff.2 ⟨rfl, hname⟩⟩

/-- The names of a listing differ, so they are sorted without a tie. -/
theorem Lists.pairwise_listedFiles (h : t.Lists location listing) (extensions : List String) :
    (listedFiles extensions listing).Pairwise fun a b => a.1.bytes < b.1.bytes := by
  have hdistinct : (listedFiles extensions listing).Pairwise fun a b => a.1 ≠ b.1 := by
    rw [listedFiles, (List.mergeSort_perm ..).pairwise_iff fun hne => Ne.symm hne]
    refine (List.pairwise_map.1 h.distinct).filterMap _ ?_
    intro entry entry' hne file hfile file' hfile' heq
    rw [(fileOf?_eq_some_iff.1 hfile).1, (fileOf?_eq_some_iff.1 hfile').1] at hne
    exact hne heq
  refine (hdistinct.and (List.pairwise_mergeSort rawNameLE_trans rawNameLE_total _)).imp ?_
  rintro a b ⟨hne, hle⟩
  refine List.not_le.1 fun hle' => hne ?_
  exact RawName.ext (List.le_antisymm (of_decide_eq_true hle) hle')

/-- The definition files of a listing whose names are text are those of the directory. -/
theorem Lists.textFiles_eq (h : t.Lists location listing) :
    (listedFiles extensions listing).filterMap textFile? =
      t.definitionFiles extensions location := by
  refine eq_definitionFiles ?_ fun name content => ?_
  · refine (h.pairwise_listedFiles extensions).filterMap _ ?_
    intro raw raw' hlt file hfile file' hfile'
    obtain rfl := textFile?_eq_some_iff.1 hfile
    obtain rfl := textFile?_eq_some_iff.1 hfile'
    exact RawName.ofText_lt_iff.1 hlt
  · rw [← h.mem_iff, ← RawName.isDefinitionFile_ofText, List.mem_filterMap]
    constructor
    · rintro ⟨raw, hraw, hfile⟩
      obtain rfl := textFile?_eq_some_iff.1 hfile
      exact (mem_listedFiles.1 hraw).symm
    · intro hname
      exact ⟨_, mem_listedFiles.2 hname.symm, textFile?_eq_some_iff.2 rfl⟩

theorem Lists.readListing_eq (h : t.Lists location listing) :
    readListing extensions directory listing =
      collect directory .empty (t.definitionFiles extensions location) := by
  rw [readListing, collectListed_eq fun file hfile => (mem_listedFiles.1 hfile).2, h.textFiles_eq]

/-- The entries of a directory in any order are a listing of it, with any entries among them whose
names are no text. -/
theorem lists_of_perm {strange : List RawEntry} (hdistinct : (strange.map Prod.fst).Nodup)
    (hstrange : ∀ entry ∈ strange, entry.1.text? = none)
    (h : listing.Perm (((t.nodes.entries.filterMap (entryIn location)).map fun entry =>
      (.ofText entry.1, entry.2)) ++ strange)) :
    t.Lists location listing := by
  have hnot : ∀ name node, (.ofText name, node) ∉ strange := by
    intro name node hmem
    have htext := hstrange _ hmem
    rw [RawName.text?_ofText] at htext
    cases htext
  constructor
  · rw [(h.map Prod.fst).nodup_iff, List.map_append, List.map_map, List.nodup_append]
    refine ⟨List.pairwise_map.2 ((distinct_entryIn t location).imp fun hne heq =>
      hne (RawName.ofText_injective heq)), hdistinct, ?_⟩
    rintro _ hmem _ hmem' rfl
    obtain ⟨entry, -, hname⟩ := List.mem_map.1 hmem
    obtain ⟨⟨raw, node⟩, hentry, hraw⟩ := List.mem_map.1 hmem'
    obtain rfl : raw = .ofText entry.1 := hraw.trans hname.symm
    exact hnot entry.1 node hentry
  · intro name node
    rw [h.mem_iff, List.mem_append, or_iff_left (hnot name node), List.mem_map, ← mem_entriesAt,
      entriesAt_eq, List.mem_mergeSort]
    constructor
    · rintro ⟨⟨other, _⟩, hentry, heq⟩
      obtain ⟨hname, rfl⟩ := Prod.mk.inj heq
      exact RawName.ofText_injective hname ▸ hentry
    · exact fun hentry => ⟨_, hentry, rfl⟩

/-! ## Collections -/

theorem outcome_readCollection (hfind : t.find directory = .ok (location, .directory)) :
    (t.readCollection extensions directory).outcome =
      collect directory .empty (t.definitionFiles extensions location) := by
  rw [readCollection, hfind]
  simp only [Logged.outcome_bind, Logged.outcome_ofExcept, Logged.outcome_say,
    Logged.outcome_pure]
  cases collect directory .empty (t.definitionFiles extensions location) <;> rfl

/-- Whatever the order in which a directory is listed, the same comes of it. If each definition
file holds a definition, these are gathered by their stems in the order of the names. If not, the
failure is that of the first file by name that holds none. -/
theorem readCollection_of_listing (hfind : t.find directory = .ok (location, .directory)) :
    let files := t.definitionFiles extensions location
    (∀ listing, t.Lists location listing →
      readListing extensions directory listing =
        (t.readCollection extensions directory).outcome) ∧
    (∀ name content, (name, content) ∈ files ↔ isDefinitionFile extensions name ∧
      t.node? (.named name :: location) = some (.file content)) ∧
    (files.Pairwise fun a b => a.1 < b.1) ∧
    (∀ collected, (t.readCollection extensions directory).outcome = .ok collected ↔
      ∃ pairs, Entries.Lists stem (Defines directory) files pairs ∧
        Entries.Gathers pairs collected.entries) ∧
    ∀ failure, (t.readCollection extensions directory).outcome = .error failure ↔
      files.findSome? (fault? directory) = some failure := by
  intro files
  rw [outcome_readCollection hfind]
  refine ⟨fun listing hlisting => ?_, fun name content => mem_definitionFiles,
    pairwise_definitionFiles t extensions location, fun collected => collect_eq_ok_iff,
    fun failure => ?_⟩
  · rw [hlisting.readListing_eq]
  · rw [← failure?_eq_some_iff, failure?_collect]

/-- A directory with two files of one stem, and with one that is sorted before both. -/
def shelf : FileTree :=
  let work := FileTree.empty "work"
  let work := work.put [.named "work"] "a.yml" (.file "order: 2\n".toUTF8)
  let work := work.put [.named "work"] "a.yaml" (.file "order: 1\n".toUTF8)
  work.put [.named "work"] "a-b.yaml" (.file "order: 3\n".toUTF8)

theorem find_shelf : shelf.find ⟨"."⟩ = .ok ([.named "work"], .directory) := rfl

/-- A file whose name is no text. -/
def strangeFile : RawEntry := (⟨[255, 46, 121, 109, 108]⟩, .file "order: 4\n".toUTF8)

theorem text?_strangeFile : strangeFile.1.text? = none := by decide

/-- The directory as the files came into it, and the other way around. -/
theorem readCollection_of_listing_shelf :
    let listing : List RawEntry := [(.ofText "a.yml", .file "order: 2\n".toUTF8),
      (.ofText "a.yaml", .file "order: 1\n".toUTF8),
      (.ofText "a-b.yaml", .file "order: 3\n".toUTF8), strangeFile]
    shelf.find ⟨"."⟩ = .ok ([.named "work"], .directory) ∧
      shelf.Lists [.named "work"] listing ∧ shelf.Lists [.named "work"] listing.reverse ∧
      readListing ["yaml", "yml"] ⟨"."⟩ listing.reverse =
        readListing ["yaml", "yml"] ⟨"."⟩ listing := by
  intro listing
  have hdistinct : ([strangeFile].map Prod.fst).Nodup := List.nodup_singleton _
  have hstrange : ∀ entry ∈ [strangeFile], entry.1.text? = none :=
    List.forall_mem_singleton.2 text?_strangeFile
  have hlists : shelf.Lists [.named "work"] listing := lists_of_perm hdistinct hstrange (.refl _)
  have hreverse : shelf.Lists [.named "work"] listing.reverse :=
    lists_of_perm hdistinct hstrange (List.reverse_perm listing)
  obtain ⟨hread, -⟩ := readCollection_of_listing find_shelf
  exact ⟨find_shelf, hlists, hreverse, (hread _ hreverse).trans (hread _ hlists).symm⟩

end Pedigree.FileTree
