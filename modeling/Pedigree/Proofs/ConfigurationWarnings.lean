import Pedigree.Proofs.EntryNames
import Pedigree.Proofs.WrittenKeys

/-!
# Warnings about unknown keys

A configuration loads with one warning for each key that has no meaning in its table
(`Configuration.unknownKeys`), in order. On the way a key becomes one text with its section, and the
last dot of this text is taken for the one between the two. So a warning is about its own key if and
only if this key holds no dot : it then names the key and suggests the known key of its table that
is closest, and a key that needs no quotes is found where it is written, if the statements of the
document are plain (`Configuration.warnings_about`). A key in quotes may hold the name of a section
and a dot, and is then taken for a key of this section
(`Configuration.not_forall_describes`).
-/

namespace Pedigree

namespace Text

variable {separator : Char}

theorem splitLast?_of_notMem {text : List Char} (h : separator ∉ text) :
    splitLast? separator text = none := by
  rw [splitLast?, dropWhile_reverse_of_notMem h]

theorem splitLast?_append (front : List Char) {rest : List Char} (h : separator ∉ rest) :
    splitLast? separator (front ++ separator :: rest) = some (front, rest) := by
  rw [splitLast?, takeWhile_reverse_append front h, dropWhile_reverse_append front h]
  simp only [List.reverse_reverse]

end Text

namespace Configuration

open Toml (IsBareKey)

/-! ## Unknown keys -/

/-- A key that has no meaning in its table, which is a section or, with the empty name, the document
itself. -/
structure UnknownKey where
  table : String
  key : String

/-- An unknown key with its section, as one text. -/
def UnknownKey.path (unknown : UnknownKey) : String :=
  if unknown.table = "" then unknown.key else dotted unknown.table unknown.key

/-- The keys that an item shows where a section is expected. -/
def shownKeys : Toml.Item → List String
  | .table _ entries => Entries.keys entries
  | .date _ => [dateKey]
  | _ => []

/-- The keys of a document that have no meaning. -/
def unknownKeys (entries : Toml.Entries) : List UnknownKey :=
  entries.flatMap fun entry =>
    if entry.1 ∈ sectionNames then
      ((shownKeys entry.2).filter (!(knownKeys entry.1).contains ·)).map (UnknownKey.mk entry.1)
    else [⟨"", entry.1⟩]

theorem mem_unknownKeys_iff {entries : Toml.Entries} {unknown : UnknownKey} :
    unknown ∈ unknownKeys entries ↔
      (unknown.table = "" ∧ unknown.key ∈ Entries.keys entries ∧ unknown.key ∉ sectionNames) ∨
        ∃ item, (unknown.table, item) ∈ entries ∧ unknown.table ∈ sectionNames ∧
          unknown.key ∈ shownKeys item ∧ unknown.key ∉ knownKeys unknown.table := by
  rw [unknownKeys, List.mem_flatMap]
  constructor
  · rintro ⟨⟨name, item⟩, hentry, hmem⟩
    split at hmem
    · rename_i hname
      obtain ⟨key, hkey, rfl⟩ := List.mem_map.1 hmem
      rw [List.mem_filter] at hkey
      exact Or.inr ⟨item, hentry, hname, hkey.1, by simpa using hkey.2⟩
    · rename_i hname
      obtain rfl := List.mem_singleton.1 hmem
      exact Or.inl ⟨rfl, List.mem_map_of_mem hentry, hname⟩
  · obtain ⟨table, key⟩ := unknown
    rintro (⟨htable, hkey, hnot⟩ | ⟨item, hentry, htable, hshown, hnot⟩)
    · obtain ⟨⟨name, item⟩, hentry, hname⟩ := List.mem_map.1 hkey
      refine ⟨(name, item), hentry, ?_⟩
      rw [if_neg (hname ▸ hnot)]
      simpa using ⟨htable, hname.symm⟩
    · refine ⟨(table, item), hentry, ?_⟩
      rw [if_pos htable]
      refine List.mem_map.2 ⟨key, List.mem_filter.2 ⟨hshown, ?_⟩, rfl⟩
      simpa using hnot

theorem unknown_of_readSection {known keys : List String} {item : Toml.Item}
    {field : String → Option Toml.Item} (hdate : dateKey ∉ known)
    (h : readSection known item = some (field, keys)) :
    keys = (shownKeys item).filter (!known.contains ·) := by
  unfold readSection at h
  split at h
  · cases h
    rfl
  · cases h
    rfl
  · cases h
    simp [shownKeys, hdate]
  · cases h

variable {c c' : Configuration} {item : Toml.Item}

theorem unknown_of_readDefinitions {keys : List String}
    (h : c.readDefinitions item = some (c', keys)) :
    keys = (shownKeys item).filter (!(knownKeys "definitions").contains ·) := by
  obtain ⟨⟨field, keys'⟩, hsection, h⟩ := Option.bind_eq_some_iff.1 h
  obtain ⟨locale, -, h⟩ := Option.bind_eq_some_iff.1 h
  obtain ⟨extensions, -, h⟩ := Option.bind_eq_some_iff.1 h
  cases h
  exact unknown_of_readSection (by decide) hsection

theorem unknown_of_readOutput {keys : List String} (h : c.readOutput item = some (c', keys)) :
    keys = (shownKeys item).filter (!(knownKeys "output").contains ·) := by
  obtain ⟨⟨field, keys'⟩, hsection, h⟩ := Option.bind_eq_some_iff.1 h
  obtain ⟨directory, -, h⟩ := Option.bind_eq_some_iff.1 h
  obtain ⟨indent, -, h⟩ := Option.bind_eq_some_iff.1 h
  cases h
  exact unknown_of_readSection (by decide) hsection

theorem map_path_mk {name : String} (h : name ≠ "") (keys : List String) :
    (keys.map (UnknownKey.mk name)).map UnknownKey.path = keys.map (dotted name) := by
  rw [List.map_map]
  exact List.map_congr_left fun key _ => if_neg h

/-- Reading the entries lists their unknown keys, each once. -/
theorem unknown_of_readEntries {entries : Toml.Entries} {unknown paths : List String}
    (h : readEntries c unknown entries = some (c', paths)) :
    paths = unknown ++ (unknownKeys entries).map UnknownKey.path := by
  induction entries generalizing c unknown with
  | nil =>
    cases h
    simp [unknownKeys]
  | cons entry rest ih =>
    obtain ⟨name, item⟩ := entry
    rw [readEntries] at h
    rw [unknownKeys, List.flatMap_cons, List.map_append, ← List.append_assoc]
    split at h
    · rename_i hname
      obtain ⟨⟨c₁, keys⟩, hread, h⟩ := Option.bind_eq_some_iff.1 h
      obtain rfl := unknown_of_readDefinitions hread
      rw [hname, if_pos (by simp [sectionNames]), map_path_mk (by simp)]
      rw [hname] at h
      exact ih h
    · split at h
      · rename_i hname
        obtain ⟨⟨c₁, keys⟩, hread, h⟩ := Option.bind_eq_some_iff.1 h
        obtain rfl := unknown_of_readOutput hread
        rw [hname, if_pos (by simp [sectionNames]), map_path_mk (by simp)]
        rw [hname] at h
        exact ih h
      · rename_i hdefinitions houtput
        have hname : name ∉ sectionNames := by
          simp [sectionNames, hdefinitions, houtput]
        rw [if_neg hname]
        exact ih h

/-! ## Suggestions -/

/-- What a suggestion for a key of a table should be : a known key of this table, at most two edits
away and none closer. There is none only if all are further away. -/
def IsSuggestion (table key : String) : Option String → Prop
  | some s => s ∈ knownKeys table ∧ Text.editDistance key.toList s.toList ≤ 2 ∧
      ∀ known ∈ knownKeys table,
        Text.editDistance key.toList s.toList ≤ Text.editDistance key.toList known.toList
  | none => ∀ known ∈ knownKeys table, 2 < Text.editDistance key.toList known.toList

/-- What the search for the closest candidate holds after it has seen some. -/
def IsClosest (word : String) (seen : List String) : Option (Nat × String) → Prop
  | some (least, s) => s ∈ seen ∧ least = Text.editDistance word.toList s.toList ∧
      ∀ other ∈ seen, least ≤ Text.editDistance word.toList other.toList
  | none => seen = []

theorem isClosest_closest {word : String} {seen : List String} {best : Option (Nat × String)}
    (h : IsClosest word seen best) (candidates : List String) :
    IsClosest word (seen ++ candidates) (closest word best candidates) := by
  induction candidates generalizing seen best with
  | nil => rwa [List.append_nil, closest]
  | cons candidate rest ih =>
    rw [List.append_cons]
    cases best with
    | none =>
      have hseen : seen = [] := h
      refine ih ⟨by simp, rfl, fun other hother => ?_⟩
      obtain rfl : other = candidate := by simpa [hseen] using hother
      exact Nat.le_refl _
    | some pair =>
      obtain ⟨least, s⟩ := pair
      obtain ⟨hmem, hleast, hall⟩ := h
      refine ih ?_
      split
      · rename_i hlt
        refine ⟨by simp, rfl, fun other hother => ?_⟩
        rcases List.mem_append.1 hother with hother | hother
        · exact Nat.le_trans (Nat.le_of_lt hlt) (hall other hother)
        · rw [List.mem_singleton.1 hother]
      · rename_i hnot
        refine ⟨List.mem_append_left _ hmem, hleast, fun other hother => ?_⟩
        rcases List.mem_append.1 hother with hother | hother
        · exact hall other hother
        · rw [List.mem_singleton.1 hother]
          exact Nat.le_of_not_lt hnot

/-- What is suggested resembles the key. -/
theorem isSuggestion_suggest (table key : String) :
    IsSuggestion table key (suggest table key) := by
  have hstart : IsClosest key [] none := rfl
  have hseen := isClosest_closest hstart (knownKeys table)
  rw [List.nil_append] at hseen
  unfold suggest
  split
  · rename_i least s hclosest
    rw [hclosest] at hseen
    obtain ⟨hmem, rfl, hall⟩ := hseen
    split
    · rename_i hnear
      exact ⟨hmem, hnear, hall⟩
    · rename_i hfar
      exact fun known hknown => Nat.lt_of_lt_of_le (Nat.lt_of_not_le hfar) (hall known hknown)
  · rename_i hclosest
    rw [hclosest] at hseen
    intro known hknown
    have hnone : knownKeys table = [] := hseen
    rw [hnone] at hknown
    cases hknown

example : suggest "output" "dirs" = some "dir" := by decide

theorem mem_of_suggest {table key s : String} (h : suggest table key = some s) :
    s ∈ knownKeys table := by
  have hsuggestion := isSuggestion_suggest table key
  rw [h] at hsuggestion
  exact hsuggestion.1

/-! ## Sections -/

theorem isBareKey_of_mem_sectionNames {name : String} (h : name ∈ sectionNames) :
    IsBareKey name.toList := by
  have hall : ∀ name ∈ sectionNames, name.toList ≠ [] ∧ name.toList.all Toml.isBare = true := by
    decide
  exact Toml.isBareKey_of_all (hall name h).1 (hall name h).2

/-- No known key of a section is the name of one. -/
theorem notMem_of_mem_knownKeys {name key : String} (h : name ∈ sectionNames)
    (hkey : key ∈ knownKeys name) : key ∉ knownKeys "" := by
  have hall : ∀ name ∈ sectionNames, ∀ key ∈ knownKeys name, key ∉ knownKeys "" := by decide
  exact hall name h key hkey

/-- Only the document and the sections have known keys. -/
theorem knownKeys_eq_nil {name : String} (hname : name ≠ "") (h : name ∉ sectionNames) :
    knownKeys name = [] := by
  simp only [sectionNames, List.mem_cons, List.not_mem_nil, or_false, not_or] at h
  rw [knownKeys, if_neg hname, if_neg h.1, if_neg h.2]

theorem toList_dotted (name key : String) :
    (dotted name key).toList = name.toList ++ '.' :: key.toList := by
  simp [dotted]

theorem dot_notMem_of_isBareKey {key : List Char} (h : IsBareKey key) : '.' ∉ key := fun hdot =>
  absurd (h.bare '.' hdot) (by decide)

/-- A key with a dot is cut at the last one. -/
theorem exists_dotted {key : String} (h : '.' ∈ key.toList) :
    ∃ name rest, key = dotted name rest ∧ '.' ∉ rest.toList := by
  obtain hnot | ⟨name, rest, hrest, hkey⟩ := notMem_or_exists_append '.' key.toList
  · exact absurd h hnot
  · refine ⟨String.ofList name, String.ofList rest, String.toList_inj.1 ?_, by simpa using hrest⟩
    rw [hkey, toList_dotted, String.toList_ofList, String.toList_ofList]

/-! ## Warnings -/

variable {content : String} {file : Path} {unknown : UnknownKey}

/-- A warning takes the last dot for the one behind the section. -/
theorem warn_dotted (name : String) {key : String} (h : '.' ∉ key.toList) :
    warn content file (dotted name key) =
      ⟨key, file, findLine name.toList key.toList 1 [] (Text.split '\n' content.toList),
        suggest name key⟩ := by
  rw [warn, toList_dotted, Text.splitLast?_append name.toList h]
  simp only [Option.getD_some, String.ofList_toList]

/-- A key without dots is warned of as a key of its own table. -/
theorem warn_path (h : '.' ∉ unknown.key.toList) :
    warn content file unknown.path =
      ⟨unknown.key, file, findLine unknown.table.toList unknown.key.toList 1 []
        (Text.split '\n' content.toList), suggest unknown.table unknown.key⟩ := by
  rw [UnknownKey.path]
  split
  · rename_i htable
    rw [warn, Text.splitLast?_of_notMem h, htable]
    simp only [Option.getD_none, String.ofList_toList]
    rfl
  · exact warn_dotted unknown.table h

/-- What a warning should say of a key : its own name, a known key of its own table, and a line on
which it is written there. -/
structure Describes (content : String) (unknown : UnknownKey) (warning : Warning) : Prop where
  key : warning.key = unknown.key
  suggestion : ∀ s, warning.suggestion = some s → s ∈ knownKeys unknown.table
  line : ∀ line, warning.line = some line → ∀ text places,
    Toml.Document.IsReadAs content text places →
      WrittenAt text places line unknown.table unknown.key

/-- What a warning says of a key. -/
structure IsAbout (content : String) (file : Path) (unknown : UnknownKey) (warning : Warning) :
    Prop where
  file : warning.file = file
  key_iff : warning.key = unknown.key ↔ '.' ∉ unknown.key.toList
  /-- A key without dots is compared with the known keys of its own table. -/
  suggestion : '.' ∉ unknown.key.toList → IsSuggestion unknown.table unknown.key warning.suggestion
  /-- A key that begins with the name of a section and a dot is taken for a key of this section. No
  other key is given a suggestion of another table. -/
  suggestion_iff : (∀ s, warning.suggestion = some s → s ∈ knownKeys unknown.table) ↔
    ∀ name ∈ sectionNames, ∀ key, unknown.table = "" → unknown.key = dotted name key →
      '.' ∉ key.toList → suggest name key = none
  /-- A key that needs no quotes is found where it is written, in a document of plain statements. -/
  line : IsBareKey unknown.key.toList → ∀ line, warning.line = some line → ∀ text places,
    Toml.Document.IsReadAs content text places → (∀ place ∈ places, IsPlain place) →
      WrittenAt text places line unknown.table unknown.key

/-- The suggestion for a key that is cut before its last part is one for this part. -/
theorem suggestion_warn_path {name rest : String} (hkey : unknown.key = dotted name rest)
    (hrest : '.' ∉ rest.toList) :
    (warn content file unknown.path).key = rest ∧
      (warn content file unknown.path).suggestion =
        suggest (if unknown.table = "" then name else dotted unknown.table name) rest := by
  rw [UnknownKey.path, hkey]
  split
  · rw [warn_dotted name hrest]
    exact ⟨rfl, rfl⟩
  · have hassoc : dotted unknown.table (dotted name rest) =
        dotted (dotted unknown.table name) rest := by
      simp [dotted, String.append_assoc]
    rw [hassoc, warn_dotted _ hrest]
    exact ⟨rfl, rfl⟩

theorem key_warn_path_iff :
    (warn content file unknown.path).key = unknown.key ↔ '.' ∉ unknown.key.toList := by
  refine ⟨fun h hdot => ?_, fun h => by rw [warn_path h]⟩
  obtain ⟨name, rest, hkey, hrest⟩ := exists_dotted hdot
  rw [(suggestion_warn_path hkey hrest).1] at h
  rw [← h] at hdot
  exact hrest hdot

theorem suggestion_warn_path_iff :
    (∀ s, (warn content file unknown.path).suggestion = some s → s ∈ knownKeys unknown.table) ↔
      ∀ name ∈ sectionNames, ∀ key, unknown.table = "" → unknown.key = dotted name key →
        '.' ∉ key.toList → suggest name key = none := by
  constructor
  · intro h name hname key hempty hkey hrest
    rw [(suggestion_warn_path hkey hrest).2, if_pos hempty, hempty] at h
    rw [Option.eq_none_iff_forall_ne_some]
    exact fun s hs => notMem_of_mem_knownKeys hname (mem_of_suggest hs) (h s hs)
  · intro h s hs
    by_cases hdot : '.' ∈ unknown.key.toList
    · obtain ⟨name, rest, hkey, hrest⟩ := exists_dotted hdot
      rw [(suggestion_warn_path hkey hrest).2] at hs
      have hmem := mem_of_suggest hs
      split at hs
      · rename_i hempty
        rw [if_pos hempty] at hmem
        rw [hempty]
        by_cases hname : name ∈ sectionNames
        · rw [h name hname rest hempty hkey hrest] at hs
          cases hs
        · by_cases hnone : name = ""
          · rwa [hnone] at hmem
          · rw [knownKeys_eq_nil hnone hname] at hmem
            cases hmem
      · -- what stands before the last dot holds one itself, so it is no section
        rename_i hnot
        rw [if_neg hnot, knownKeys_eq_nil] at hmem
        · cases hmem
        · intro hempty
          have hlist := congrArg String.toList hempty
          rw [toList_dotted] at hlist
          simp at hlist
        · intro hsection
          refine dot_notMem_of_isBareKey (isBareKey_of_mem_sectionNames hsection) ?_
          rw [toList_dotted]
          exact List.mem_append_right _ (List.mem_cons_self ..)
    · rw [warn_path hdot] at hs
      exact mem_of_suggest hs

theorem line_warn_path {text : List Char} {places : List Toml.Placed} {line : Nat}
    (htable : unknown.table = "" ∨ unknown.table ∈ sectionNames)
    (hkey : IsBareKey unknown.key.toList)
    (hline : (warn content file unknown.path).line = some line)
    (hread : Toml.Document.IsReadAs content text places)
    (hplain : ∀ place ∈ places, IsPlain place) :
    WrittenAt text places line unknown.table unknown.key := by
  rw [warn_path (dot_notMem_of_isBareKey hkey), findLine_joinLines hread.joined] at hline
  have hopen : [] = unknown.table.toList → Toml.openTable [] [] = tablePath unknown.table := by
    intro hempty
    rw [String.toList_eq_nil_iff.1 hempty.symm]
    rfl
  have hstart : findLine unknown.table.toList unknown.key.toList
      (([] : List Char).count '\n' + 1) [] (Text.split '\n' text) = some line := hline
  exact writtenAt_of_findLine hread.reads hplain
    (htable.imp_right isBareKey_of_mem_sectionNames) hkey hopen hstart

/-- A warning is about the key it is made for. -/
theorem isAbout_warn (content : String) (file : Path)
    (htable : unknown.table = "" ∨ unknown.table ∈ sectionNames) :
    IsAbout content file unknown (warn content file unknown.path) where
  file := rfl
  key_iff := key_warn_path_iff
  suggestion h := by
    rw [warn_path h]
    exact isSuggestion_suggest unknown.table unknown.key
  suggestion_iff := suggestion_warn_path_iff
  line hkey _ hline _ _ hread hplain := line_warn_path htable hkey hline hread hplain

/-- A configuration that loads has one warning for each unknown key, in order. It names the key if
and only if the key holds no dot, suggests a known key of another table if and only if the key
begins with the name of a section and a dot and its last part resembles one, and finds a key that
needs no quotes where it is written, if the statements of the document are plain. -/
theorem warnings_about {content : String} {file : Path} {c : Configuration}
    {warnings : List Warning} (h : parse content file = .ok (c, warnings)) :
    ∃ entries, Toml.Document.read? content = some entries ∧
      (content.toList.head? ≠ some '\ufeff' →
        ∃ text places, Toml.Document.IsReadAs content text places) ∧
      List.Forall₂ (IsAbout content file) (unknownKeys entries) warnings := by
  unfold parse at h
  split at h
  · rename_i c' paths hread
    cases h
    obtain ⟨entries, hentries, hread⟩ := Option.bind_eq_some_iff.1 hread
    refine ⟨entries, hentries, fun hmark => ?_, ?_⟩
    · obtain ⟨text, places, hplaces, -⟩ := Toml.Document.exists_isReadAs hentries hmark
      exact ⟨text, places, hplaces⟩
    · rw [unknown_of_readEntries hread, List.nil_append, List.map_map, List.forall₂_map_right_iff,
        List.forall₂_same]
      intro unknown hunknown
      refine isAbout_warn content file ?_
      rcases mem_unknownKeys_iff.1 hunknown with ⟨htable, -⟩ | ⟨-, -, htable, -⟩
      · exact Or.inl htable
      · exact Or.inr htable
  · cases h

/-- A section with a key that is almost known. -/
def misspelt : String := "[output]\ndirs = 2\n"

/-- The statements of `misspelt`. -/
def misspeltPlaces : List Toml.Placed :=
  [⟨misspelt.toList, .header [] "output", "dirs = 2\n".toList⟩,
    ⟨"dirs = 2\n".toList, .assign [] "dirs" (.integer 2), []⟩]

theorem isReadAs_misspelt : Toml.Document.IsReadAs misspelt misspelt.toList misspeltPlaces :=
  ⟨rfl, .next rfl (by decide) rfl (.next rfl (by decide) rfl (.done rfl))⟩

theorem isPlain_of_mem_misspeltPlaces {place : Toml.Placed} (h : place ∈ misspeltPlaces) :
    IsPlain place := by
  simp only [misspeltPlaces, List.mem_cons, List.not_mem_nil, or_false] at h
  rcases h with rfl | rfl
  · have hnext : Text.nextLines misspelt.toList = "dirs = 2\n".toList := by decide
    refine ⟨fun _ _ _ => by decide, fun _ _ _ h => ?_, ?_⟩
    · cases h
    · rw [hnext]
      exact .none _
  · have hnext : Text.nextLines "dirs = 2\n".toList = [] := by decide
    refine ⟨fun _ _ h => ?_, fun _ _ _ h => ?_, ?_⟩
    · rcases h with h | h <;> cases h
    · cases h
      decide
    · rw [hnext]
      exact .none _

theorem warnings_about_misspelt :
    parse misspelt configurationFile =
        .ok (.default, [⟨"dirs", configurationFile, some 2, some "dir"⟩]) ∧
      IsAbout misspelt configurationFile ⟨"output", "dirs"⟩
        ⟨"dirs", configurationFile, some 2, some "dir"⟩ ∧
      WrittenAt misspelt.toList misspeltPlaces 2 "output" "dirs" := by
  have hparse : parse misspelt configurationFile =
      .ok (.default, [⟨"dirs", configurationFile, some 2, some "dir"⟩]) := rfl
  have hread : Toml.Document.read? misspelt =
      some [("output", .table .header [("dirs", .integer 2)])] := rfl
  obtain ⟨entries, hentries, -, hwarnings⟩ := warnings_about hparse
  obtain rfl := Option.some.inj (hread.symm.trans hentries)
  have habout := (List.forall₂_cons.1 hwarnings).1
  have hbare : IsBareKey "dirs".toList := Toml.isBareKey_of_all (by decide) (by decide)
  exact ⟨hparse, habout, habout.line hbare 2 rfl _ _ isReadAs_misspelt
    fun _ => isPlain_of_mem_misspeltPlaces⟩

-- a comment behind its brackets hides a header, so `foo` seems to stand outside of all tables
example : parse "[output] # indent\nfoo = 1\n[foo]\n" configurationFile =
    .ok (.default, [⟨"foo", configurationFile, none, none⟩,
      ⟨"foo", configurationFile, some 2, none⟩]) := rfl

/-- A key in quotes that holds the name of a section and a dot, and a key of this section. -/
def quoted : String := "\"output.dirs\" = 1\n[output]\ndirs = 2\n"

/-- The warning about a key with a dot names another key, on the line of this one, and suggests a
known key of its table. -/
theorem not_forall_describes :
    ¬ ∀ (content : String) (file : Path) (c : Configuration) (warnings : List Warning)
      (entries : Toml.Entries), parse content file = .ok (c, warnings) →
        Toml.Document.read? content = some entries →
          List.Forall₂ (Describes content) (unknownKeys entries) warnings := by
  intro h
  have hwarnings := h quoted configurationFile .default
    [⟨"dirs", configurationFile, some 3, some "dir"⟩,
      ⟨"dirs", configurationFile, some 3, some "dir"⟩]
    [("output.dirs", .integer 1), ("output", .table .header [("dirs", .integer 2)])] rfl rfl
  have hkey := (List.forall₂_cons.1 hwarnings).1.key
  exact absurd hkey (by decide)

end Configuration

end Pedigree
