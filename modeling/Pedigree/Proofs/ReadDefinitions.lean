import Pedigree.DefinitionDirectory
import Pedigree.Proofs.Layers

/-!
# Definitions that are read

Definitions that come from files are well formed : where two keys of a mapping have the
same text, the first place and the last value are kept (`Tree.wellFormed_toValue`). This
carries over from one file (`Definition.wellFormed_parse`) to whole scopes
(`FileTree.wellFormed_loadDirectory`), so all that is proved of well formed scopes holds
of what directories hold.
-/

namespace Pedigree

/-- Every mapping inside the definitions of a collection has distinct keys. -/
def Collection.WellFormed (collection : Collection) : Prop :=
  ∀ entry ∈ collection.entries, (Value.mapping entry.2).WellFormed

/-- Every mapping inside the definitions of a scope has distinct keys. -/
structure Scope.WellFormed (scope : Scope) : Prop where
  bases : scope.bases.WellFormed
  items : scope.items.WellFormed

/-- A mapping stays well formed when a well formed value is inserted. -/
theorem Value.WellFormed.insert {entries : List (String × Value)}
    (h : (Value.mapping entries).WellFormed) (key : String) {value : Value}
    (hvalue : value.WellFormed) :
    (Value.mapping (Entries.insert key value entries)).WellFormed := by
  rw [wellFormed_mapping_iff] at h
  refine .mapping (Entries.nodup_keys_insert _ _ h.1) fun entry hentry => ?_
  rcases Entries.eq_or_mem_of_mem_insert hentry with rfl | hentry
  · exact hvalue
  · exact h.2 entry hentry

/-- Pairs that are inserted one by one give a mapping with distinct keys. -/
theorem Value.wellFormed_ofPairs {pairs : List (String × Value)}
    (h : ∀ pair ∈ pairs, pair.2.WellFormed) :
    (Value.mapping (Entries.ofPairs pairs)).WellFormed := by
  suffices hfold : ∀ entries, (Value.mapping entries).WellFormed →
      (Value.mapping (pairs.foldl (fun entries pair => Entries.insert pair.1 pair.2 entries)
        entries)).WellFormed from
    hfold [] (by simp)
  induction pairs with
  | nil => exact fun entries hentries => hentries
  | cons pair rest ih =>
    intro entries hentries
    exact ih (fun other hother => h other (List.mem_cons_of_mem _ hother)) _
      (hentries.insert _ (h pair (List.mem_cons_self ..)))

/-! ## One file -/

namespace Yaml.Tree

mutual

theorem wellFormed_toValue (file : Path) : ∀ (tree : Tree) {value : Value},
    toValue file tree = .ok value → value.WellFormed
  | .null, _, h => by
    cases h
    exact .scalar rfl
  | .bool b, _, h => by
    cases h
    exact .scalar rfl
  | .number n, _, h => by
    rw [toValue] at h
    split at h
    · cases h
      exact .scalar rfl
    · cases h
  | .string s, _, h => by
    cases h
    exact .scalar rfl
  | .sequence items, _, h => by
    rw [toValue] at h
    cases hitems : itemsToValues file items with
    | error failure =>
      rw [hitems] at h
      cases h
    | ok values =>
      rw [hitems] at h
      cases h
      exact .sequence (wellFormed_itemsToValues file items hitems)
  | .mapping entries, _, h => by
    rw [toValue] at h
    cases hpairs : entriesToPairs file entries with
    | error failure =>
      rw [hpairs] at h
      cases h
    | ok pairs =>
      rw [hpairs] at h
      cases h
      exact Value.wellFormed_ofPairs (wellFormed_entriesToPairs file entries hpairs)
  | .tagged _ tree, _, h => by
    rw [toValue] at h
    exact wellFormed_toValue file tree h

theorem wellFormed_itemsToValues (file : Path) : ∀ (items : List Tree) {values : List Value},
    itemsToValues file items = .ok values → ∀ value ∈ values, value.WellFormed
  | [], _, h => by
    cases h
    simp
  | item :: rest, _, h => by
    rw [itemsToValues] at h
    obtain ⟨value, hvalue, h⟩ := bind_eq_ok_iff.1 h
    obtain ⟨values, hvalues, h⟩ := bind_eq_ok_iff.1 h
    cases h
    rw [List.forall_mem_cons]
    exact ⟨wellFormed_toValue file item hvalue, wellFormed_itemsToValues file rest hvalues⟩

theorem wellFormed_entriesToPairs (file : Path) : ∀ (entries : List (Tree × Tree))
    {pairs : List (String × Value)}, entriesToPairs file entries = .ok pairs →
      ∀ pair ∈ pairs, pair.2.WellFormed
  | [], _, h => by
    cases h
    simp
  | (key, item) :: rest, _, h => by
    rw [entriesToPairs] at h
    split at h
    · cases h
    · obtain ⟨value, hvalue, h⟩ := bind_eq_ok_iff.1 h
      obtain ⟨pairs, hpairs, h⟩ := bind_eq_ok_iff.1 h
      cases h
      rw [List.forall_mem_cons]
      exact ⟨wellFormed_toValue file item hvalue, wellFormed_entriesToPairs file rest hpairs⟩

end

end Yaml.Tree

theorem Definition.wellFormed_parse {content : String} {file : Path} {definition : Definition}
    (h : parse content file = .ok definition) : (Value.mapping definition).WellFormed := by
  unfold parse at h
  split at h
  · cases h
    simp
  · split at h
    · cases h
    · rename_i tree _
      obtain ⟨value, hvalue, h⟩ := bind_eq_ok_iff.1 h
      have hformed := tree.wellFormed_toValue file hvalue
      cases value with
      | null =>
        cases h
        simp
      | mapping entries =>
        cases h
        exact hformed
      | _ => cases h

/-! ## Directories -/

theorem Collection.WellFormed.insert {collection : Collection} (h : collection.WellFormed)
    (name : String) {definition : Definition}
    (hdefinition : (Value.mapping definition).WellFormed) :
    Collection.WellFormed (collection.insert name definition) := by
  intro entry hentry
  rcases Entries.eq_or_mem_of_mem_insert hentry with rfl | hentry
  · exact hdefinition
  · exact h entry hentry

namespace FileTree

theorem wellFormed_parseFile {file : Path} {content : ByteArray} {definition : Definition}
    (h : parseFile file content = .ok definition) : (Value.mapping definition).WellFormed := by
  unfold parseFile at h
  split at h
  · exact Definition.wellFormed_parse h
  · cases h

theorem wellFormed_collect {directory : Path} {files : List (String × ByteArray)}
    {read collection : Collection} (hread : read.WellFormed)
    (h : collect directory read files = .ok collection) : collection.WellFormed := by
  induction files generalizing read with
  | nil =>
    cases h
    exact hread
  | cons file rest ih =>
    obtain ⟨name, content⟩ := file
    rw [collect] at h
    obtain ⟨definition, hdefinition, h⟩ := bind_eq_ok_iff.1 h
    exact ih (hread.insert _ (wellFormed_parseFile hdefinition)) h

variable {t : FileTree} {extensions : List String} {directory : Path}

theorem wellFormed_readCollection {collection : Collection}
    (h : (t.readCollection extensions directory).outcome = .ok collection) :
    collection.WellFormed := by
  unfold readCollection at h
  split at h
  · obtain ⟨read, hread, h⟩ := Logged.bind_eq_ok_iff.1 h
    obtain ⟨_, -, h⟩ := Logged.bind_eq_ok_iff.1 h
    cases h
    exact wellFormed_collect (fun entry hentry => by simp [OrderedMap.empty] at hentry) hread
  · cases h

/-- The scopes that directories hold are well formed. -/
theorem wellFormed_loadDirectory {scope : Scope}
    (h : (t.loadDirectory extensions directory).outcome = .ok scope) : scope.WellFormed := by
  unfold loadDirectory at h
  obtain ⟨items, hitems, h⟩ := Logged.bind_eq_ok_iff.1 h
  split at h
  · cases h
    exact ⟨fun entry hentry => by simp [OrderedMap.empty] at hentry,
      wellFormed_readCollection hitems⟩
  · obtain ⟨bases, hbases, h⟩ := Logged.bind_eq_ok_iff.1 h
    cases h
    exact ⟨wellFormed_readCollection hbases, wellFormed_readCollection hitems⟩

end FileTree

end Pedigree
