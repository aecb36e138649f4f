import Pedigree.Proofs.JsonTokens
import Pedigree.Proofs.LoadedTrees
import Pedigree.Proofs.TreeConversion

/-!
# Texts of keys

An object knows its members by text. A mapping keeps its entries if it becomes an object with one
member for each of them (`Tree.KeepsEntries`). In a tree that is converted, these are exactly the
mappings without two keys of one text (`Tree.toValue_keepsEntries_iff`).

Documents that are read have different trees for keys. Strings that differ have different texts,
and so have truth values and integers, so a document with keys of these is converted without loss
(`Tree.keepsEntries_of_read?`). But a number and the string that it is written as are different
trees of one text, and of these entries one is lost (`Tree.not_forall_keepsEntries`).
-/

namespace Pedigree

namespace Yaml.Tree

/-! ## Mappings that keep their entries -/

/-- A mapping becomes an object with as many members as it has entries, in the same order, each
with the text of the entry's key and the conversion of the entry's own value. -/
def KeepsEntries (file : Path) (entries : List (Tree × Tree)) : Prop :=
  ∃ members, toValue file (.mapping entries) = .ok (.mapping members) ∧
    List.Forall₂ (fun entry member => KeyText entry.1 member.1 ∧
      toValue file entry.2 = .ok member.2) entries members

/-- The texts of the keys of a mapping. -/
def keyTexts (entries : List (Tree × Tree)) : List (Option String) :=
  entries.map fun entry => keyText? entry.1

variable {file : Path} {entries : List (Tree × Tree)} {pairs : List (String × Value)}

theorem keyTexts_eq (h : List.Forall₂ (fun entry pair => KeyText entry.1 pair.1 ∧
    toValue file entry.2 = .ok pair.2) entries pairs) :
    keyTexts entries = (Entries.keys pairs).map some := by
  induction h with
  | nil => rfl
  | cons hhead _ ih => exact congrArg₂ List.cons (keyText?_eq_some_iff.2 hhead.1) ih

theorem nodup_keyTexts_iff (h : List.Forall₂ (fun entry pair => KeyText entry.1 pair.1 ∧
    toValue file entry.2 = .ok pair.2) entries pairs) :
    (keyTexts entries).Nodup ↔ (Entries.keys pairs).Nodup := by
  simp only [keyTexts_eq h, List.Nodup, List.pairwise_map, ne_eq, Option.some.injEq]

theorem EntriesMirror.forall₂ (file : Path) : ∀ {entries : List (Tree × Tree)}
    {pairs : List (String × Value)}, EntriesMirror entries pairs →
    List.Forall₂ (fun entry pair => KeyText entry.1 pair.1 ∧
      toValue file entry.2 = .ok pair.2) entries pairs
  | [], _, .nil => .nil
  | _ :: _, _, .cons hkey hitem hrest =>
    .cons ⟨hkey, (toValue_eq_ok_iff file).2 hitem⟩ (hrest.forall₂ file)

/-- One mapping keeps its entries if their keys have different texts. If it has two keys of one
text, it becomes an object with fewer members. -/
theorem EntriesMirror.keepsEntries_iff (file : Path) (h : EntriesMirror entries pairs) :
    KeepsEntries file entries ↔ (keyTexts entries).Nodup := by
  have hpairs := h.forall₂ file
  have hvalue : toValue file (.mapping entries) = .ok (.mapping (Entries.ofPairs pairs)) :=
    (toValue_eq_ok_iff file).2 (.mapping h (Entries.gathers_iff.2 rfl))
  constructor
  · rintro ⟨members, hmembers, hkept⟩
    rw [hvalue] at hmembers
    cases hmembers
    exact (nodup_keyTexts_iff hkept).2 (Entries.nodup_keys_ofPairs pairs)
  · intro hnodup
    rw [Entries.ofPairs_of_nodup ((nodup_keyTexts_iff hpairs).1 hnodup)] at hvalue
    exact ⟨pairs, hvalue, hpairs⟩

/-! ## All mappings of a tree -/

mutual

/-- In a tree that is converted every mapping is. -/
theorem Mirrors.exists_pairs : ∀ {tree : Tree} {value : Value}, Mirrors tree value →
    ∀ entries ∈ tree.mappings, ∃ pairs, EntriesMirror entries pairs
  | .null, _, .null | .bool _, _, .bool _ | .string _, _, .string _ => List.forall_mem_nil _
  | .number _, _, .integer _ | .number _, _, .float _ _ => List.forall_mem_nil _
  | .sequence _, _, .sequence hitems => hitems.exists_pairs
  | .mapping _, _, .mapping hentries _ =>
    List.forall_mem_cons.2 ⟨⟨_, hentries⟩, hentries.exists_pairs⟩
  | .tagged _ _, _, .tagged h => h.exists_pairs

theorem ItemsMirror.exists_pairs : ∀ {items : List Tree} {values : List Value},
    ItemsMirror items values →
    ∀ entries ∈ itemMappings items, ∃ pairs, EntriesMirror entries pairs
  | [], _, .nil => List.forall_mem_nil _
  | _ :: _, _, .cons hitem hrest =>
    List.forall_mem_append.2 ⟨hitem.exists_pairs, hrest.exists_pairs⟩

theorem EntriesMirror.exists_pairs : ∀ {entries : List (Tree × Tree)}
    {pairs : List (String × Value)}, EntriesMirror entries pairs →
    ∀ inside ∈ entryMappings entries, ∃ pairs, EntriesMirror inside pairs
  | [], _, .nil => List.forall_mem_nil _
  | _ :: _, _, .cons _ hitem hrest =>
    List.forall_mem_append.2 ⟨hitem.exists_pairs, hrest.exists_pairs⟩

end

variable {tree : Tree} {value : Value}

theorem Mirrors.keepsEntries_iff (file : Path) (h : Mirrors tree value)
    (hentries : entries ∈ tree.mappings) :
    KeepsEntries file entries ↔ (keyTexts entries).Nodup := by
  obtain ⟨pairs, hpairs⟩ := h.exists_pairs entries hentries
  exact hpairs.keepsEntries_iff file

/-- In a tree that is converted, a mapping keeps its entries if and only if no two of its keys have
the same text. -/
theorem toValue_keepsEntries_iff (h : toValue file tree = .ok value) :
    ∀ entries ∈ tree.mappings, (KeepsEntries file entries ↔ (keyTexts entries).Nodup) :=
  fun _ hentries => ((toValue_eq_ok_iff file).1 h).keepsEntries_iff file hentries

/-- Codes with a number and a truth value for keys. -/
def codes : List (Tree × Tree) :=
  [(.number (.integer ⟨1, by decide⟩), .string "one"), (.bool true, .string "yes")]

/-- Codes with a number and the string that it is written as for keys. -/
def sharedCodes : List (Tree × Tree) :=
  [(.number (.integer ⟨1, by decide⟩), .string "one"), (.string "1", .string "two")]

theorem toValue_keepsEntries_codes :
    toValue ⟨"objects/codes.yaml"⟩ (.sequence [.mapping codes, .mapping sharedCodes]) =
      .ok (.sequence [.mapping [("1", .string "one"), ("true", .string "yes")],
        .mapping [("1", .string "two")]]) ∧
    KeepsEntries ⟨"objects/codes.yaml"⟩ codes ∧
    ¬KeepsEntries ⟨"objects/codes.yaml"⟩ sharedCodes := by
  have hvalue : toValue ⟨"objects/codes.yaml"⟩
      (.sequence [.mapping codes, .mapping sharedCodes]) =
      .ok (.sequence [.mapping [("1", .string "one"), ("true", .string "yes")],
        .mapping [("1", .string "two")]]) := rfl
  have hkeeps := toValue_keepsEntries_iff hvalue
  refine ⟨hvalue, (hkeeps codes (List.mem_cons_self ..)).2 (by decide), fun hshared => ?_⟩
  have hnodup := (hkeeps sharedCodes (List.mem_cons_of_mem _ (List.mem_cons_self ..))).1 hshared
  revert hnodup
  decide

/-- In every mapping the keys have different texts. -/
def DistinctTexts (tree : Tree) : Prop := ∀ entries ∈ tree.mappings, (keyTexts entries).Nodup

instance (tree : Tree) : Decidable tree.DistinctTexts :=
  inferInstanceAs (Decidable (∀ entries ∈ tree.mappings, (keyTexts entries).Nodup))

/-! ## Keys that differ in text -/

/-- A string. -/
def isString : Tree → Bool
  | .string _ => true
  | _ => false

/-- A truth value or an integer. -/
def isLiteral : Tree → Bool
  | .bool _ | .number (.integer _) => true
  | _ => false

/-- In every mapping the keys are strings, or are truth values and integers. -/
def PlainKeys (tree : Tree) : Prop :=
  ∀ entries ∈ tree.mappings, (∀ entry ∈ entries, entry.1.isString) ∨
    ∀ entry ∈ entries, entry.1.isLiteral

/-- No integer is written like a truth value. -/
theorem text_integer_ne (n : Integer64) (b : Bool) :
    (Numeral.integer n).text ≠ if b then "true" else "false" := by
  intro h
  have hread : Json.number? (Numeral.integer n).text.toList = some (.integer n) :=
    Json.number?_text n
  rw [h] at hread
  cases b <;> cases hread

theorem same_of_isString {a b : Tree} (ha : a.isString) (hb : b.isString)
    (h : keyText? a = keyText? b) : a.same b = true := by
  cases a <;> cases ha
  cases b <;> cases hb
  simpa [same, keyText?] using h

theorem same_of_isLiteral : ∀ {a b : Tree}, a.isLiteral → b.isLiteral →
    keyText? a = keyText? b → a.same b = true
  | .bool a, .bool b, _, _, h => by
    revert h
    cases a <;> cases b <;> decide
  | .bool a, .number (.integer n), _, _, h =>
    absurd (Option.some.inj h).symm (text_integer_ne n a)
  | .number (.integer m), .bool b, _, _, h =>
    absurd (Option.some.inj h) (text_integer_ne m b)
  | .number (.integer m), .number (.integer n), _, _, h => by
    have htext : (Number.integer m).text = (Number.integer n).text := Option.some.inj h
    rw [Number.integer_inj htext]
    simp [same, Numeral.same]

/-- Keys that are different trees have different texts if they are plain. -/
theorem distinctTexts_of_plainKeys (hdistinct : tree.DistinctKeys) (hplain : tree.PlainKeys) :
    tree.DistinctTexts := by
  intro entries hentries
  rw [keyTexts, List.Nodup, List.pairwise_map]
  refine (hdistinct entries hentries).imp_of_mem fun {earlier later} hearlier hlater hne htext => ?_
  have hsame : earlier.1.same later.1 = true := by
    rcases hplain entries hentries with hstring | hliteral
    · exact same_of_isString (hstring _ hearlier) (hstring _ hlater) htext
    · exact same_of_isLiteral (hliteral _ hearlier) (hliteral _ hlater) htext
  rw [hne] at hsame
  cases hsame

/-- A document with plain keys is converted without loss. -/
theorem keepsEntries_of_read? {text : String} (hread : read? text = some tree)
    (hplain : tree.PlainKeys) (h : toValue file tree = .ok value) :
    ∀ entries ∈ tree.mappings, KeepsEntries file entries := fun entries hentries =>
  (((toValue_eq_ok_iff file).1 h).keepsEntries_iff file hentries).2
    (distinctTexts_of_plainKeys (distinctKeys_of_read? hread) hplain entries hentries)

/-! ## Keys of one text -/

/-- A document with a number and the string that it is written as for keys of one mapping. -/
def spelledTwice : String := "codes:\n  1: one\n  '1': two\n"

theorem exists_read?_spelledTwice : ∃ tree, read? spelledTwice = some tree ∧
    (∃ value, toValue ⟨"objects/codes.yaml"⟩ tree = .ok value) ∧ ¬tree.DistinctTexts := by
  have hread : (read? spelledTwice).any (fun tree =>
      (failure? (toValue ⟨"objects/codes.yaml"⟩ tree)).isNone && !decide tree.DistinctTexts) := by
    decide +kernel
  obtain ⟨tree, htree, hboth⟩ := (Option.any_eq_true ..).1 hread
  obtain ⟨hvalue, htexts⟩ := (Bool.and_eq_true ..).mp hboth
  refine ⟨tree, htree, failure?_eq_none_iff.1 (Option.isNone_iff_eq_none.1 hvalue), ?_⟩
  simpa using htexts

/-- Not in every document that is read and converted the mappings keep their entries. -/
theorem not_forall_keepsEntries :
    ¬ ∀ (text : String) (tree : Tree) (file : Path) (value : Value), read? text = some tree →
      toValue file tree = .ok value → ∀ entries ∈ tree.mappings, KeepsEntries file entries := by
  intro h
  obtain ⟨tree, hread, ⟨value, hvalue⟩, htexts⟩ := exists_read?_spelledTwice
  refine htexts fun entries hentries => ?_
  exact (((toValue_eq_ok_iff _).1 hvalue).keepsEntries_iff _ hentries).1
    (h spelledTwice tree _ value hread hvalue entries hentries)

end Yaml.Tree

end Pedigree
