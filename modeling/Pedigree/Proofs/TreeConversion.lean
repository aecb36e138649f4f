import Mathlib.Data.List.Induction
import Mathlib.Data.List.Perm.Subperm
import Pedigree.Log
import Pedigree.Yaml.Definition

/-!
# Conversion of trees

What conversion makes of a tree of a YAML document, without the steps that it takes. A conversion
visits keys and numbers in document order, each key before its value and nothing inside of a key
(`Tree.visits`). The first visit with a fault is the failure (`failure?_toValue`). Without a fault
the tree has one value that mirrors it (`toValue_eq_ok_iff`): tags are dropped, scalars stay what
they are, items and entries are converted one by one (`Mirrors`), and the entries of a mapping are
gathered, which keeps of each key text its first place and its last value (`Entries.Gathers`).
-/

namespace Pedigree

/-! ## Plain steps -/

section Failures

variable {ε α β γ : Type}

/-- The failure of a plain computation, if it fails. -/
def failure? : Except ε α → Option ε
  | .ok _ => none
  | .error e => some e

theorem failure?_eq_some_iff {x : Except ε α} {e : ε} : failure? x = some e ↔ x = .error e := by
  cases x <;> simp [failure?]

theorem failure?_eq_none_iff {x : Except ε α} : failure? x = none ↔ ∃ a, x = .ok a := by
  cases x <;> simp [failure?]

theorem failure?_map (f : α → β) (x : Except ε α) : failure? (x.map f) = failure? x := by
  cases x <;> rfl

theorem map_eq_ok_iff {f : α → β} {x : Except ε α} {b : β} :
    x.map f = .ok b ↔ ∃ a, x = .ok a ∧ f a = b := by
  cases x <;> simp [Except.map]

/-- Of two computations that do not depend on each other the first one to fail decides. -/
theorem failure?_bind_bind (f : α → β → γ) (x : Except ε α) (y : Except ε β) :
    failure? (x >>= fun a => y >>= fun b => .ok (f a b)) = (failure? x).or (failure? y) := by
  cases x <;> cases y <;> rfl

end Failures

/-! ## Pairs gathered into an object -/

namespace Entries

variable {κ α : Type} [DecidableEq κ]

/-- The entries that pairs are gathered to : each key once, in the order of first places, with the
value of its last place. -/
structure Gathers (pairs entries : Entries κ α) : Prop where
  keys_eq : keys entries = (keys pairs).eraseDups
  get?_eq : ∀ key, get? key entries = get? key pairs.reverse

variable {pairs entries : Entries κ α}

theorem ofPairs_concat (pairs : Entries κ α) (pair : κ × α) :
    ofPairs (pairs ++ [pair]) = insert pair.1 pair.2 (ofPairs pairs) :=
  List.foldl_append

theorem keys_ofPairs (pairs : Entries κ α) : keys (ofPairs pairs) = (keys pairs).eraseDups := by
  induction pairs using List.reverseRecOn with
  | nil => rfl
  | append_singleton pairs pair ih =>
    have hlast : keys [pair] = [pair.1] := rfl
    rw [ofPairs_concat, keys_insert, ih, keys_append, hlast, List.eraseDups_append]
    by_cases hkey : pair.1 ∈ keys pairs <;> simp [List.removeAll, List.eraseDups_cons, hkey]

theorem get?_ofPairs (key : κ) (pairs : Entries κ α) :
    get? key (ofPairs pairs) = get? key pairs.reverse := by
  induction pairs using List.reverseRecOn with
  | nil => rfl
  | append_singleton pairs pair ih =>
    rw [ofPairs_concat, List.reverse_append, List.reverse_singleton, List.singleton_append,
      get?_cons]
    by_cases hkey : pair.1 = key
    · rw [if_pos hkey, ← hkey, get?_insert_self]
    · rw [if_neg hkey, get?_insert_of_ne (Ne.symm hkey), ih]

theorem nodup_keys_ofPairs (pairs : Entries κ α) : (keys (ofPairs pairs)).Nodup := by
  induction pairs using List.reverseRecOn with
  | nil => exact List.nodup_nil
  | append_singleton pairs pair ih =>
    rw [ofPairs_concat]
    exact nodup_keys_insert _ _ ih

/-- To gather pairs is to insert them one after the other. -/
theorem gathers_iff : Gathers pairs entries ↔ entries = ofPairs pairs := by
  constructor
  · intro h
    refine (ext_get? (nodup_keys_ofPairs pairs) ?_ fun key => ?_).symm
    · rw [keys_ofPairs, h.keys_eq]
    · rw [get?_ofPairs, h.get?_eq]
  · rintro rfl
    exact ⟨keys_ofPairs pairs, fun key => get?_ofPairs key pairs⟩

theorem ofPairs_of_nodup (h : (keys pairs).Nodup) : ofPairs pairs = pairs := by
  induction pairs using List.reverseRecOn with
  | nil => rfl
  | append_singleton pairs pair ih =>
    rw [keys_append, List.nodup_append] at h
    have hnew : pair.1 ∉ keys pairs := fun hmem => h.2.2 _ hmem _ (List.mem_singleton_self _) rfl
    rw [ofPairs_concat, ih h.1, insert_of_not_mem _ hnew]

/-- As many entries are left as there were pairs if and only if no key is repeated. -/
theorem length_ofPairs_eq_iff : (ofPairs pairs).length = pairs.length ↔ (keys pairs).Nodup := by
  constructor
  · intro hlength
    have hsubset : keys (ofPairs pairs) ⊆ keys pairs := by
      intro key hkey
      rwa [keys_ofPairs, List.mem_eraseDups] at hkey
    have hperm : (keys (ofPairs pairs)).Perm (keys pairs) := by
      refine (List.subperm_of_subset (nodup_keys_ofPairs pairs) hsubset).perm_of_length_le ?_
      simp only [keys, List.length_map, hlength, Nat.le_refl]
    exact hperm.nodup_iff.1 (nodup_keys_ofPairs pairs)
  · intro h
    rw [ofPairs_of_nodup h]

end Entries

namespace Yaml.Tree

/-! ## Keys and numbers in document order -/

/-- A tree without the tags around it. -/
def untagged : Tree → Tree
  | .tagged _ tree => untagged tree
  | tree => tree

/-- A key, or a number in the place of a value. -/
inductive Visit where
  | key (key : Tree)
  | number (n : Numeral)

mutual

/-- The keys and numbers of a tree in document order. -/
def visits : Tree → List Visit
  | .null | .bool _ | .string _ => []
  | .number n => [.number n]
  | .sequence items => itemVisits items
  | .mapping entries => entryVisits entries
  | .tagged _ tree => visits tree

/-- The keys and numbers of the items of a sequence. -/
def itemVisits : List Tree → List Visit
  | [] => []
  | item :: rest => visits item ++ itemVisits rest

/-- The keys and numbers of the entries of a mapping, each key before what is in its value. -/
def entryVisits : List (Tree × Tree) → List Visit
  | [] => []
  | (key, item) :: rest => .key key :: (visits item ++ entryVisits rest)

end

/-- What is wrong with a key or a number, if anything is. A key is a scalar other than null once
its tags are dropped, a number is finite. -/
def Visit.fault? (file : Path) : Visit → Option Failure
  | .key tree =>
    match tree.untagged with
    | .null | .sequence _ | .mapping _ => some (.invalidKey file)
    | _ => none
  | .number (.integer _) => none
  | .number (.float x) =>
    if x.isFinite then none
    else some (.invalidYaml file (.unrepresentable (Numeral.float x).text))

/-- The first fault in document order. -/
def firstFault? (file : Path) (tree : Tree) : Option Failure :=
  tree.visits.findSome? (Visit.fault? file)

/-- A key has a fault if it has no text. -/
theorem fault?_key (file : Path) : ∀ key, Visit.fault? file (.key key) =
    if (keyText? key).isNone then some (.invalidKey file) else none
  | .tagged _ key => fault?_key file key
  | .null | .bool _ | .number _ | .string _ | .sequence _ | .mapping _ => rfl

/-! ## The first fault is the failure -/

mutual

theorem failure?_toValue (file : Path) :
    ∀ tree, failure? (toValue file tree) = firstFault? file tree
  | .null | .bool _ | .string _ => rfl
  | .number (.integer n) => by
    rw [toValue]
    rfl
  | .number (.float x) => by
    rw [toValue, Numeral.toNumber?, Number.ofBinary64?, firstFault?, visits,
      List.findSome?_singleton, Visit.fault?]
    by_cases hfinite : x.isFinite = true
    · rw [dif_pos hfinite, if_pos hfinite]
      rfl
    · rw [dif_neg hfinite, if_neg hfinite]
      rfl
  | .sequence items => by
    rw [toValue, failure?_map, failure?_itemsToValues file items]
    rfl
  | .mapping entries => by
    rw [toValue, failure?_map, failure?_entriesToPairs file entries]
    rfl
  | .tagged _ tree => failure?_toValue file tree

theorem failure?_itemsToValues (file : Path) : ∀ items,
    failure? (itemsToValues file items) = (itemVisits items).findSome? (Visit.fault? file)
  | [] => rfl
  | item :: rest => by
    rw [itemVisits, List.findSome?_append, ← failure?_itemsToValues file rest, ← firstFault?,
      ← failure?_toValue file item]
    exact failure?_bind_bind ..

theorem failure?_entriesToPairs (file : Path) : ∀ entries,
    failure? (entriesToPairs file entries) = (entryVisits entries).findSome? (Visit.fault? file)
  | [] => rfl
  | (key, item) :: rest => by
    rw [entryVisits, List.findSome?_cons, fault?_key, entriesToPairs]
    cases keyText? key with
    | none => rfl
    | some text =>
      rw [List.findSome?_append, ← failure?_entriesToPairs file rest, ← firstFault?,
        ← failure?_toValue file item]
      exact failure?_bind_bind ..

end

/-! ## Values that mirror a tree -/

/-- The text of a key. -/
inductive KeyText : Tree → String → Prop
  | string (s : String) : KeyText (.string s) s
  | number (n : Numeral) : KeyText (.number n) n.text
  | bool (b : Bool) : KeyText (.bool b) (if b then "true" else "false")
  | tagged {tag : String} {key : Tree} {text : String} : KeyText key text →
      KeyText (.tagged tag key) text

theorem keyText?_eq_some_iff : ∀ {key : Tree} {text : String},
    keyText? key = some text ↔ KeyText key text
  | .string _, _ => ⟨by rintro ⟨⟩; exact .string _, by rintro ⟨⟩; rfl⟩
  | .number _, _ => ⟨by rintro ⟨⟩; exact .number _, by rintro ⟨⟩; rfl⟩
  | .bool _, _ => ⟨by rintro ⟨⟩; exact .bool _, by rintro ⟨⟩; rfl⟩
  | .tagged _ key, _ => by
    rw [keyText?, keyText?_eq_some_iff]
    exact ⟨.tagged, fun | .tagged h => h⟩
  | .null, _ | .sequence _, _ | .mapping _, _ => ⟨by rintro ⟨⟩, by rintro ⟨⟩⟩

mutual

/-- A value mirrors a tree : without its tags, every scalar the same, items and entries one by one,
and the pairs of a mapping gathered into an object. -/
inductive Mirrors : Tree → Value → Prop
  | null : Mirrors .null .null
  | bool (b : Bool) : Mirrors (.bool b) (.bool b)
  | integer (n : Integer64) : Mirrors (.number (.integer n)) (.number (.integer n))
  | float (x : Binary64) (finite : x.isFinite = true) :
      Mirrors (.number (.float x)) (.number (.float x finite))
  | string (s : String) : Mirrors (.string s) (.string s)
  | sequence {items : List Tree} {values : List Value} : ItemsMirror items values →
      Mirrors (.sequence items) (.sequence values)
  | mapping {entries : List (Tree × Tree)} {pairs object : List (String × Value)} :
      EntriesMirror entries pairs → Entries.Gathers pairs object →
      Mirrors (.mapping entries) (.mapping object)
  | tagged {tag : String} {tree : Tree} {value : Value} : Mirrors tree value →
      Mirrors (.tagged tag tree) value

/-- The values mirror the items of a sequence, one by one. -/
inductive ItemsMirror : List Tree → List Value → Prop
  | nil : ItemsMirror [] []
  | cons {item : Tree} {rest : List Tree} {value : Value} {values : List Value} :
      Mirrors item value → ItemsMirror rest values → ItemsMirror (item :: rest) (value :: values)

/-- The pairs mirror the entries of a mapping, one by one. -/
inductive EntriesMirror : List (Tree × Tree) → List (String × Value) → Prop
  | nil : EntriesMirror [] []
  | cons {key item : Tree} {rest : List (Tree × Tree)} {text : String} {value : Value}
      {pairs : List (String × Value)} : KeyText key text → Mirrors item value →
      EntriesMirror rest pairs → EntriesMirror ((key, item) :: rest) ((text, value) :: pairs)

end

mutual

/-- What a tree is converted to is what mirrors it. -/
theorem toValue_eq_ok_iff (file : Path) : ∀ {tree : Tree} {value : Value},
    toValue file tree = .ok value ↔ Mirrors tree value
  | .null, _ => ⟨by rintro ⟨⟩; exact .null, by rintro ⟨⟩; rfl⟩
  | .bool _, _ => ⟨by rintro ⟨⟩; exact .bool _, by rintro ⟨⟩; rfl⟩
  | .string _, _ => ⟨by rintro ⟨⟩; exact .string _, by rintro ⟨⟩; rfl⟩
  | .number (.integer _), _ => ⟨by rintro ⟨⟩; exact .integer _, by rintro ⟨⟩; rfl⟩
  | .number (.float x), _ => by
    rw [toValue, Numeral.toNumber?, Number.ofBinary64?]
    by_cases hfinite : x.isFinite = true
    · rw [dif_pos hfinite]
      exact ⟨by rintro ⟨⟩; exact .float x hfinite, by rintro ⟨⟩; rfl⟩
    · rw [dif_neg hfinite]
      refine ⟨by rintro ⟨⟩, ?_⟩
      rintro ⟨⟩
      contradiction
  | .sequence items, _ => by
    rw [toValue, map_eq_ok_iff]
    constructor
    · rintro ⟨values, hvalues, rfl⟩
      exact .sequence ((itemsToValues_eq_ok_iff file).1 hvalues)
    · rintro ⟨⟩
      exact ⟨_, (itemsToValues_eq_ok_iff file).2 ‹_›, rfl⟩
  | .mapping entries, _ => by
    rw [toValue, map_eq_ok_iff]
    constructor
    · rintro ⟨pairs, hpairs, rfl⟩
      exact .mapping ((entriesToPairs_eq_ok_iff file).1 hpairs) (Entries.gathers_iff.2 rfl)
    · intro h
      cases h with
      | mapping hentries hgather =>
        rw [Entries.gathers_iff.1 hgather]
        exact ⟨_, (entriesToPairs_eq_ok_iff file).2 hentries, rfl⟩
  | .tagged _ tree, _ => by
    rw [toValue, toValue_eq_ok_iff file]
    exact ⟨.tagged, fun | .tagged h => h⟩

theorem itemsToValues_eq_ok_iff (file : Path) : ∀ {items : List Tree} {values : List Value},
    itemsToValues file items = .ok values ↔ ItemsMirror items values
  | [], _ => ⟨by rintro ⟨⟩; exact .nil, by rintro ⟨⟩; rfl⟩
  | item :: rest, _ => by
    rw [itemsToValues]
    constructor
    · intro h
      obtain ⟨value, hvalue, h⟩ := bind_eq_ok_iff.1 h
      obtain ⟨values, hvalues, h⟩ := bind_eq_ok_iff.1 h
      cases h
      exact .cons ((toValue_eq_ok_iff file).1 hvalue) ((itemsToValues_eq_ok_iff file).1 hvalues)
    · intro h
      cases h with
      | cons hitem hrest =>
        rw [(toValue_eq_ok_iff file).2 hitem, (itemsToValues_eq_ok_iff file).2 hrest]
        rfl

theorem entriesToPairs_eq_ok_iff (file : Path) : ∀ {entries : List (Tree × Tree)}
    {pairs : List (String × Value)},
    entriesToPairs file entries = .ok pairs ↔ EntriesMirror entries pairs
  | [], _ => ⟨by rintro ⟨⟩; exact .nil, by rintro ⟨⟩; rfl⟩
  | (key, item) :: rest, _ => by
    rw [entriesToPairs]
    constructor
    · intro h
      split at h
      · cases h
      · rename_i text htext
        obtain ⟨value, hvalue, h⟩ := bind_eq_ok_iff.1 h
        obtain ⟨pairs, hpairs, h⟩ := bind_eq_ok_iff.1 h
        cases h
        exact .cons (keyText?_eq_some_iff.1 htext) ((toValue_eq_ok_iff file).1 hvalue)
          ((entriesToPairs_eq_ok_iff file).1 hpairs)
    · intro h
      cases h with
      | cons hkey hitem hrest =>
        rw [keyText?_eq_some_iff.2 hkey]
        simp only [(toValue_eq_ok_iff file).2 hitem, (entriesToPairs_eq_ok_iff file).2 hrest]
        rfl

end

/-- A tree with a fault in a key or a number is refused for the first one in document order. Every
other tree is converted to the value that mirrors it. -/
theorem toValue_outcome (file : Path) (tree : Tree) :
    ((∃ failure, toValue file tree = .error failure) ↔
      ∃ visit ∈ tree.visits, (Visit.fault? file visit).isSome) ∧
    (∀ failure, toValue file tree = .error failure ↔ firstFault? file tree = some failure) ∧
    ∀ value, toValue file tree = .ok value ↔ Mirrors tree value := by
  have herror : ∀ failure, toValue file tree = .error failure ↔
      firstFault? file tree = some failure := fun failure => by
    rw [← failure?_toValue, failure?_eq_some_iff]
  refine ⟨?_, herror, fun value => toValue_eq_ok_iff file⟩
  simp only [herror, ← Option.isSome_iff_exists, firstFault?, List.findSome?_isSome_iff]

/-- An infinity is a key but no value, and is refused before a key that comes after it. -/
example (file : Path) : toValue file (.mapping [(.number (.float (.infinity false)),
    .sequence [.tagged "limit" (.number (.float (.infinity true)))]), (.null, .null)]) =
    .error (.invalidYaml file (.unrepresentable "-.inf")) :=
  rfl

end Yaml.Tree

end Pedigree
