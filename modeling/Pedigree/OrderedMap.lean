/-!
# Maps in insertion order

`Entries κ α` is a list of key and value pairs. `Entries.get?` finds the first
entry of a key, and `Entries.insert` replaces the value at that place or appends
a new entry, so a key keeps the position of its first insertion. `OrderedMap`
adds the proof that no key occurs twice. Mappings inside a value are plain
entries, collections of definitions are ordered maps.

`get?_insert_self` and `get?_insert_of_ne` say what a look-up finds after an
insertion, `keys_insert` where the key stands.
-/

namespace Pedigree

/-- Key and value pairs in order. -/
abbrev Entries (κ α : Type) := List (κ × α)

namespace Entries

variable {κ α β : Type} [DecidableEq κ]

/-- The keys in order. -/
def keys (entries : Entries κ α) : List κ := entries.map Prod.fst

/-- The value of the first entry with this key. -/
def get? (key : κ) : Entries κ α → Option α
  | [] => none
  | (k, v) :: rest => if k = key then some v else get? key rest

/-- Replaces the value of the first entry with this key, or appends an entry. -/
def insert (key : κ) (value : α) : Entries κ α → Entries κ α
  | [] => [(key, value)]
  | (k, v) :: rest => if k = key then (key, value) :: rest else (k, v) :: insert key value rest

/-- Drops the first entry with this key. -/
def erase (key : κ) : Entries κ α → Entries κ α
  | [] => []
  | (k, v) :: rest => if k = key then rest else (k, v) :: erase key rest

/-- Inserts pairs one after the other, so a repeated key has its first place and its last value. -/
def ofPairs (pairs : List (κ × α)) : Entries κ α :=
  pairs.foldl (fun entries pair => insert pair.1 pair.2 entries) []

/-- Whether some entry has this key. -/
def contains (key : κ) (entries : Entries κ α) : Bool := (get? key entries).isSome

omit [DecidableEq κ] in
@[simp] theorem keys_nil : keys ([] : Entries κ α) = [] := rfl

omit [DecidableEq κ] in
@[simp] theorem keys_cons (k : κ) (v : α) (rest : Entries κ α) :
    keys ((k, v) :: rest) = k :: keys rest := rfl

omit [DecidableEq κ] in
@[simp] theorem keys_append (entries more : Entries κ α) :
    keys (entries ++ more) = keys entries ++ keys more :=
  List.map_append

@[simp] theorem get?_nil (key : κ) : get? key ([] : Entries κ α) = none := rfl

theorem get?_cons (key k : κ) (v : α) (rest : Entries κ α) :
    get? key ((k, v) :: rest) = if k = key then some v else get? key rest := rfl

theorem get?_eq_none_iff {key : κ} {entries : Entries κ α} :
    get? key entries = none ↔ key ∉ keys entries := by
  induction entries with
  | nil => simp
  | cons entry rest ih =>
    obtain ⟨k, v⟩ := entry
    rw [get?_cons]
    by_cases h : k = key
    · simp [h]
    · simp [h, ih, Ne.symm h]

theorem mem_of_get? {key : κ} {value : α} {entries : Entries κ α}
    (h : get? key entries = some value) : (key, value) ∈ entries := by
  induction entries with
  | nil => simp at h
  | cons entry rest ih =>
    obtain ⟨k, v⟩ := entry
    rw [get?_cons] at h
    split at h
    · rename_i hk
      cases h
      simp [hk]
    · exact List.mem_cons_of_mem _ (ih h)

theorem get?_of_mem {key : κ} {value : α} {entries : Entries κ α}
    (hd : (keys entries).Nodup) (h : (key, value) ∈ entries) : get? key entries = some value := by
  induction entries with
  | nil => simp at h
  | cons entry rest ih =>
    obtain ⟨k, v⟩ := entry
    rw [keys_cons, List.nodup_cons] at hd
    rw [get?_cons]
    rcases List.mem_cons.1 h with h | h
    · cases h
      simp
    · have hne : k ≠ key := by
        rintro rfl
        exact hd.1 (List.mem_map_of_mem h)
      rw [if_neg hne]
      exact ih hd.2 h

/-- Entries are known by their keys in order and by the value of each key. -/
theorem ext_get? {entries other : Entries κ α} (hd : (keys entries).Nodup)
    (hkeys : keys entries = keys other) (hget : ∀ key, get? key entries = get? key other) :
    entries = other := by
  induction entries generalizing other with
  | nil => exact (List.map_eq_nil_iff.1 hkeys.symm).symm
  | cons entry rest ih =>
    obtain ⟨k, v⟩ := entry
    obtain _ | ⟨⟨k', v'⟩, rest'⟩ := other
    · cases hkeys
    · obtain ⟨rfl, hrest⟩ : k = k' ∧ keys rest = keys rest' := List.cons.inj hkeys
      rw [keys_cons, List.nodup_cons] at hd
      have hvalue : v = v' := by simpa [get?_cons] using hget k
      rw [hvalue, ih hd.2 hrest fun key => ?_]
      by_cases hkey : k = key
      · rw [← hkey, get?_eq_none_iff.2 hd.1, get?_eq_none_iff.2 (hrest ▸ hd.1)]
      · simpa [get?_cons, hkey] using hget key

theorem contains_iff {key : κ} {entries : Entries κ α} :
    contains key entries = true ↔ key ∈ keys entries := by
  have hnone : get? key entries = none ↔ key ∉ keys entries := get?_eq_none_iff
  cases h : get? key entries <;> simp_all [contains]

@[simp] theorem get?_insert_self (key : κ) (value : α) (entries : Entries κ α) :
    get? key (insert key value entries) = some value := by
  induction entries with
  | nil => simp [insert, get?]
  | cons entry rest ih =>
    obtain ⟨k, v⟩ := entry
    by_cases h : k = key <;> simp [insert, get?, h, ih]

theorem get?_insert_of_ne {key other : κ} (h : other ≠ key) (value : α) (entries : Entries κ α) :
    get? other (insert key value entries) = get? other entries := by
  induction entries with
  | nil => simp [insert, get?, Ne.symm h]
  | cons entry rest ih =>
    obtain ⟨k, v⟩ := entry
    by_cases hk : k = key
    · subst hk
      simp [insert, get?, Ne.symm h]
    · simp only [insert, hk, if_false, get?_cons]
      by_cases ho : k = other <;> simp [ho, ih]

/-- Of two values for the same key the second one stays. -/
theorem insert_insert (key : κ) (value value' : α) (entries : Entries κ α) :
    insert key value' (insert key value entries) = insert key value' entries := by
  induction entries with
  | nil => simp [insert]
  | cons entry rest ih =>
    obtain ⟨k, v⟩ := entry
    by_cases h : k = key <;> simp [insert, h, ih]

/-- An insertion keeps the order of the keys and puts a new key last. -/
theorem keys_insert (key : κ) (value : α) (entries : Entries κ α) :
    keys (insert key value entries) =
      if key ∈ keys entries then keys entries else keys entries ++ [key] := by
  induction entries with
  | nil => simp [insert]
  | cons entry rest ih =>
    obtain ⟨k, v⟩ := entry
    by_cases h : k = key
    · simp [insert, h]
    · by_cases hr : key ∈ keys rest <;> simp [insert, h, ih, hr, Ne.symm h]

theorem insert_of_not_mem {key : κ} (value : α) {entries : Entries κ α} (h : key ∉ keys entries) :
    insert key value entries = entries ++ [(key, value)] := by
  induction entries with
  | nil => rfl
  | cons entry rest ih =>
    obtain ⟨k, v⟩ := entry
    rw [keys_cons, List.mem_cons, not_or] at h
    rw [insert, if_neg (Ne.symm h.1), ih h.2, List.cons_append]

theorem eq_or_mem_of_mem_insert {key : κ} {value : α} {entries : Entries κ α} {entry : κ × α}
    (h : entry ∈ insert key value entries) : entry = (key, value) ∨ entry ∈ entries := by
  induction entries with
  | nil => exact Or.inl (List.mem_singleton.1 h)
  | cons first rest ih =>
    rw [insert] at h
    split at h
    · rcases List.mem_cons.1 h with h | h
      · exact Or.inl h
      · exact Or.inr (List.mem_cons_of_mem _ h)
    · rcases List.mem_cons.1 h with rfl | h
      · exact Or.inr (List.mem_cons_self ..)
      · exact (ih h).imp_right (List.mem_cons_of_mem _)

theorem nodup_keys_insert (key : κ) (value : α) {entries : Entries κ α}
    (h : (keys entries).Nodup) : (keys (insert key value entries)).Nodup := by
  rw [keys_insert]
  split
  · exact h
  · rename_i hk
    rw [List.nodup_append]
    refine ⟨h, by simp, ?_⟩
    intro a ha b hb
    rw [List.mem_singleton] at hb
    rintro rfl
    exact hk (hb ▸ ha)

theorem erase_sublist (key : κ) (entries : Entries κ α) :
    List.Sublist (erase key entries) entries := by
  induction entries with
  | nil => exact List.Sublist.refl _
  | cons entry rest ih =>
    obtain ⟨k, v⟩ := entry
    by_cases h : k = key
    · simp [erase, h]
    · simpa [erase, h] using ih

theorem nodup_keys_erase (key : κ) {entries : Entries κ α}
    (h : (keys entries).Nodup) : (keys (erase key entries)).Nodup :=
  List.Sublist.nodup ((erase_sublist key entries).map Prod.fst) h

theorem get?_erase_of_ne {key other : κ} (h : other ≠ key) (entries : Entries κ α) :
    get? other (erase key entries) = get? other entries := by
  induction entries with
  | nil => rfl
  | cons entry rest ih =>
    obtain ⟨k, v⟩ := entry
    by_cases hk : k = key
    · subst hk
      simp [erase, get?, Ne.symm h]
    · simp only [erase, hk, if_false, get?_cons, ih]

theorem get?_erase_self (key : κ) {entries : Entries κ α} (h : (keys entries).Nodup) :
    get? key (erase key entries) = none := by
  induction entries with
  | nil => rfl
  | cons entry rest ih =>
    obtain ⟨k, v⟩ := entry
    rw [keys_cons, List.nodup_cons] at h
    by_cases hk : k = key
    · subst hk
      simpa [erase, get?_eq_none_iff] using h.1
    · simp only [erase, hk, if_false, get?_cons, ih h.2]

/-- Fewer entries have no more keys. -/
theorem get?_eq_none_of_sublist {key : κ} {fewer entries : Entries κ α}
    (hsub : List.Sublist fewer entries) (h : get? key entries = none) : get? key fewer = none := by
  rw [get?_eq_none_iff] at h ⊢
  exact fun hmem => h ((hsub.map Prod.fst).subset hmem)

omit [DecidableEq κ] in
@[simp] theorem keys_map (f : α → β) (entries : Entries κ α) :
    keys (entries.map fun entry => (entry.1, f entry.2)) = keys entries :=
  List.map_map

omit [DecidableEq κ] in
theorem keys_filter (keep : κ → Bool) (entries : Entries κ α) :
    keys (entries.filter fun entry => keep entry.1) = (keys entries).filter keep :=
  List.filter_map.symm

/-- Entries that are left out by their key do not matter to a key that is kept. -/
theorem get?_filter_of_keep (keep : κ → Bool) {key : κ} (h : keep key = true)
    (entries : Entries κ α) :
    get? key (entries.filter fun entry => keep entry.1) = get? key entries := by
  induction entries with
  | nil => rfl
  | cons entry rest ih =>
    obtain ⟨k, v⟩ := entry
    by_cases hkeep : keep k = true
    · rw [List.filter_cons_of_pos (by simpa using hkeep), get?_cons, get?_cons, ih]
    · have hne : k ≠ key := fun heq => hkeep (heq ▸ h)
      rw [List.filter_cons_of_neg (by simpa using hkeep), get?_cons, if_neg hne, ih]

/-- An insertion does not show where its key is left out. -/
theorem filter_insert_of_not_keep (keep : κ → Bool) {key : κ} (h : keep key = false) (value : α)
    (entries : Entries κ α) :
    (insert key value entries).filter (fun entry => keep entry.1) =
      entries.filter fun entry => keep entry.1 := by
  induction entries with
  | nil => simp [insert, h]
  | cons entry rest ih =>
    obtain ⟨k, v⟩ := entry
    by_cases hk : k = key
    · simp [insert, hk, h]
    · simp [insert, hk, List.filter_cons, ih]

end Entries

/-- A map that lists its entries in the order of their first insertion. -/
@[ext]
structure OrderedMap (κ α : Type) where
  /-- The entries, oldest first. -/
  entries : Entries κ α
  /-- No key occurs twice. -/
  distinct : (Entries.keys entries).Nodup

namespace OrderedMap

variable {κ α : Type}

/-- The keys, oldest first. -/
def keys (m : OrderedMap κ α) : List κ := Entries.keys m.entries

/-- The map without entries. -/
def empty : OrderedMap κ α := ⟨[], List.nodup_nil⟩

instance : Inhabited (OrderedMap κ α) := ⟨empty⟩

/-- The number of entries. -/
def size (m : OrderedMap κ α) : Nat := m.entries.length

/-- Keeps the entries that pass the test. -/
def filter (keep : κ → α → Bool) (m : OrderedMap κ α) : OrderedMap κ α where
  entries := m.entries.filter fun entry => keep entry.1 entry.2
  distinct := List.Sublist.nodup (List.filter_sublist.map Prod.fst) m.distinct

/-- The same entries in another order. -/
def reorder (m : OrderedMap κ α) (entries : Entries κ α) (h : entries.Perm m.entries) :
    OrderedMap κ α where
  entries := entries
  distinct := (h.map Prod.fst).nodup_iff.2 m.distinct

variable [DecidableEq κ]

/-- The value of a key. -/
def get? (key : κ) (m : OrderedMap κ α) : Option α := Entries.get? key m.entries

/-- Whether the key has a value. -/
def contains (key : κ) (m : OrderedMap κ α) : Bool := Entries.contains key m.entries

/-- Gives the key a value. A new key comes last, an old one keeps its place. -/
def insert (key : κ) (value : α) (m : OrderedMap κ α) : OrderedMap κ α :=
  ⟨Entries.insert key value m.entries, Entries.nodup_keys_insert key value m.distinct⟩

/-- Drops a key. -/
def erase (key : κ) (m : OrderedMap κ α) : OrderedMap κ α :=
  ⟨Entries.erase key m.entries, Entries.nodup_keys_erase key m.distinct⟩

/-- Inserts the entries one after the other. -/
def ofList (entries : List (κ × α)) : OrderedMap κ α :=
  entries.foldl (fun m entry => m.insert entry.1 entry.2) empty

@[simp] theorem get?_insert_self (key : κ) (value : α) (m : OrderedMap κ α) :
    (m.insert key value).get? key = some value :=
  Entries.get?_insert_self key value m.entries

theorem get?_insert_of_ne {key other : κ} (h : other ≠ key) (value : α) (m : OrderedMap κ α) :
    (m.insert key value).get? other = m.get? other :=
  Entries.get?_insert_of_ne h value m.entries

@[simp] theorem get?_empty (key : κ) : (empty : OrderedMap κ α).get? key = none := rfl

@[simp] theorem get?_erase_self (key : κ) (m : OrderedMap κ α) : (m.erase key).get? key = none :=
  Entries.get?_erase_self key m.distinct

theorem get?_erase_of_ne {key other : κ} (h : other ≠ key) (m : OrderedMap κ α) :
    (m.erase key).get? other = m.get? other :=
  Entries.get?_erase_of_ne h m.entries

theorem get?_erase_eq_none {key other : κ} {m : OrderedMap κ α} (h : m.get? other = none) :
    (m.erase key).get? other = none :=
  Entries.get?_eq_none_of_sublist (Entries.erase_sublist key m.entries) h

theorem get?_filter_eq_none {keep : κ → α → Bool} {key : κ} {m : OrderedMap κ α}
    (h : m.get? key = none) : (m.filter keep).get? key = none :=
  Entries.get?_eq_none_of_sublist List.filter_sublist h

/-- A new key comes last. -/
theorem entries_insert_of_not_mem {key : κ} (value : α) {m : OrderedMap κ α}
    (h : key ∉ m.keys) : (m.insert key value).entries = m.entries ++ [(key, value)] :=
  Entries.insert_of_not_mem value h

theorem get?_eq_none_iff {key : κ} {m : OrderedMap κ α} : m.get? key = none ↔ key ∉ m.keys :=
  Entries.get?_eq_none_iff

theorem not_mem_keys_insert_of_ne {key other : κ} (h : other ≠ key) (value : α)
    {m : OrderedMap κ α} : other ∉ (m.insert key value).keys ↔ other ∉ m.keys := by
  rw [← get?_eq_none_iff, ← get?_eq_none_iff, get?_insert_of_ne h]

theorem mem_keys_of_get? {key : κ} {value : α} {m : OrderedMap κ α}
    (h : m.get? key = some value) : key ∈ m.keys :=
  List.mem_map_of_mem (Entries.mem_of_get? h)

theorem get?_of_mem {key : κ} {value : α} {m : OrderedMap κ α} (h : (key, value) ∈ m.entries) :
    m.get? key = some value :=
  Entries.get?_of_mem m.distinct h

theorem contains_iff {key : κ} {m : OrderedMap κ α} : m.contains key = true ↔ key ∈ m.keys :=
  Entries.contains_iff

end OrderedMap

end Pedigree
