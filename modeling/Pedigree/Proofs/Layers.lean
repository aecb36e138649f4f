import Pedigree.Value.Merge

/-!
# What a layer changes

A mapping of a definition never holds a key twice (`Value.WellFormed`). For such layers
the entries of a merge are known one by one : `get?_mergeEntries` gives the value of a
key, `keys_mergeEntries` the order of the keys. A value over another keeps its own kind
(`Value.kind_merge`), and merging keeps values well formed (`Value.WellFormed.merge`).
-/

namespace Pedigree

namespace Value

/-- No mapping in the value holds a key twice. -/
inductive WellFormed : Value → Prop where
  | scalar {v : Value} (h : v.isScalar = true) : WellFormed v
  | sequence {items : List Value} (h : ∀ item ∈ items, WellFormed item) :
      WellFormed (.sequence items)
  | mapping {entries : List (String × Value)} (distinct : (Entries.keys entries).Nodup)
      (h : ∀ entry ∈ entries, WellFormed entry.2) : WellFormed (.mapping entries)

/-- The value on top of what stands below it, if anything does. -/
def onTop (below : Option Value) (value : Value) : Value :=
  match below with
  | some old => old.merge value
  | none => value

@[simp] theorem onTop_none (value : Value) : onTop none value = value := rfl

@[simp] theorem onTop_some (old value : Value) : onTop (some old) value = old.merge value := rfl

@[simp] theorem merge_mapping (entries layer : List (String × Value)) :
    (Value.mapping entries).merge (.mapping layer) = .mapping (mergeEntries entries layer) := by
  simp [merge]

@[simp] theorem merge_sequence (items layer : List Value) :
    (Value.sequence items).merge (.sequence layer) = .sequence (items ++ layer) := by
  simp [merge]

theorem merge_of_isScalar (base : Value) {layer : Value} (h : layer.isScalar = true) :
    base.merge layer = layer := by
  cases layer <;> simp_all [merge, isScalar]

/-- Between different kinds the layer wins. -/
theorem merge_of_kind_ne {base layer : Value} (h : base.kind ≠ layer.kind) :
    base.merge layer = layer := by
  cases layer <;> cases base <;> simp_all [merge, kind]

/-- The kind of a merge is the kind of its layer. -/
@[simp] theorem kind_merge (base layer : Value) : (base.merge layer).kind = layer.kind := by
  cases layer <;> cases base <;> simp [merge, kind]

end Value

section Entries

variable {base layer : List (String × Value)}

@[simp] theorem mergeEntries_nil (base : List (String × Value)) : mergeEntries base [] = base := by
  simp [mergeEntries]

theorem mergeEntries_cons (base : List (String × Value)) (key : String) (value : Value)
    (rest : List (String × Value)) :
    mergeEntries base ((key, value) :: rest) =
      mergeEntries (Entries.insert key (Value.onTop (Entries.get? key base) value) base) rest := by
  rw [mergeEntries]
  cases Entries.get? key base <;> rfl

/-- A key of the layer holds the layer's value over the base's, any other key the base's. -/
theorem get?_mergeEntries (base : List (String × Value)) (h : (Entries.keys layer).Nodup)
    (key : String) :
    Entries.get? key (mergeEntries base layer) =
      match Entries.get? key layer with
      | none => Entries.get? key base
      | some value => some (Value.onTop (Entries.get? key base) value) := by
  induction layer generalizing base with
  | nil => simp
  | cons entry rest ih =>
    obtain ⟨k, v⟩ := entry
    rw [Entries.keys_cons, List.nodup_cons] at h
    rw [mergeEntries_cons, ih _ h.2, Entries.get?_cons]
    by_cases hk : k = key
    · subst hk
      rw [Entries.get?_eq_none_iff.2 h.1]
      simp
    · rw [Entries.get?_insert_of_ne (Ne.symm hk)]
      simp [hk]

/-- The keys of the base keep their places, new keys of the layer follow in its order. -/
theorem keys_mergeEntries (base : List (String × Value)) (h : (Entries.keys layer).Nodup) :
    Entries.keys (mergeEntries base layer) =
      Entries.keys base ++ (Entries.keys layer).filter (· ∉ Entries.keys base) := by
  induction layer generalizing base with
  | nil => simp
  | cons entry rest ih =>
    obtain ⟨k, v⟩ := entry
    rw [Entries.keys_cons, List.nodup_cons] at h
    rw [mergeEntries_cons, ih _ h.2, Entries.keys_insert, Entries.keys_cons, List.filter_cons]
    by_cases hk : k ∈ Entries.keys base
    · simp [hk]
    · have hrest : (Entries.keys rest).filter (· ∉ Entries.keys base ++ [k]) =
          (Entries.keys rest).filter (· ∉ Entries.keys base) := by
        refine List.filter_congr fun other hother => ?_
        have : other ≠ k := by
          rintro rfl
          exact h.1 hother
        simp [this]
      simp only [hk, if_false, hrest]
      simp

/-- A merge has the keys of both, also where the layer holds a key twice. -/
theorem mem_keys_mergeEntries {key : String} :
    key ∈ Entries.keys (mergeEntries base layer) ↔
      key ∈ Entries.keys base ∨ key ∈ Entries.keys layer := by
  induction layer generalizing base with
  | nil => simp
  | cons entry rest ih =>
    obtain ⟨k, v⟩ := entry
    rw [mergeEntries_cons, ih, Entries.keys_insert, Entries.keys_cons, List.mem_cons]
    by_cases hk : k ∈ Entries.keys base
    · rw [if_pos hk]
      refine ⟨Or.imp_right Or.inr, ?_⟩
      rintro (h | rfl | h)
      · exact Or.inl h
      · exact Or.inl hk
      · exact Or.inr h
    · rw [if_neg hk, List.mem_append, List.mem_singleton, or_assoc]

theorem nodup_keys_mergeEntries (hbase : (Entries.keys base).Nodup)
    (h : (Entries.keys layer).Nodup) : (Entries.keys (mergeEntries base layer)).Nodup := by
  rw [keys_mergeEntries base h, List.nodup_append]
  refine ⟨hbase, h.filter _, ?_⟩
  intro a ha b hb
  rintro rfl
  simp [ha] at hb

end Entries

namespace Value

@[simp] theorem wellFormed_null : Value.null.WellFormed := .scalar rfl

@[simp] theorem wellFormed_bool (b : Bool) : (Value.bool b).WellFormed := .scalar rfl

@[simp] theorem wellFormed_number (n : Number) : (Value.number n).WellFormed := .scalar rfl

@[simp] theorem wellFormed_string (s : String) : (Value.string s).WellFormed := .scalar rfl

@[simp] theorem wellFormed_sequence_iff {items : List Value} :
    (Value.sequence items).WellFormed ↔ ∀ item ∈ items, item.WellFormed := by
  constructor
  · rintro (h | h)
    · simp [isScalar] at h
    · exact h
  · exact .sequence

@[simp] theorem wellFormed_mapping_iff {entries : List (String × Value)} :
    (Value.mapping entries).WellFormed ↔
      (Entries.keys entries).Nodup ∧ ∀ entry ∈ entries, entry.2.WellFormed := by
  constructor
  · rintro (h | _ | ⟨hd, h⟩)
    · simp [isScalar] at h
    · exact ⟨hd, h⟩
  · exact fun h => .mapping h.1 h.2

/-- A merge of well formed values is well formed. -/
theorem WellFormed.merge {base layer : Value} (hbase : base.WellFormed)
    (hlayer : layer.WellFormed) : (base.merge layer).WellFormed := by
  induction hlayer generalizing base with
  | scalar h =>
    rw [merge_of_isScalar base h]
    exact .scalar h
  | @sequence items h ih =>
    by_cases hkind : base.kind = .sequence
    · cases base <;> simp only [kind, reduceCtorEq] at hkind
      rw [wellFormed_sequence_iff] at hbase
      rw [merge_sequence, wellFormed_sequence_iff]
      intro item hitem
      exact (List.mem_append.1 hitem).elim (hbase item) (h item)
    · rw [merge_of_kind_ne hkind]
      exact .sequence h
  | @mapping layer distinct h ih =>
    by_cases hkind : base.kind = .mapping
    · cases base <;> simp only [kind, reduceCtorEq] at hkind
      rename_i entries
      rw [wellFormed_mapping_iff] at hbase
      rw [merge_mapping]
      have hnodup := nodup_keys_mergeEntries hbase.1 distinct
      refine .mapping hnodup fun entry hentry => ?_
      have hget := Entries.get?_of_mem hnodup hentry
      rw [get?_mergeEntries entries distinct] at hget
      split at hget
      · exact hbase.2 _ (Entries.mem_of_get? hget)
      · rename_i value hvalue
        have hmem := Entries.mem_of_get? hvalue
        rw [← Option.some.inj hget]
        cases hbelow : Entries.get? entry.1 entries with
        | none => exact h _ hmem
        | some old => exact ih _ hmem (hbase.2 _ (Entries.mem_of_get? hbelow))
    · rw [merge_of_kind_ne hkind]
      exact .mapping distinct h

end Value

end Pedigree
