import Pedigree.Proofs.LayerGrouping

/-!
# Layers that are merged twice

A value without sequences over itself is that value (`Value.merge_self`) : each key is in its place
already, and a scalar replaces its own copy. With another layer below or above the two copies this
still decides, since two neighbours that are equal reset nothing and may be grouped first. So a
layer without sequences that is merged again changes nothing, whether it goes on top once more or
below once more (`Value.merge_repeated`). Items of a sequence would be there twice.
-/

namespace Pedigree.Value

variable {a b c : Value}

/-- No sequence occurs in the value, at any depth. -/
inductive SequenceFree : Value → Prop where
  | scalar {v : Value} (h : v.isScalar = true) : SequenceFree v
  | mapping {entries : List (String × Value)} (h : ∀ entry ∈ entries, SequenceFree entry.2) :
      SequenceFree (.mapping entries)

@[simp] theorem sequenceFree_mapping_iff {entries : List (String × Value)} :
    (mapping entries).SequenceFree ↔ ∀ entry ∈ entries, entry.2.SequenceFree := by
  constructor
  · rintro (h | h)
    · simp [isScalar] at h
    · exact h
  · exact .mapping

/-- A value without sequences over itself stays as it is. -/
theorem merge_self (hformed : a.WellFormed) (h : a.SequenceFree) : a.merge a = a := by
  induction h with
  | scalar hscalar => exact merge_of_isScalar _ hscalar
  | @mapping entries _ ih =>
    obtain ⟨hdistinct, hvalues⟩ := wellFormed_mapping_iff.1 hformed
    have hkeys : Entries.keys (mergeEntries entries entries) = Entries.keys entries := by
      rw [keys_mergeEntries _ hdistinct]
      simp
    rw [merge_mapping]
    refine congrArg mapping (Entries.ext_get? (hkeys ▸ hdistinct) hkeys fun key => ?_)
    rw [get?_mergeEntries _ hdistinct]
    cases hget : Entries.get? key entries with
    | none => rfl
    | some value =>
      have hmem := Entries.mem_of_get? hget
      exact congrArg some (ih _ hmem (hvalues _ hmem))

/-- The same layer twice resets nothing for what is above it. -/
theorem not_resetAt_self_below (a c : Value) (path : List String) : ¬a.ResetAt a c path := by
  rintro ⟨below, between, above, hbelow, hbetween, -, hne, -⟩
  rw [hbelow] at hbetween
  exact hne (congrArg kind (Option.some.inj hbetween).symm)

/-- The same layer twice resets nothing of what is below it. -/
theorem not_resetAt_self_above (a b : Value) (path : List String) : ¬a.ResetAt b b path := by
  rintro ⟨below, between, above, -, hbetween, habove, hne, hkinds⟩
  rw [hbetween] at habove
  obtain rfl := Option.some.inj habove
  rcases hkinds with ⟨hbelow, habove⟩ | ⟨hbelow, habove⟩ <;> exact hne (habove.trans hbelow.symm)

/-- A layer without sequences changes nothing when it is merged again, neither on top of the merge
nor below it. -/
theorem merge_repeated (ha : a.WellFormed) (hb : b.WellFormed) :
    (b.SequenceFree → (a.merge b).merge b = a.merge b) ∧
      (a.SequenceFree → a.merge (a.merge b) = a.merge b) := by
  constructor
  · intro hfree
    calc (a.merge b).merge b
      _ = a.merge (b.merge b) := merge_assoc ha hb hb (not_resetAt_self_above a b)
      _ = a.merge b := by rw [merge_self hb hfree]
  · intro hfree
    calc a.merge (a.merge b)
      _ = (a.merge a).merge b := (merge_assoc ha ha hb (not_resetAt_self_below a b)).symm
      _ = a.merge b := by rw [merge_self ha hfree]

/-- A layer with a sequence, and one without that also resets an entry. -/
theorem merge_repeated_tags :
    let tagged : Value := mapping
      [("unit", mapping [("name", string "bar")]), ("tags", sequence [string "a"])]
    let plain : Value := mapping [("label", string "Level"), ("unit", null)]
    tagged.WellFormed ∧ plain.WellFormed ∧ plain.SequenceFree ∧
      (tagged.merge plain).merge plain = tagged.merge plain ∧
      plain.merge (plain.merge tagged) = plain.merge tagged := by
  intro tagged plain
  have htagged : tagged.WellFormed := by simp [tagged]
  have hplain : plain.WellFormed := by simp [plain]
  have hfree : plain.SequenceFree := by
    refine sequenceFree_mapping_iff.2 fun entry hentry => .scalar ?_
    simp only [List.mem_cons, List.not_mem_nil, or_false] at hentry
    rcases hentry with rfl | rfl <;> rfl
  exact ⟨htagged, hplain, hfree, (merge_repeated htagged hplain).1 hfree,
    (merge_repeated hplain htagged).2 hfree⟩

example : (sequence [null]).merge (sequence [null]) = sequence [null, null] := merge_sequence ..

end Pedigree.Value
