import Mathlib.Data.List.Nodup
import Pedigree.Proofs.OverlayNames

/-!
# Chains of bases

`BaseChain bases name chain` : the references of the bases, read as they were written,
lead from `name` through names that bases may have up to `default`, which has no base.
The chain lists the bases on the way with `default` first. There is at most one such
chain (`BaseChain.unique`), and it holds no name twice (`BaseChain.nodup_keys`).
`inherited` stacks the localized definitions of a chain.
-/

namespace Pedigree

namespace Definition

/-- The definition has no base, or null for one. -/
def Rootless (definition : Definition) : Prop :=
  Entries.get? baseKey definition = none ∨ Entries.get? baseKey definition = some .null

theorem baseReference_eq_none_iff {name : String} {definition : Definition} :
    baseReference name definition = .ok none ↔ definition.Rootless := by
  unfold baseReference Rootless
  split <;> simp_all

theorem baseReference_eq_some_iff {name base : String} {definition : Definition} :
    baseReference name definition = .ok (some base) ↔
      Entries.get? baseKey definition = some (.string base) := by
  unfold baseReference
  split <;> simp_all

end Definition

/-- A name with a dot is not the name of a base. -/
theorem stem?_eq_none_of_isBaseName {name : String} (h : isBaseName name = true) :
    stem? name = none := by
  rw [stem?_eq_none_iff]
  intro hmem
  simp only [isBaseName, Bool.and_eq_true, List.all_eq_true] at h
  have := h.2 '.' hmem
  revert this
  decide

namespace Collection

theorem isOverlay_eq_false_of_isBaseName (collection : Collection) {name : String}
    (h : isBaseName name = true) : collection.isOverlay name = false := by
  rw [isOverlay, stem?_eq_none_of_isBaseName h]

/-- The bases from `default` down to a name, with their definitions. -/
inductive BaseChain (bases : Collection) : String → Entries String Definition → Prop where
  | root {definition : Definition} (hget : bases.get? defaultBase = some definition)
      (hroot : definition.Rootless) : BaseChain bases defaultBase [(defaultBase, definition)]
  | step {name base : String} {definition : Definition} {chain : Entries String Definition}
      (hget : bases.get? name = some definition)
      (hbase : Entries.get? baseKey definition = some (.string base))
      (hname : isBaseName base = true) (hchain : BaseChain bases base chain) :
      BaseChain bases name (chain ++ [(name, definition)])

/-- What a chain of bases amounts to for a locale. -/
def inherited (bases : Collection) (locale : Option String)
    (chain : Entries String Definition) : Definition :=
  Definition.stack (chain.map fun entry => bases.localized locale entry.1 entry.2)

namespace BaseChain

variable {bases : Collection} {name : String} {chain other : Entries String Definition}

theorem mem_keys (h : bases.BaseChain name chain) : name ∈ bases.keys := by
  cases h with
  | root hget => exact OrderedMap.mem_keys_of_get? hget
  | step hget => exact OrderedMap.mem_keys_of_get? hget

theorem mem_keys_chain (h : bases.BaseChain name chain) : name ∈ Entries.keys chain := by
  cases h <;> simp

theorem subset (h : bases.BaseChain name chain) : ∀ entry ∈ chain, entry ∈ bases.entries := by
  induction h with
  | root hget => simpa using Entries.mem_of_get? hget
  | step hget hbase hname hchain ih =>
    intro entry hentry
    rcases List.mem_append.1 hentry with hentry | hentry
    · exact ih entry hentry
    · exact List.mem_singleton.1 hentry ▸ Entries.mem_of_get? hget

/-- A chain ends at once if the name is the root, and goes on at the base it names if not. -/
theorem root_or_step (h : bases.BaseChain name chain) {definition : Definition}
    (hget : bases.get? name = some definition) :
    (name = defaultBase ∧ Definition.baseReference name definition = .ok none) ∨
      ∃ base upper, Definition.baseReference name definition = .ok (some base) ∧
        isBaseName base = true ∧ bases.BaseChain base upper ∧
          chain = upper ++ [(name, definition)] := by
  cases h with
  | root hget' hroot =>
    obtain rfl := Option.some.inj (hget'.symm.trans hget)
    exact Or.inl ⟨rfl, Definition.baseReference_eq_none_iff.2 hroot⟩
  | step hget' hbase hname hchain =>
    obtain rfl := Option.some.inj (hget'.symm.trans hget)
    exact Or.inr ⟨_, _, Definition.baseReference_eq_some_iff.2 hbase, hname, hchain, rfl⟩

/-- A name has at most one chain. -/
theorem unique (h : bases.BaseChain name chain) (h' : bases.BaseChain name other) :
    chain = other := by
  induction h generalizing other with
  | root hget hroot =>
    cases h' with
    | root hget' => simp_all
    | step hget' hbase' => simp_all [Definition.Rootless]
  | step hget hbase hname hchain ih =>
    cases h' with
    | root hget' hroot' => simp_all [Definition.Rootless]
    | step hget' hbase' hname' hchain' =>
      obtain rfl := Option.some.inj (hget.symm.trans hget')
      obtain rfl := Value.string.inj (Option.some.inj (hbase.symm.trans hbase'))
      rw [ih hchain']

/-- A name on a chain has the part of the chain down to it. -/
theorem exists_prefix_of_mem (h : bases.BaseChain name chain) {between : String}
    (hmem : between ∈ Entries.keys chain) :
    ∃ upper, bases.BaseChain between upper ∧ upper.IsPrefix chain := by
  induction h with
  | root hget hroot =>
    obtain rfl : between = defaultBase := by simpa using hmem
    exact ⟨_, .root hget hroot, List.prefix_refl _⟩
  | @step name base definition chain hget hbase hname hchain ih =>
    rw [Entries.keys_append, List.mem_append] at hmem
    rcases hmem with hmem | hmem
    · obtain ⟨upper, hupper, hprefix⟩ := ih hmem
      exact ⟨upper, hupper, hprefix.trans (List.prefix_append _ _)⟩
    · obtain rfl : between = name := by simpa using hmem
      exact ⟨_, .step hget hbase hname hchain, List.prefix_refl _⟩

/-- A chain does not come back to the name below it. -/
theorem not_mem_of_step {base : String} {definition : Definition}
    (hstep : bases.BaseChain name (chain ++ [(name, definition)]))
    (hchain : bases.BaseChain base chain) : name ∉ Entries.keys chain := by
  intro hmem
  obtain ⟨upper, hupper, hprefix⟩ := hchain.exists_prefix_of_mem hmem
  have hlength := hprefix.length_le
  rw [hupper.unique hstep, List.length_append, List.length_singleton] at hlength
  omega

theorem nodup_keys (h : bases.BaseChain name chain) : (Entries.keys chain).Nodup := by
  induction h with
  | root => simp
  | @step name base definition chain hget hbase hname hchain ih =>
    have hnot := (BaseChain.step hget hbase hname hchain).not_mem_of_step hchain
    simpa using List.Nodup.concat hnot ih

end BaseChain

theorem inherited_concat (bases : Collection) (locale : Option String)
    (chain : Entries String Definition) (name : String) (definition : Definition) :
    bases.inherited locale (chain ++ [(name, definition)]) =
      Definition.merge (bases.inherited locale chain)
        (bases.localized locale name definition) := by
  simp [inherited, Definition.stack]

end Collection

end Pedigree
