import Pedigree.Yaml.Tree.Loader

/-!
# Trees that are read

A document is refused if a mapping of it gives one key twice. So in every mapping of a tree that is
read the keys are different trees (`Tree.distinctKeys_of_read?`). They may still be trees of one
text, as the number `1` and the string `"1"` are.
-/

namespace Pedigree.Yaml.Tree

/-! ## Mappings of a tree -/

mutual

/-- The mappings that a tree has, those inside of keys apart. -/
def mappings : Tree → List (List (Tree × Tree))
  | .sequence items => itemMappings items
  | .mapping entries => entries :: entryMappings entries
  | .tagged _ tree => mappings tree
  | _ => []

/-- The mappings in the items of a sequence. -/
def itemMappings : List Tree → List (List (Tree × Tree))
  | [] => []
  | item :: rest => mappings item ++ itemMappings rest

/-- The mappings in the values of a mapping. -/
def entryMappings : List (Tree × Tree) → List (List (Tree × Tree))
  | [] => []
  | (_, item) :: rest => mappings item ++ entryMappings rest

end

/-- In every mapping the keys are different trees. -/
def DistinctKeys (tree : Tree) : Prop :=
  ∀ entries ∈ tree.mappings, entries.Pairwise fun earlier later => earlier.1.same later.1 = false

theorem distinctKeys_of_scalar {tree : Tree} (h : tree.mappings = []) : tree.DistinctKeys := by
  rw [DistinctKeys, h]
  exact List.forall_mem_nil _

theorem distinctKeys_sequence {items : List Tree} (h : ∀ item ∈ items, item.DistinctKeys) :
    (sequence items).DistinctKeys := by
  rw [DistinctKeys, mappings]
  induction items with
  | nil => exact List.forall_mem_nil _
  | cons item rest ih =>
    obtain ⟨hitem, hrest⟩ := List.forall_mem_cons.1 h
    exact List.forall_mem_append.2 ⟨hitem, ih hrest⟩

theorem distinctKeys_mapping {entries : List (Tree × Tree)}
    (hkeys : entries.Pairwise fun earlier later => earlier.1.same later.1 = false)
    (h : ∀ entry ∈ entries, entry.2.DistinctKeys) : (mapping entries).DistinctKeys := by
  rw [DistinctKeys, mappings]
  refine List.forall_mem_cons.2 ⟨hkeys, ?_⟩
  clear hkeys
  induction entries with
  | nil => exact List.forall_mem_nil _
  | cons entry rest ih =>
    obtain ⟨hentry, hrest⟩ := List.forall_mem_cons.1 h
    exact List.forall_mem_append.2 ⟨hentry, ih hrest⟩

/-! ## What loading comes to -/

section Yields

variable {α β : Type} {P : α → Prop} {Q : β → Prop}

/-- Whatever a step comes to has the property. -/
def Yields (P : α → Prop) (x : Loading α) : Prop :=
  ∀ followed a after, x.run followed = some (a, after) → P a

theorem yields_pure {a : α} (h : P a) : Yields P (pure a) := by
  rintro followed _ _ ⟨⟩
  exact h

theorem yields_failure : Yields P failure := by
  rintro followed _ _ ⟨⟩

theorem Yields.bind {x : Loading α} {f : α → Loading β} (hx : Yields P x)
    (hf : ∀ a, P a → Yields Q (f a)) : Yields Q (x >>= f) := by
  intro followed b after h
  rw [StateT.run_bind] at h
  obtain ⟨⟨a, between⟩, ha, hb⟩ := Option.bind_eq_some_iff.1 h
  exact hf a (hx _ _ _ ha) _ _ _ hb

theorem yields_true (x : Loading α) : Yields (fun _ => True) x := fun _ _ _ _ => trivial

theorem yields_lift {o : Option α} (h : ∀ a, o = some a → P a) :
    Yields P (liftM o : Loading α) := by
  intro followed a after hrun
  cases o with
  | none => cases hrun
  | some b =>
    cases hrun
    exact h _ rfl

theorem yields_mapM {f : β → Loading α} (h : ∀ b, Yields P (f b)) (l : List β) :
    Yields (fun values => ∀ a ∈ values, P a) (l.mapM f) := by
  induction l with
  | nil => exact yields_pure (List.forall_mem_nil _)
  | cons b rest ih =>
    rw [List.mapM_cons]
    exact (h b).bind fun a ha => ih.bind fun values hvalues =>
      yields_pure (List.forall_mem_cons.2 ⟨ha, hvalues⟩)

end Yields

/-! ## Scalars -/

theorem mappings_resolve {text : String} {tree : Tree} (h : Scalar.resolve text = some tree) :
    tree.mappings = [] := by
  unfold Scalar.resolve at h
  split at h
  · cases h
    rfl
  · split at h
    · cases h
      rfl
    · split at h
      · obtain ⟨n, -, rfl⟩ := Option.map_eq_some_iff.1 h
        rfl
      · split at h
        · cases h
          rfl
        · split at h <;> cases h <;> rfl

theorem mappings_untagged {text : String} {style : Style} {tree : Tree}
    (h : Scalar.untagged text style = some tree) : tree.mappings = [] := by
  cases style with
  | plain => exact mappings_resolve h
  | quoted =>
    cases h
    rfl

theorem mappings_tagged {tag : Tag} {text : String} {style : Style} {tree : Tree}
    (h : Scalar.tagged tag text style = some tree) : tree.mappings = [] := by
  unfold Scalar.tagged at h
  split at h
  · obtain ⟨b, -, rfl⟩ := Option.map_eq_some_iff.1 h
    rfl
  · split at h
    · obtain ⟨n, -, rfl⟩ := Option.map_eq_some_iff.1 h
      rfl
    · split at h
      · obtain ⟨x, -, rfl⟩ := Option.map_eq_some_iff.1 h
        rfl
      · split at h
        · split at h <;> cases h
          rfl
        · split at h
          · exact mappings_untagged h
          · cases h
            rfl

/-- A scalar has no mapping, whatever its tag makes of it. -/
theorem mappings_loadScalar {inTag : Bool} {properties : Properties} {text : String}
    {style : Style} {tree : Tree} (h : loadScalar inTag properties text style = some tree) :
    tree.mappings = [] := by
  unfold loadScalar at h
  split at h
  · obtain ⟨scalar, hscalar, rfl⟩ := Option.map_eq_some_iff.1 h
    rw [mappings, mappings_untagged hscalar]
  · split at h
    · exact mappings_tagged h
    · exact mappings_untagged h

/-! ## Collections -/

theorem distinctKeys_wrap (tag : Option String) {tree : Tree} (h : tree.DistinctKeys) :
    (wrap tag tree).DistinctKeys := by
  cases tag <;> exact h

/-- Entries that are loaded one after the other, each with a key that no earlier one has. -/
theorem yields_loadEntries {load : Bool → Node → Loading Tree} {inTag : Bool}
    (hload : ∀ inTag node, Yields DistinctKeys (load inTag node)) :
    ∀ {loaded : List (Tree × Tree)} (entries : List (Node × Node)),
    (loaded.Pairwise fun later earlier => earlier.1.same later.1 = false) →
    (∀ entry ∈ loaded, entry.2.DistinctKeys) →
    Yields (fun all => (all.Pairwise fun earlier later => earlier.1.same later.1 = false) ∧
      ∀ entry ∈ all, entry.2.DistinctKeys) (loadEntries load inTag loaded entries)
  | loaded, [], hkeys, hloaded => by
    refine yields_pure ⟨List.pairwise_reverse.2 hkeys, fun entry hentry => ?_⟩
    exact hloaded entry (List.mem_reverse.1 hentry)
  | loaded, (key, value) :: rest, hkeys, hloaded => by
    refine (yields_true _).bind fun key _ => ?_
    split
    · exact yields_failure
    · rename_i hnew
      refine (hload _ _).bind fun value hvalue => yields_loadEntries hload rest ?_ ?_
      · refine List.pairwise_cons.2 ⟨fun entry hentry => ?_, hkeys⟩
        simpa using fun hsame => hnew (List.any_eq_true.2 ⟨entry, hentry, hsame⟩)
      · exact List.forall_mem_cons.2 ⟨hvalue, hloaded⟩

theorem yields_loadNode {inside : Option (Bool → Node → Loading Tree)}
    (hinside : ∀ load, inside = some load → ∀ inTag node, Yields DistinctKeys (load inTag node))
    (inTag : Bool) : ∀ node, Yields DistinctKeys (loadNode inside inTag node)
  | .scalar _ _ _ => yields_lift fun _ h => distinctKeys_of_scalar (mappings_loadScalar h)
  | .alias _ => yields_failure
  | .sequence _ _ => (yields_lift hinside).bind fun _ hload =>
    (yields_mapM (hload false) _).bind fun _ hitems =>
      yields_pure (distinctKeys_wrap _ (distinctKeys_sequence hitems))
  | .mapping _ _ => (yields_lift hinside).bind fun _ hload =>
    (yields_loadEntries hload _ .nil (List.forall_mem_nil _)).bind fun _ hentries =>
      yields_pure (distinctKeys_wrap _ (distinctKeys_mapping hentries.1 hentries.2))

theorem yields_load (anchored : Anchored) : ∀ (depth : Nat) (inTag : Bool) (node : Node),
    Yields DistinctKeys (load anchored depth inTag node)
  | 0, _, _ => (yields_true _).bind fun followed _ =>
    yields_loadNode (fun _ h => by cases h) followed.1 followed.2
  | depth + 1, _, _ => (yields_true _).bind fun followed _ =>
    yields_loadNode (fun _ h => by
      cases h
      exact yields_load anchored depth) followed.1 followed.2

/-- In a tree that is read, the keys of every mapping are different trees. -/
theorem distinctKeys_of_read? {text : String} {tree : Tree} (h : read? text = some tree) :
    tree.DistinctKeys := by
  obtain ⟨tokens, -, hroot⟩ := Option.bind_eq_some_iff.1 h
  obtain ⟨root, -, htree⟩ := Option.bind_eq_some_iff.1 hroot
  obtain ⟨⟨_, _⟩, hload, rfl⟩ := Option.map_eq_some_iff.1 htree
  exact yields_load _ _ _ _ _ _ _ hload

end Pedigree.Yaml.Tree
