import Pedigree.Proofs.Expansion
import Pedigree.Scope

/-!
# What a scope resolves to

`Scope.resolve` answers if and only if every name that a base may have leads to `default`
(`Scope.BasesRooted`) and every item of its own names such a base (`Scope.ItemsBased`). The
result then has the items that are no overlays, in source order, and each is one stack of
layers : the localized bases of its chain from `default` down, and its own localized
definition on top (`Scope.ItemResolves`). No memo and no order of expansion is left in
that description, so what a merge keeps of two layers, a scope keeps of all its definitions
(`Scope.forall_of_resolve`).
-/

namespace Pedigree

namespace Scope

variable (scope : Scope) (locale : Option String)

/-- The items that are no overlays, in source order. -/
def ownItems : Entries String Definition :=
  scope.items.entries.filter fun item => !scope.items.isOverlay item.1

/-- The references of every name that a base may have lead to `default`, and no name comes twice
on the way. -/
def BasesRooted : Prop :=
  ∀ name ∈ scope.bases.keys, isBaseName name = true →
    ∃ chain, scope.bases.BaseChain name chain ∧ (Entries.keys chain).Nodup

/-- Every item of its own names a base that exists under a name that a base may have. -/
def ItemsBased : Prop :=
  ∀ item ∈ scope.ownItems, ∃ base, Entries.get? baseKey item.2 = some (.string base) ∧
    isBaseName base = true ∧ base ∈ scope.bases.keys

/-- The definition is the stack of the localized bases of an item, from `default` down to the base
it names, and the localized item. -/
def ItemResolves (item : String × Definition) (resolved : Definition) : Prop :=
  ∃ base chain, Entries.get? baseKey item.2 = some (.string base) ∧
    isBaseName base = true ∧ scope.bases.BaseChain base chain ∧
      resolved = Definition.stack
        ((chain.map fun entry => scope.bases.localized locale entry.1 entry.2) ++
          [scope.items.localized locale item.1 item.2])

variable {scope locale}

/-- The step for one item, with the bases expanded. -/
theorem resolveItem_eq_ok_iff {expanded : Collection} {name : String}
    {definition resolved : Definition} :
    (scope.resolveItem locale expanded name definition).outcome = .ok resolved ↔
      ∃ base parent, Entries.get? baseKey definition = some (.string base) ∧
        expanded.get? base = some parent ∧
          resolved = parent.merge (scope.items.localized locale name definition) := by
  unfold resolveItem
  rw [Logged.bind_eq_ok_iff, Logged.outcome_ofExcept]
  constructor
  · rintro ⟨_ | base, href, h⟩
    · cases h
    · cases hget : expanded.get? base with
      | none =>
        simp only [hget] at h
        cases h
      | some parent =>
        simp only [hget] at h
        obtain ⟨overlaid, hoverlaid, h⟩ := Logged.bind_eq_ok_iff.1 h
        rw [Collection.outcome_localize] at hoverlaid
        cases hoverlaid
        cases h
        exact ⟨base, parent, Definition.baseReference_eq_some_iff.1 href, hget, rfl⟩
  · rintro ⟨base, parent, hbase, hget, rfl⟩
    refine ⟨some base, Definition.baseReference_eq_some_iff.2 hbase, ?_⟩
    simp only [hget]
    exact Logged.bind_eq_ok_iff.2 ⟨_, Collection.outcome_localize .., rfl⟩

/-- An item on top of the expanded base it names. -/
def OntoExpanded (scope : Scope) (locale : Option String) (expanded : Collection)
    (item : String × Definition) (resolved : Definition) : Prop :=
  ∃ base parent, Entries.get? baseKey item.2 = some (.string base) ∧
    expanded.get? base = some parent ∧
      resolved = parent.merge (scope.items.localized locale item.1 item.2)

/-- The loop over the items leaves out overlays and adds every other item in order. -/
theorem resolveItems_eq_ok_iff {expanded : Collection} {items : Entries String Definition}
    (hitems : (Entries.keys items).Nodup) {resolved result : Collection}
    (hnew : ∀ name ∈ Entries.keys items, name ∉ resolved.keys) :
    (scope.resolveItems locale expanded resolved items).outcome = .ok result ↔
      ∃ new, result.entries = resolved.entries ++ new ∧
        Entries.Lists Prod.fst (scope.OntoExpanded locale expanded)
          (items.filter fun item => !scope.items.isOverlay item.1) new := by
  induction items generalizing resolved with
  | nil => simp [resolveItems, Logged.done, Entries.Lists, OrderedMap.ext_iff, eq_comm]
  | cons item rest ih =>
    obtain ⟨name, definition⟩ := item
    rw [Entries.keys_cons, List.nodup_cons] at hitems
    have hrest : ∀ other ∈ Entries.keys rest, other ∉ resolved.keys :=
      fun other hother => hnew other (List.mem_cons_of_mem _ hother)
    have hfresh : name ∉ resolved.keys := hnew name (List.mem_cons_self ..)
    rw [resolveItems]
    by_cases hoverlay : scope.items.isOverlay name = true
    · simp only [hoverlay, if_true, Bool.not_true, Bool.false_eq_true, not_false_eq_true,
        List.filter_cons_of_neg]
      exact ih hitems.2 hrest
    · simp only [hoverlay, Bool.false_eq_true, if_false, Bool.not_false, List.filter_cons_of_pos,
        Entries.append_lists_cons_iff, Logged.outcome_bind]
      cases hitem : (scope.resolveItem locale expanded name definition).outcome with
      | error failure =>
        refine ⟨fun h => (by cases h), ?_⟩
        rintro ⟨value, honto, -⟩
        rw [resolveItem_eq_ok_iff.2 honto] at hitem
        cases hitem
      | ok value =>
        have hrest' : ∀ other ∈ Entries.keys rest, other ∉ (resolved.insert name value).keys := by
          intro other hother
          have hne : other ≠ name := fun heq => hitems.1 (heq ▸ hother)
          exact (OrderedMap.not_mem_keys_insert_of_ne hne value).2 (hrest other hother)
        change (scope.resolveItems locale expanded (resolved.insert name value) rest).outcome = _ ↔
          _
        rw [ih hitems.2 hrest', OrderedMap.entries_insert_of_not_mem _ hfresh]
        refine ⟨fun hok => ⟨value, resolveItem_eq_ok_iff.1 hitem, hok⟩, ?_⟩
        rintro ⟨other, honto, hok⟩
        rw [resolveItem_eq_ok_iff.2 honto] at hitem
        exact Except.ok.inj hitem ▸ hok

/-- With all bases expanded, an item lies onto the stack of its chain of bases. -/
theorem ontoExpanded_iff {expanded : Collection}
    (h : (Expander.new scope.bases locale).expandAll.outcome = .ok expanded)
    (item : String × Definition) (resolved : Definition) :
    scope.OntoExpanded locale expanded item resolved ↔
      scope.ItemResolves locale item resolved := by
  have hget : ∀ base parent, expanded.get? base = some parent ↔ _ :=
    fun base parent => Expander.get?_expanded_iff ((Expander.expandAll_eq_ok_iff ..).1 h)
  unfold OntoExpanded ItemResolves
  simp only [hget, Definition.stack, List.foldl_concat]
  constructor
  · rintro ⟨base, parent, hbase, ⟨hname, chain, hchain, rfl⟩, rfl⟩
    exact ⟨base, chain, hbase, hname, hchain, rfl⟩
  · rintro ⟨base, chain, hbase, hname, hchain, rfl⟩
    exact ⟨base, _, hbase, ⟨hname, chain, hchain, rfl⟩, rfl⟩

/-- Every chain of bases is free of repetitions, so a base is rooted if it has a chain. -/
theorem basesRooted_iff :
    scope.BasesRooted ↔ ∀ name ∈ scope.bases.keys, isBaseName name = true →
      ∃ chain, scope.bases.BaseChain name chain :=
  forall₃_congr fun _ _ _ => exists_congr fun _ =>
    ⟨And.left, fun hchain => ⟨hchain, hchain.nodup_keys⟩⟩

/-- A scope resolves to a collection if and only if its bases are rooted and the collection lists
what the items of the scope resolve to. -/
theorem resolve_eq_ok_iff {resolved : Collection} :
    (scope.resolve locale).outcome = .ok resolved ↔
      scope.BasesRooted ∧
        Entries.Lists Prod.fst (scope.ItemResolves locale) scope.ownItems resolved.entries := by
  have hempty : ∀ name ∈ Entries.keys scope.items.entries,
      name ∉ (OrderedMap.empty : Collection).keys := fun name _ => by
    simp [OrderedMap.keys, OrderedMap.empty]
  have hitems : ∀ expanded, (Expander.new scope.bases locale).expandAll.outcome = .ok expanded →
      ((scope.resolveItems locale expanded .empty scope.items.entries).outcome = .ok resolved ↔
        Entries.Lists Prod.fst (scope.ItemResolves locale) scope.ownItems resolved.entries) := by
    intro expanded hexpanded
    have honto : scope.OntoExpanded locale expanded = scope.ItemResolves locale :=
      funext₂ fun item value => propext (ontoExpanded_iff hexpanded item value)
    rw [resolveItems_eq_ok_iff scope.items.distinct hempty, honto]
    constructor
    · rintro ⟨new, hentries, hnew⟩
      exact hentries ▸ hnew
    · exact fun hnew => ⟨_, rfl, hnew⟩
  rw [basesRooted_iff, ← Expander.exists_expandAll_iff scope.bases locale]
  constructor
  · intro h
    obtain ⟨expanded, hexpanded, hrest⟩ := Logged.bind_eq_ok_iff.1 h
    obtain ⟨result, hresult, hdone⟩ := Logged.bind_eq_ok_iff.1 hrest
    obtain rfl : result = resolved := Except.ok.inj hdone
    exact ⟨⟨expanded, hexpanded⟩, (hitems expanded hexpanded).1 hresult⟩
  · rintro ⟨⟨expanded, hexpanded⟩, hlists⟩
    have hresult := (hitems expanded hexpanded).2 hlists
    exact Logged.bind_eq_ok_iff.2
      ⟨expanded, hexpanded, Logged.bind_eq_ok_iff.2 ⟨resolved, hresult, rfl⟩⟩

/-- With `default` as the only base every item of its own is one layer on top of it. -/
theorem resolve_eq_ok_of_default {root : Definition} {resolved : Collection}
    (hbases : scope.bases.entries = [(defaultBase, root)]) (hroot : root.Rootless)
    (hresolved : Entries.Lists Prod.fst (fun item value =>
      Entries.get? baseKey item.2 = some (.string defaultBase) ∧
        value = Definition.stack [scope.bases.localized locale defaultBase root,
          scope.items.localized locale item.1 item.2]) scope.ownItems resolved.entries) :
    (scope.resolve locale).outcome = .ok resolved := by
  have hget : scope.bases.get? defaultBase = some root := by
    simp [OrderedMap.get?, hbases, Entries.get?_cons]
  have hchain : scope.bases.BaseChain defaultBase [(defaultBase, root)] := .root hget hroot
  refine resolve_eq_ok_iff.2 ⟨basesRooted_iff.2 ?_, ?_⟩
  · intro name hname _
    obtain rfl : name = defaultBase := by simpa [OrderedMap.keys, hbases] using hname
    exact ⟨_, hchain⟩
  · refine List.Forall₂.imp ?_ hresolved
    rintro item ⟨name, value⟩ ⟨hname, hbase, hvalue⟩
    exact ⟨hname, defaultBase, _, hbase, by decide, hchain, hvalue⟩

/-- A scope resolves if and only if the references of its bases lead to `default` and each of its
own items names a base. The result then lists its own items in source order, each as the stack
of its localized chain of bases and its localized definition. -/
theorem resolve_eq_stack (scope : Scope) (locale : Option String) :
    ((∃ resolved, (scope.resolve locale).outcome = .ok resolved) ↔
      scope.BasesRooted ∧ scope.ItemsBased) ∧
    ∀ resolved, (scope.resolve locale).outcome = .ok resolved →
      Entries.Lists Prod.fst (scope.ItemResolves locale) scope.ownItems resolved.entries := by
  refine ⟨⟨?_, ?_⟩, fun resolved h => (resolve_eq_ok_iff.1 h).2⟩
  · rintro ⟨resolved, h⟩
    obtain ⟨hbases, hlists⟩ := resolve_eq_ok_iff.1 h
    refine ⟨hbases, fun item hitem => ?_⟩
    obtain ⟨value, ⟨base, chain, hbase, hname, hchain, -⟩, -⟩ := hlists.exists_value hitem
    exact ⟨base, hbase, hname, hchain.mem_keys⟩
  · rintro ⟨hbases, hitems⟩
    have hkeys : (scope.ownItems.map Prod.fst).Nodup :=
      List.Sublist.nodup (List.filter_sublist.map Prod.fst) scope.items.distinct
    have hvalue : ∀ item ∈ scope.ownItems, ∃ value, scope.ItemResolves locale item value := by
      intro item hitem
      obtain ⟨base, hbase, hname, hmem⟩ := hitems item hitem
      obtain ⟨chain, hchain, -⟩ := hbases base hmem hname
      exact ⟨_, base, chain, hbase, hname, hchain, rfl⟩
    obtain ⟨resolved, hlists⟩ := Entries.exists_lists hkeys hvalue
    exact ⟨resolved, resolve_eq_ok_iff.2 ⟨hbases, hlists⟩⟩

end Scope

/-! ## What layers keep -/

section Layers

variable {P : Definition → Prop} {locale : Option String}

namespace Collection

variable {collection : Collection} {name : String}

theorem overlay?_eq_some {overlay : Definition}
    (h : collection.overlay? locale name = some overlay) :
    ∃ key, collection.get? key = some overlay := by
  obtain ⟨tag, -, hget⟩ := Option.bind_eq_some_iff.1 h
  exact ⟨_, hget⟩

/-- What a merge keeps of its layers, an overlay keeps of the definitions of its collection. -/
theorem localized_of_merge
    (hmerge : ∀ {base layer : Definition}, P base → P layer → P (base.merge layer))
    (h : ∀ entry ∈ collection.entries, P entry.2) {definition : Definition}
    (hdefinition : P definition) : P (collection.localized locale name definition) := by
  unfold localized
  split
  · rename_i overlay hoverlay
    obtain ⟨key, hget⟩ := overlay?_eq_some hoverlay
    exact hmerge hdefinition (h _ (Entries.mem_of_get? hget))
  · exact hdefinition

end Collection

/-- What a merge keeps of its layers, a scope keeps of its definitions. -/
theorem Scope.forall_of_resolve {scope : Scope} {resolved : Collection} (hempty : P [])
    (hmerge : ∀ {base layer : Definition}, P base → P layer → P (base.merge layer))
    (hbases : ∀ entry ∈ scope.bases.entries, P entry.2)
    (hitems : ∀ entry ∈ scope.items.entries, P entry.2)
    (h : (scope.resolve locale).outcome = .ok resolved) :
    ∀ entry ∈ resolved.entries, P entry.2 := by
  intro entry hentry
  obtain ⟨item, hitem, -, base, chain, -, -, hchain, hvalue⟩ :=
    (resolve_eq_ok_iff.1 h).2.exists_thing hentry
  have hlayers : ∀ layer ∈ (chain.map fun entry => scope.bases.localized locale entry.1 entry.2) ++
      [scope.items.localized locale item.1 item.2], P layer := by
    intro layer hlayer
    rcases List.mem_append.1 hlayer with hlayer | hlayer
    · obtain ⟨onChain, hmem, rfl⟩ := List.mem_map.1 hlayer
      exact Collection.localized_of_merge hmerge hbases (hbases _ (hchain.subset _ hmem))
    · rw [List.mem_singleton.1 hlayer]
      exact Collection.localized_of_merge hmerge hitems (hitems _ (List.mem_filter.1 hitem).1)
  rw [hvalue]
  exact List.foldlRecOn _ Definition.merge hempty fun _ hbase layer hlayer =>
    hmerge hbase (hlayers layer hlayer)

end Layers

end Pedigree
