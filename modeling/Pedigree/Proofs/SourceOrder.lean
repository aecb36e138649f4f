import Mathlib.Data.List.Perm.Basic
import Pedigree.Compilation
import Pedigree.Proofs.ItemIndependence
import Pedigree.Proofs.ObjectOrder
import Pedigree.Proofs.OwnEntries
import Pedigree.Proofs.PropertyExtension

/-!
# The order of the sources

Collections list their entries in an order, but look-ups do not depend on it. Each step of a
resolution takes reordered collections to reordered collections and succeeds for both or for
neither : the merge of the items onto their bases (`Scope.Reordered.resolve`), the visits that
write out shorthands and link properties (`OrderedMap.Reordered.sweep`), and so the resolution of
both scopes (`Scope.Reordered.resolveBoth`). The memo of expanded bases is filled in another order,
but what it holds is decided by chains of bases, which are found by look-ups.

`Scope.resolveBoth_reordered` puts this together, with the document of the objects : where no two
orders tie it is the same text.
-/

namespace Pedigree

/-! ## Reordered maps -/

namespace OrderedMap

variable {κ α : Type}

/-- The same entries in another order. -/
def Reordered (m other : OrderedMap κ α) : Prop := other.entries.Perm m.entries

namespace Reordered

variable {m other : OrderedMap κ α}

theorem symm (h : m.Reordered other) : other.Reordered m := List.Perm.symm h

theorem mem_keys_iff (h : m.Reordered other) {key : κ} : key ∈ other.keys ↔ key ∈ m.keys :=
  (List.Perm.map Prod.fst h).mem_iff

theorem get?_eq [DecidableEq κ] (h : m.Reordered other) (key : κ) :
    other.get? key = m.get? key := by
  refine Option.ext fun value => ?_
  constructor
  · exact fun hget => get?_of_mem (h.mem_iff.1 (Entries.mem_of_get? hget))
  · exact fun hget => get?_of_mem (h.mem_iff.2 (Entries.mem_of_get? hget))

/-- Where a visit fails does not matter to whether it fails, and what it leaves at a key does not
depend on the visits before. -/
theorem sweep {visit : κ → α → Logged Failure Unit × α} (h : m.Reordered other)
    (hok : (m.sweep visit).1.outcome = .ok ()) :
    (other.sweep visit).1.outcome = .ok () ∧ (m.sweep visit).2.Reordered (other.sweep visit).2 := by
  have hvisits := Entries.outcome_visit_of_sweep hok
  have hother : (Entries.sweep visit other.entries).1.outcome = .ok () := by
    rw [← Logged.failure?_eq_none_iff, Entries.failure?_sweep, List.findSome?_eq_none_iff]
    exact fun entry hentry =>
      Logged.failure?_eq_none_iff.2 (hvisits entry (h.mem_iff.1 hentry))
  refine ⟨hother, ?_⟩
  change (Entries.sweep visit other.entries).2.Perm (Entries.sweep visit m.entries).2
  rw [Entries.snd_sweep hother, Entries.snd_sweep hok]
  exact List.Perm.map _ h

end Reordered

end OrderedMap

/-! ## Reordered scopes -/

namespace Scope

/-- The same bases and the same items, each in another order. -/
structure Reordered (scope other : Scope) : Prop where
  bases : scope.bases.Reordered other.bases
  items : scope.items.Reordered other.items

namespace Reordered

variable {scope other : Scope} {locale : Option String}

theorem symm (h : scope.Reordered other) : other.Reordered scope := ⟨h.bases.symm, h.items.symm⟩

theorem ownItems (h : scope.Reordered other) : other.ownItems.Perm scope.ownItems := by
  unfold Scope.ownItems
  rw [Collection.isOverlay_congr fun n => h.items.mem_keys_iff]
  exact List.Perm.filter _ h.items

theorem sameAt {collection reordered : Collection} (h : collection.Reordered reordered)
    (locale : Option String) (name : String) : collection.SameAt locale reordered name where
  definition := h.get?_eq name
  overlay := by
    unfold Collection.overlay?
    cases locale with
    | none => rfl
    | some locale => exact h.get?_eq (overlayName name locale)

/-- A reordered scope resolves as well, to the same definitions. -/
theorem resolve (h : scope.Reordered other) {resolved : Collection}
    (hok : (scope.resolve locale).outcome = .ok resolved) :
    ∃ resolved', (other.resolve locale).outcome = .ok resolved' ∧
      resolved.Reordered resolved' := by
  obtain ⟨hrooted, hlists⟩ := resolve_eq_ok_iff.1 hok
  obtain ⟨entries, hentries, hperm⟩ := List.perm_comp_forall₂ h.ownItems hlists
  refine ⟨resolved.reorder entries hperm, resolve_eq_ok_iff.2 ⟨basesRooted_iff.2 ?_, ?_⟩, hperm⟩
  · intro name hname hbase
    obtain ⟨chain, hchain, -⟩ := hrooted name (h.bases.mem_keys_iff.1 hname) hbase
    exact ⟨chain, hchain.congr fun entry _ => sameAt h.bases none entry.1⟩
  · refine List.Forall₂.imp ?_ hentries
    rintro item ⟨name, value⟩ ⟨hname, hvalue⟩
    exact ⟨hname, hvalue.congr (sameAt h.items locale item.1).overlay
      fun _ _ _ _ entry _ => sameAt h.bases locale entry.1⟩

end Reordered

/-! ## What a result lists -/

/-- The names in a result are those of the items that are no overlays. -/
theorem keys_of_resolve {scope : Scope} {locale : Option String} {resolved : Collection}
    (h : (scope.resolve locale).outcome = .ok resolved) :
    resolved.keys = Entries.keys scope.ownItems := by
  rw [OrderedMap.keys, (resolve_eq_ok_iff.1 h).2.keys_eq, Entries.keys]

/-- Writing out shorthands does not make an item an overlay, or an overlay an item. -/
theorem keys_ownItems_writtenOut (scope : Scope) :
    Entries.keys scope.writtenOut.ownItems = Entries.keys scope.ownItems := by
  have hkeys : scope.writtenOut.items.keys = scope.items.keys :=
    OrderedMap.keys_sweep Definition.normalize scope.items
  have hoverlay : scope.writtenOut.items.isOverlay = scope.items.isOverlay :=
    Collection.isOverlay_congr fun name => by rw [hkeys]
  change Entries.keys scope.writtenOut.items.own = Entries.keys scope.items.own
  rw [Collection.keys_own, Collection.keys_own, hkeys, hoverlay]

theorem keys_of_resolveObjects {globals linked : Collection} {objects : Scope}
    {locale : Option String} (h : (resolveObjects globals objects locale).outcome = .ok linked) :
    linked.keys = Entries.keys objects.ownItems := by
  obtain ⟨-, -, merged, hmerged, -, rfl⟩ := resolveObjects_eq_ok_iff.1 h
  calc (Collection.link globals merged).2.keys
    _ = merged.keys := OrderedMap.keys_sweep (Definition.link globals) merged
    _ = Entries.keys objects.writtenOut.ownItems := keys_of_resolve hmerged
    _ = Entries.keys objects.ownItems := keys_ownItems_writtenOut objects

end Scope

/-! ## Linked objects -/

/-- Linking reads the global definitions by look-up. -/
theorem Collection.link_congr {globals globals' : Collection}
    (h : ∀ name, globals'.get? name = globals.get? name) : link globals' = link globals := by
  have hproperty :
      Definition.link.linkProperty globals' = Definition.link.linkProperty globals := by
    funext object property override
    rw [Definition.link.linkProperty, h, Definition.link.linkProperty]
  have hobject : Definition.link globals' = Definition.link globals := by
    funext name object
    rw [Definition.link, hproperty, Definition.link]
  funext objects
  rw [link, hobject, link]

/-- The same definitions, each collection in another order. -/
structure Resolved.Reordered (resolved other : Resolved) : Prop where
  properties : resolved.properties.Reordered other.properties
  objects : resolved.objects.Reordered other.objects

namespace Scope

namespace Reordered

variable {scope other properties properties' objects objects' : Scope}
  {globals globals' : Collection} {locale : Option String}

theorem writtenOut (h : scope.Reordered other) (hbases : scope.bases.normalize.1.outcome = .ok ())
    (hitems : scope.items.normalize.1.outcome = .ok ()) :
    scope.writtenOut.Reordered other.writtenOut :=
  ⟨(h.bases.sweep hbases).2, (h.items.sweep hitems).2⟩

/-- Reordered objects resolve as well against reordered properties, to the same definitions. -/
theorem resolveObjects (hglobals : globals.Reordered globals') (h : objects.Reordered objects')
    {linked : Collection} (hok : (resolveObjects globals objects locale).outcome = .ok linked) :
    ∃ linked', (Scope.resolveObjects globals' objects' locale).outcome = .ok linked' ∧
      linked.Reordered linked' := by
  obtain ⟨hbases, hitems, merged, hmerged, hlink, rfl⟩ := resolveObjects_eq_ok_iff.1 hok
  obtain ⟨merged', hmerged', hmergedOrder⟩ := (h.writtenOut hbases hitems).resolve hmerged
  obtain ⟨hlink', hlinked⟩ := hmergedOrder.sweep hlink
  have hcongr : Collection.link globals' merged' = Collection.link globals merged' :=
    congrFun (Collection.link_congr hglobals.get?_eq) merged'
  refine ⟨(Collection.link globals' merged').2, resolveObjects_eq_ok_iff.2
    ⟨(h.bases.sweep hbases).1, (h.items.sweep hitems).1, merged', hmerged', ?_, rfl⟩, ?_⟩
  · rw [hcongr]
    exact hlink'
  · rw [hcongr]
    exact hlinked

/-- Reordered scopes resolve as well, to the same definitions. -/
theorem resolveBoth (hproperties : properties.Reordered properties')
    (hobjects : objects.Reordered objects') {resolved : Resolved}
    (hok : (resolveBoth properties objects locale).outcome = .ok resolved) :
    ∃ resolved', (Scope.resolveBoth properties' objects' locale).outcome = .ok resolved' ∧
      resolved.Reordered resolved' := by
  obtain ⟨hglobals, hlinked⟩ := resolveBoth_eq_ok_iff.1 hok
  obtain ⟨globals', hglobals', hglobalsOrder⟩ := hproperties.resolve hglobals
  obtain ⟨linked', hlinked', hlinkedOrder⟩ := hobjects.resolveObjects hglobalsOrder hlinked
  exact ⟨⟨globals', linked'⟩, resolveBoth_eq_ok_iff.2 ⟨hglobals', hlinked'⟩,
    hglobalsOrder, hlinkedOrder⟩

end Reordered

end Scope

namespace Resolved

theorem render_eq_ok_iff {resolved : Resolved} {indent : Nat} {documents : Documents} :
    resolved.render indent = .ok documents ↔
      ∃ sorted, resolved.objects.sortByOrder = .ok sorted ∧
        documents = ⟨Json.pretty indent resolved.properties.toValue,
          Json.pretty indent sorted.toValue⟩ := by
  rw [render, bind_eq_ok_iff]
  constructor
  · rintro ⟨sorted, hsorted, h⟩
    exact ⟨sorted, hsorted, (Except.ok.inj h).symm⟩
  · rintro ⟨sorted, hsorted, rfl⟩
    exact ⟨sorted, hsorted, rfl⟩

/-- Where no two orders tie, the document of the objects does not show their source order. -/
theorem Reordered.render {resolved other : Resolved} (h : resolved.Reordered other)
    (hdiffer : resolved.objects.OrdersDiffer) {indent : Nat} {documents : Documents}
    (hok : resolved.render indent = .ok documents) :
    ∃ documents', other.render indent = .ok documents' ∧
      documents'.objects = documents.objects := by
  obtain ⟨sorted, hsorted, rfl⟩ := render_eq_ok_iff.1 hok
  have hother := Collection.sortByOrder_of_perm h.objects hdiffer hsorted
  exact ⟨_, render_eq_ok_iff.2 ⟨sorted, hother, rfl⟩, rfl⟩

end Resolved

namespace Scope

variable {properties properties' objects objects' : Scope}

/-- In whatever order the sources are listed, both scopes resolve or neither does, and to the same
definitions, which are listed as the items are. The document of the objects is the same text if
no two orders tie. -/
theorem resolveBoth_reordered (hproperties : properties.Reordered properties')
    (hobjects : objects.Reordered objects') (locale : Option String) :
    ((∃ resolved, (resolveBoth properties objects locale).outcome = .ok resolved) ↔
      ∃ resolved', (resolveBoth properties' objects' locale).outcome = .ok resolved') ∧
    ∀ resolved resolved', (resolveBoth properties objects locale).outcome = .ok resolved →
      (resolveBoth properties' objects' locale).outcome = .ok resolved' →
        resolved.Reordered resolved' ∧
        (resolved.properties.keys = Entries.keys properties.ownItems ∧
          resolved.objects.keys = Entries.keys objects.ownItems) ∧
        (resolved'.properties.keys = Entries.keys properties'.ownItems ∧
          resolved'.objects.keys = Entries.keys objects'.ownItems) ∧
        (resolved.objects.OrdersDiffer →
          ∀ indent documents, resolved.render indent = .ok documents →
            ∃ documents', resolved'.render indent = .ok documents' ∧
              documents'.objects = documents.objects) := by
  refine ⟨⟨?_, ?_⟩, ?_⟩
  · rintro ⟨resolved, hok⟩
    exact (hproperties.resolveBoth hobjects hok).imp fun _ => And.left
  · rintro ⟨resolved', hok'⟩
    exact (hproperties.symm.resolveBoth hobjects.symm hok').imp fun _ => And.left
  · intro resolved resolved' hok hok'
    obtain ⟨other, hother, hreordered⟩ := hproperties.resolveBoth hobjects hok
    obtain rfl : other = resolved' := Except.ok.inj (hother.symm.trans hok')
    obtain ⟨hglobals, hlinked⟩ := resolveBoth_eq_ok_iff.1 hok
    obtain ⟨hglobals', hlinked'⟩ := resolveBoth_eq_ok_iff.1 hok'
    exact ⟨hreordered, ⟨keys_of_resolve hglobals, keys_of_resolveObjects hlinked⟩,
      ⟨keys_of_resolve hglobals', keys_of_resolveObjects hlinked'⟩,
      fun hdiffer _ _ hrender => hreordered.render hdiffer hrender⟩

/-! ## Sources in reverse -/

/-- The scope with both collections listed from the last entry to the first. -/
def reversed (scope : Scope) : Scope where
  bases := scope.bases.reorder scope.bases.entries.reverse (List.reverse_perm _)
  items := scope.items.reorder scope.items.entries.reverse (List.reverse_perm _)

theorem reordered_reversed (scope : Scope) : scope.Reordered scope.reversed :=
  ⟨List.reverse_perm _, List.reverse_perm _⟩

/-- Two properties, one of them on a base of its own. -/
def meterProperties : Scope where
  bases := ⟨[("default", [("base", .null)]),
    ("analog", [("base", .string "default"), ("unit", .string "volt")])], by decide⟩
  items := ⟨[("gain", [("base", .string "analog")]), ("state", [("base", .string "default")])],
    by decide⟩

/-- Two objects, of which the first comes first by its order. -/
def meterObjects : Scope where
  bases := ⟨[("default", [("base", .null)]),
    ("analog", [("base", .string "default"),
      ("properties", .mapping [("gain", .bool true)])])], by decide⟩
  items := ⟨[("input", [("base", .string "analog"), ("order", .string "a")]),
    ("output", [("base", .string "default"), ("order", .string "b")])], by decide⟩

/-- The objects in full, before their properties are linked. -/
def meterMerged : Collection :=
  ⟨[("input", [("base", .string "analog"),
      ("properties", .mapping [("gain", .mapping [("content", .bool true)])]),
      ("order", .string "a")]),
    ("output", [("base", .string "default"), ("order", .string "b")])], by decide⟩

/-- What they resolve to. -/
def meterResolved : Resolved where
  properties := ⟨[("gain", [("base", .string "analog"), ("unit", .string "volt")]),
    ("state", [("base", .string "default")])], by decide⟩
  objects := ⟨[("input", [("base", .string "analog"),
      ("properties", .mapping [("gain", .mapping [("base", .string "analog"),
        ("unit", .string "volt"), ("content", .bool true)])]), ("order", .string "a")]),
    ("output", [("base", .string "default"), ("order", .string "b")])], by decide⟩

theorem resolve_meterProperties :
    (meterProperties.resolve none).outcome = .ok meterResolved.properties := by
  have hdefault : meterProperties.bases.BaseChain "default" _ := .root rfl (Or.inr rfl)
  have hanalog : meterProperties.bases.BaseChain "analog" _ := .step rfl rfl (by decide) hdefault
  have hkeys : meterProperties.bases.keys = ["default", "analog"] := rfl
  have hown : meterProperties.ownItems = meterProperties.items.entries :=
    List.filter_eq_self.2 (by decide)
  refine resolve_eq_ok_iff.2 ⟨basesRooted_iff.2 ?_, ?_⟩
  · rw [hkeys, List.forall_mem_cons, List.forall_mem_singleton]
    exact ⟨fun _ => ⟨_, hdefault⟩, fun _ => ⟨_, hanalog⟩⟩
  · rw [hown]
    exact .cons ⟨rfl, "analog", _, rfl, by decide, hanalog, rfl⟩
      (.cons ⟨rfl, "default", _, rfl, by decide, hdefault, rfl⟩ .nil)

theorem resolveObjects_meterObjects :
    (resolveObjects meterResolved.properties meterObjects none).outcome =
      .ok meterResolved.objects := by
  have hdefault : meterObjects.writtenOut.bases.BaseChain "default" _ := .root rfl (Or.inr rfl)
  have hanalog : meterObjects.writtenOut.bases.BaseChain "analog" _ :=
    .step rfl rfl (by decide) hdefault
  have hkeys : meterObjects.writtenOut.bases.keys = ["default", "analog"] := rfl
  have hown : meterObjects.writtenOut.ownItems = meterObjects.items.entries :=
    List.filter_eq_self.2 (by decide)
  refine resolveObjects_eq_ok_iff.2 ⟨rfl, rfl, meterMerged, ?_, rfl, rfl⟩
  refine resolve_eq_ok_iff.2 ⟨basesRooted_iff.2 ?_, ?_⟩
  · rw [hkeys, List.forall_mem_cons, List.forall_mem_singleton]
    exact ⟨fun _ => ⟨_, hdefault⟩, fun _ => ⟨_, hanalog⟩⟩
  · rw [hown]
    exact .cons ⟨rfl, "analog", _, rfl, by decide, hanalog, rfl⟩
      (.cons ⟨rfl, "default", _, rfl, by decide, hdefault, rfl⟩ .nil)

theorem resolveBoth_meter :
    (resolveBoth meterProperties meterObjects none).outcome = .ok meterResolved :=
  resolveBoth_eq_ok_iff.2 ⟨resolve_meterProperties, resolveObjects_meterObjects⟩

/-- The objects come by their order already, so sorting leaves them where they are. -/
theorem sortByOrder_meterResolved :
    meterResolved.objects.sortByOrder = .ok meterResolved.objects := by
  refine Collection.sortByOrder_eq_ok_iff.2 ⟨[⟨.text "a", _⟩, ⟨.text "b", _⟩],
    .cons ⟨rfl, rfl⟩ (.cons ⟨rfl, rfl⟩ .nil), by simp [Ranked.OneKind, OrderKey.kind], ?_⟩
  rw [List.mergeSort_of_pairwise]
  · rfl
  · exact List.pairwise_pair.2 ((OrderKey.le_text "a" "b").2 (by decide))

theorem ordersDiffer_meterResolved : meterResolved.objects.OrdersDiffer := by
  have htext : ¬(OrderKey.text "b").le (.text "a") = true := by decide
  intro a ha b hb hne x y hx hy htied
  simp only [meterResolved, List.mem_cons, List.not_mem_nil, or_false] at ha hb
  rcases ha with rfl | rfl <;> rcases hb with rfl | rfl
  · exact hne rfl
  · cases hx
    cases hy
    exact htext htied.2
  · cases hx
    cases hy
    exact htext htied.1
  · exact hne rfl

theorem resolveBoth_reordered_meter :
    (resolveBoth meterProperties meterObjects none).outcome = .ok meterResolved ∧
    ∃ resolved', (resolveBoth meterProperties.reversed meterObjects.reversed none).outcome =
        .ok resolved' ∧
      meterResolved.Reordered resolved' ∧ resolved'.objects.keys = ["output", "input"] ∧
      meterResolved.objects.OrdersDiffer ∧
      ∃ documents documents', meterResolved.render 4 = .ok documents ∧
        resolved'.render 4 = .ok documents' ∧ documents'.objects = documents.objects := by
  obtain ⟨hiff, hresults⟩ := resolveBoth_reordered (reordered_reversed meterProperties)
    (reordered_reversed meterObjects) none
  obtain ⟨resolved', hresolved'⟩ := hiff.1 ⟨_, resolveBoth_meter⟩
  obtain ⟨hreordered, -, ⟨-, hkeys⟩, hrender⟩ := hresults _ _ resolveBoth_meter hresolved'
  have hdocuments : meterResolved.render 4 = .ok _ :=
    Resolved.render_eq_ok_iff.2 ⟨_, sortByOrder_meterResolved, rfl⟩
  obtain ⟨documents', hdocuments', hsame⟩ :=
    hrender ordersDiffer_meterResolved 4 _ hdocuments
  exact ⟨resolveBoth_meter, resolved', hresolved', hreordered, hkeys, ordersDiffer_meterResolved,
    _, documents', hdocuments, hdocuments', hsame⟩

end Scope

end Pedigree
