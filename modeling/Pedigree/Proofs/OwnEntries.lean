import Pedigree.Proofs.ExpansionHistory
import Pedigree.Proofs.ScopeResolution

/-!
# What a resolution reads

A resolution reads the entries of a collection that are no overlays (`Collection.own`), and of the
overlays only those of these entries for the locale. Two collections with the same own entries and
the same overlays for them (`Collection.SameOwn`) cannot be told apart : an expander over the one
goes through the same calls as over the other (`Expander.expand_withBases`), and two such scopes
resolve alike, failures and log included (`Scope.resolve_congr`).

What a scope fails with is read off its expanded bases and its own items as they were written
(`Scope.failure?_resolve`). No overlay of an item has a part in it.
-/

namespace Pedigree

/-! ## Own entries -/

namespace Collection

/-- The entries that are no overlays, in source order. -/
def own (collection : Collection) : Entries String Definition :=
  collection.entries.filter fun entry => !collection.isOverlay entry.1

/-- The own entries are the same, and so are their overlays for the locale. -/
structure SameOwn (locale : Option String) (collection other : Collection) : Prop where
  own : other.own = collection.own
  overlays : ∀ entry ∈ collection.own,
    other.overlay? locale entry.1 = collection.overlay? locale entry.1

variable {collection other : Collection} {locale : Option String} {name : String}

theorem get?_own (h : collection.isOverlay name = false) :
    Entries.get? name collection.own = collection.get? name :=
  Entries.get?_filter_of_keep (fun n => !collection.isOverlay n) (by simp [h]) _

theorem keys_own (collection : Collection) :
    Entries.keys collection.own = collection.keys.filter fun n => !collection.isOverlay n :=
  Entries.keys_filter (fun n => !collection.isOverlay n) collection.entries

theorem mem_own_iff {entry : String × Definition} :
    entry ∈ collection.own ↔ entry ∈ collection.entries ∧ collection.isOverlay entry.1 = false := by
  rw [own, List.mem_filter, Bool.not_eq_true']

theorem mem_own_of_isBaseName {definition : Definition} (hname : isBaseName name = true)
    (hget : collection.get? name = some definition) : (name, definition) ∈ collection.own :=
  mem_own_iff.2 ⟨Entries.mem_of_get? hget, collection.isOverlay_eq_false_of_isBaseName hname⟩

namespace SameOwn

/-- Bases are found alike, since no base has the name of an overlay. -/
theorem get?_eq (h : SameOwn locale collection other) (hname : isBaseName name = true) :
    other.get? name = collection.get? name := by
  rw [← get?_own (other.isOverlay_eq_false_of_isBaseName hname), h.own,
    get?_own (collection.isOverlay_eq_false_of_isBaseName hname)]

/-- A base may be referred to in both or in neither. -/
theorem isBaseName_and_contains (h : SameOwn locale collection other) (name : String) :
    (isBaseName name && other.contains name) = (isBaseName name && collection.contains name) := by
  cases hname : isBaseName name with
  | false => rfl
  | true => exact congrArg Option.isSome (h.get?_eq hname)

end SameOwn

end Collection

/-! ## Expanding -/

namespace Expander

/-- The same expander over other bases. -/
def withBases (e : Expander) (bases : Collection) : Expander := { e with bases }

variable {e : Expander} {other : Collection} {name : String}

theorem bases_withBases (e : Expander) (other : Collection) : (e.withBases other).bases = other :=
  rfl

theorem enter_withBases (e : Expander) (other : Collection) (name : String) :
    (e.withBases other).enter name = (e.enter name).withBases other := rfl

theorem finish_withBases (h : e.bases.SameOwn e.locale other) {definition : Definition}
    (hmem : (name, definition) ∈ e.bases.own) (parent : Definition) :
    (e.withBases other).finish name definition parent =
      ((e.finish name definition parent).1,
        (e.finish name definition parent).2.withBases other) := by
  have hoverlay := h.overlays _ hmem
  simp only [finish, withBases, Collection.localized_congr hoverlay,
    Collection.localize_congr hoverlay]
  rfl

/-- A call over bases that cannot be told apart does the same. -/
theorem expand_withBases (hvalid : e.Valid) (h : e.bases.SameOwn e.locale other)
    (hname : isBaseName name = true) :
    (e.withBases other).expand name = ((e.expand name).1, (e.expand name).2.withBases other) := by
  fun_induction expand e name with
  | case1 e name definition hmemo => exact expand_of_done hmemo
  | case2 e name hmemo => exact expand_of_inProgress (e := e.withBases other) hmemo
  | case3 e name hmemo hget =>
    exact expand_of_unknown (e := e.withBases other) hmemo ((h.get?_eq hname).trans hget)
  | case4 e name hmemo definition hget failure href =>
    rw [expand_of_unmarked (e := e.withBases other) hmemo ((h.get?_eq hname).trans hget), href]
    rfl
  | case5 e definition hmemo hget href =>
    rw [expand_of_unmarked (e := e.withBases other) hmemo ((h.get?_eq hname).trans hget), href]
    exact finish_withBases (e := e.enter defaultBase) h
      (Collection.mem_own_of_isBaseName hname hget) []
  | case6 e name hmemo definition hget href hroot =>
    rw [expand_of_unmarked (e := e.withBases other) hmemo ((h.get?_eq hname).trans hget), href]
    simp only [hroot, if_false]
    rfl
  | case7 e name hmemo definition hget base href hbase failure log inner hinner ih =>
    have hover := ih (hvalid.enter hmemo (OrderedMap.mem_keys_of_get? hget)) h
      (Bool.and_eq_true_iff.1 hbase).1
    rw [expand_of_unmarked (e := e.withBases other) hmemo ((h.get?_eq hname).trans hget), href]
    simp only [bases_withBases, h.isBaseName_and_contains, hbase, if_true, enter_withBases, hover,
      hinner]
  | case8 e name hmemo definition hget base href hbase parent log inner hinner result after
      hfinish ih =>
    have henter := hvalid.enter hmemo (OrderedMap.mem_keys_of_get? hget)
    have hover := ih henter h (Bool.and_eq_true_iff.1 hbase).1
    have hanswers := henter.expand_answers base
    rw [hinner] at hanswers
    have hbases : inner.bases = e.bases := hanswers.bases
    have hlocale : inner.locale = e.locale := hanswers.locale
    have hinnerSame : inner.bases.SameOwn inner.locale other := hbases ▸ hlocale ▸ h
    have hfinish' := finish_withBases hinnerSame
      (hbases ▸ Collection.mem_own_of_isBaseName hname hget) parent
    rw [expand_of_unmarked (e := e.withBases other) hmemo ((h.get?_eq hname).trans hget), href]
    simp only [bases_withBases, h.isBaseName_and_contains, hbase, if_true, enter_withBases, hover,
      hinner, hfinish', hfinish]
  | case9 e name hmemo definition hget base href hbase =>
    rw [expand_of_unmarked (e := e.withBases other) hmemo ((h.get?_eq hname).trans hget), href]
    simp only [bases_withBases, h.isBaseName_and_contains, hbase, enter_withBases]
    rfl

/-- The loop over the bases passes overlays by. -/
theorem expandNames_filter (hvalid : e.Valid) (expanded : Collection) (names : List String) :
    e.expandNames expanded (names.filter fun n => !e.bases.isOverlay n) =
      e.expandNames expanded names := by
  induction names generalizing e expanded with
  | nil => rfl
  | cons name rest ih =>
    cases hoverlay : e.bases.isOverlay name with
    | true =>
      rw [List.filter_cons_of_neg (by simp [hoverlay]), ih hvalid, expandNames, hoverlay,
        if_pos rfl]
    | false =>
      have hanswers := hvalid.expand_answers name
      rw [List.filter_cons_of_pos (by simp [hoverlay]), expandNames, expandNames, hoverlay]
      rcases hexpand : e.expand name with ⟨answer, after⟩
      rw [hexpand] at hanswers
      have hbases : after.bases = e.bases := hanswers.bases
      have hrest := fun definition => ih hanswers.valid (expanded.insert name definition)
      rw [hbases] at hrest
      simp only [ih hvalid, hrest]

theorem expandNames_withBases (hvalid : e.Valid) (h : e.bases.SameOwn e.locale other)
    (expanded : Collection) {names : List String}
    (hown : ∀ n ∈ names, e.bases.isOverlay n = false ∧ other.isOverlay n = false) :
    (e.withBases other).expandNames expanded names = e.expandNames expanded names := by
  induction names generalizing e expanded with
  | nil => rfl
  | cons name rest ih =>
    obtain ⟨⟨hfirst, hfirst'⟩, hrest⟩ := List.forall_mem_cons.1 hown
    rw [expandNames, expandNames, bases_withBases, hfirst, hfirst']
    by_cases hname : isBaseName name = true
    · have hanswers := hvalid.expand_answers name
      rw [expand_withBases hvalid h hname]
      rcases hexpand : e.expand name with ⟨answer, after⟩
      rw [hexpand] at hanswers
      have hbases : after.bases = e.bases := hanswers.bases
      have hlocale : after.locale = e.locale := hanswers.locale
      have hafter := fun definition => ih hanswers.valid (hbases ▸ hlocale ▸ h)
        (expanded.insert name definition) (hbases ▸ hrest)
      simp only [Bool.false_eq_true, if_false, hname, if_true, hafter]
    · simp only [Bool.false_eq_true, if_false, hname, ih hvalid h expanded hrest]

/-- All bases expand alike in collections that cannot be told apart. -/
theorem expandAll_congr {bases : Collection} {locale : Option String}
    (h : bases.SameOwn locale other) :
    (new other locale).expandAll = (new bases locale).expandAll := by
  have hown : ∀ n ∈ bases.keys.filter (fun n => !bases.isOverlay n),
      bases.isOverlay n = false ∧ other.isOverlay n = false := by
    intro n hn
    have hn' : n ∈ other.keys.filter fun n => !other.isOverlay n := by
      rwa [← Collection.keys_own, h.own, Collection.keys_own]
    exact ⟨by simpa using (List.mem_filter.1 hn).2, by simpa using (List.mem_filter.1 hn').2⟩
  calc (new other locale).expandNames .empty other.keys
      = (new other locale).expandNames .empty (other.keys.filter fun n => !other.isOverlay n) :=
        (expandNames_filter (valid_new other locale) .empty other.keys).symm
    _ = ((new bases locale).withBases other).expandNames .empty
          (bases.keys.filter fun n => !bases.isOverlay n) := by
        rw [← Collection.keys_own, h.own, Collection.keys_own]
        rfl
    _ = (new bases locale).expandNames .empty (bases.keys.filter fun n => !bases.isOverlay n) :=
        expandNames_withBases (valid_new bases locale) h .empty hown
    _ = (new bases locale).expandNames .empty bases.keys :=
        expandNames_filter (valid_new bases locale) .empty bases.keys

end Expander

/-! ## Resolving -/

namespace Scope

variable {scope other : Scope} {locale : Option String}

/-- The loop over the items passes overlays by. -/
theorem resolveItems_filter (scope : Scope) (locale : Option String)
    (expanded resolved : Collection) (items : Entries String Definition) :
    scope.resolveItems locale expanded resolved
        (items.filter fun item => !scope.items.isOverlay item.1) =
      scope.resolveItems locale expanded resolved items := by
  induction items generalizing resolved with
  | nil => rfl
  | cons item rest ih =>
    obtain ⟨name, definition⟩ := item
    cases hoverlay : scope.items.isOverlay name with
    | true =>
      rw [List.filter_cons_of_neg (by simp [hoverlay]), ih, resolveItems, hoverlay, if_pos rfl]
    | false =>
      rw [List.filter_cons_of_pos (by simp [hoverlay]), resolveItems, resolveItems]
      simp only [ih]

theorem resolveItems_congr (h : scope.items.SameOwn locale other.items)
    (expanded resolved : Collection) {items : Entries String Definition}
    (hown : ∀ item ∈ items, item ∈ scope.ownItems) :
    other.resolveItems locale expanded resolved items =
      scope.resolveItems locale expanded resolved items := by
  induction items generalizing resolved with
  | nil => rfl
  | cons item rest ih =>
    obtain ⟨name, definition⟩ := item
    obtain ⟨hitem, hrest⟩ := List.forall_mem_cons.1 hown
    have hitem' : (name, definition) ∈ other.items.own := h.own ▸ hitem
    have hoverlay : scope.items.isOverlay name = false := (Collection.mem_own_iff.1 hitem).2
    have hoverlay' : other.items.isOverlay name = false := (Collection.mem_own_iff.1 hitem').2
    have hresolve : other.resolveItem locale expanded name definition =
        scope.resolveItem locale expanded name definition := by
      unfold resolveItem
      rw [Collection.localize_congr (h.overlays _ hitem)]
    rw [resolveItems, resolveItems, hoverlay, hoverlay', hresolve]
    simp only [ih _ hrest]

/-- Scopes that cannot be told apart resolve alike, failures and log included. -/
theorem resolve_congr (hbases : scope.bases.SameOwn locale other.bases)
    (hitems : scope.items.SameOwn locale other.items) :
    other.resolve locale = scope.resolve locale := by
  have hloop : ∀ expanded, other.resolveItems locale expanded .empty other.items.entries =
      scope.resolveItems locale expanded .empty scope.items.entries := by
    intro expanded
    calc other.resolveItems locale expanded .empty other.items.entries
        = other.resolveItems locale expanded .empty other.items.own :=
          (resolveItems_filter ..).symm
      _ = scope.resolveItems locale expanded .empty scope.items.own := by
          rw [hitems.own]
          exact resolveItems_congr hitems expanded .empty fun item hitem => hitem
      _ = scope.resolveItems locale expanded .empty scope.items.entries := resolveItems_filter ..
  unfold resolve
  simp only [Expander.expandAll_congr hbases, hloop]

/-! ## Failing -/

/-- What is wrong with the base that an item names. -/
def itemFailure? (expanded : Collection) (item : String × Definition) : Option Failure :=
  match Definition.baseReference item.1 item.2 with
  | .error failure => some failure
  | .ok none => some (.missingBase item.1)
  | .ok (some base) => if expanded.contains base then none else some (.unknownBase item.1 base)

theorem failure?_resolveItem (scope : Scope) (locale : Option String) (expanded : Collection)
    (name : String) (definition : Definition) :
    (scope.resolveItem locale expanded name definition).failure? =
      itemFailure? expanded (name, definition) := by
  unfold resolveItem itemFailure?
  rw [Logged.failure?_bind, Logged.outcome_ofExcept]
  rcases Definition.baseReference name definition with failure | _ | base
  · rfl
  · rfl
  · have hcontains : expanded.contains base = (expanded.get? base).isSome := rfl
    dsimp only
    rw [hcontains]
    cases expanded.get? base with
    | none => rfl
    | some parent =>
      dsimp only
      rw [Logged.failure?_bind, Collection.outcome_localize]
      rfl

/-- The loop over the items fails with the first own item that names no expanded base. -/
theorem failure?_resolveItems (scope : Scope) (locale : Option String)
    (expanded resolved : Collection) (items : Entries String Definition) :
    (scope.resolveItems locale expanded resolved items).failure? =
      (items.filter fun item => !scope.items.isOverlay item.1).findSome?
        (itemFailure? expanded) := by
  induction items generalizing resolved with
  | nil => rfl
  | cons item rest ih =>
    obtain ⟨name, definition⟩ := item
    rw [resolveItems]
    cases hoverlay : scope.items.isOverlay name with
    | true =>
      rw [if_pos rfl, List.filter_cons_of_neg (by simp [hoverlay]), ih]
    | false =>
      rw [if_neg Bool.false_ne_true, List.filter_cons_of_pos (by simp [hoverlay]),
        List.findSome?_cons, Logged.failure?_bind, ← failure?_resolveItem scope locale]
      unfold Logged.failure?
      cases (scope.resolveItem locale expanded name definition).outcome with
      | error failure => rfl
      | ok value => exact ih _

/-- A resolution fails with its bases, or with the first own item that names no expanded base. -/
theorem failure?_resolve (scope : Scope) (locale : Option String) :
    (scope.resolve locale).failure? =
      match (Expander.new scope.bases locale).expandAll.outcome with
      | .error failure => some failure
      | .ok expanded => scope.ownItems.findSome? (itemFailure? expanded) := by
  unfold resolve
  rw [Logged.failure?_bind]
  cases (Expander.new scope.bases locale).expandAll.outcome with
  | error failure => rfl
  | ok expanded =>
    dsimp only
    rw [ownItems, ← failure?_resolveItems scope locale expanded .empty, Logged.failure?_bind]
    unfold Logged.failure?
    cases (scope.resolveItems locale expanded .empty scope.items.entries).outcome <;> rfl

end Scope

end Pedigree
