import Pedigree.Proofs.ScopeResolution

/-!
# What an item depends on

What an item resolves to is a stack of layers, and each layer is read at one name : the bases of
its chain, the item itself, and the overlays of these. So two scopes that are the same at these
names agree on the item (`Scope.ItemResolves.congr`), whatever else they hold and in which order
they list it. `Scope.resolve_item_congr` says so of two resolutions as they were run.
-/

namespace Pedigree

namespace Collection

/-- The definition of a name and its overlay for the locale are the same in both collections. -/
structure SameAt (locale : Option String) (collection other : Collection) (name : String) :
    Prop where
  definition : other.get? name = collection.get? name
  overlay : other.overlay? locale name = collection.overlay? locale name

variable {other : Collection} {locale : Option String} {name : String}

/-- A chain of bases is read at its own names only. -/
theorem BaseChain.congr {bases : Collection} {chain : Entries String Definition}
    (h : bases.BaseChain name chain) (hsame : ∀ entry ∈ chain, SameAt locale bases other entry.1) :
    other.BaseChain name chain := by
  induction h with
  | root hget hroot =>
    exact .root ((hsame _ (List.mem_singleton_self _)).definition.trans hget) hroot
  | @step name base definition chain hget hbase hname hchain ih =>
    obtain ⟨hupper, hlast⟩ := List.forall_mem_append.1 hsame
    exact .step ((hlast _ (List.mem_singleton_self _)).definition.trans hget) hbase hname
      (ih hupper)

end Collection

namespace Scope

variable {scope other : Scope} {locale : Option String} {item : String × Definition}
  {value : Definition}

/-- A scope gives an item at most one meaning. -/
theorem ItemResolves.unique {value' : Definition} (h : scope.ItemResolves locale item value)
    (h' : scope.ItemResolves locale item value') : value = value' := by
  obtain ⟨base, chain, hbase, -, hchain, rfl⟩ := h
  obtain ⟨base', chain', hbase', -, hchain', rfl⟩ := h'
  obtain rfl := Value.string.inj (Option.some.inj (hbase.symm.trans hbase'))
  rw [hchain.unique hchain']

/-- An item resolves to the same where its overlay and the bases of its chain are the same. -/
theorem ItemResolves.congr (h : scope.ItemResolves locale item value)
    (hitem : other.items.overlay? locale item.1 = scope.items.overlay? locale item.1)
    (hchain : ∀ base chain, Entries.get? baseKey item.2 = some (.string base) →
      scope.bases.BaseChain base chain →
        ∀ entry ∈ chain, scope.bases.SameAt locale other.bases entry.1) :
    other.ItemResolves locale item value := by
  obtain ⟨base, chain, hbase, hname, hscope, rfl⟩ := h
  have hsame := hchain base chain hbase hscope
  have hlayers : (chain.map fun entry => scope.bases.localized locale entry.1 entry.2) =
      chain.map fun entry => other.bases.localized locale entry.1 entry.2 :=
    List.map_congr_left fun entry hentry =>
      (congrFun (Collection.localized_congr (hsame entry hentry).overlay) entry.2).symm
  exact ⟨base, chain, hbase, hname, hscope.congr hsame,
    by rw [hlayers, Collection.localized_congr hitem]⟩

theorem get?_of_itemResolves {resolved : Collection}
    (h : (scope.resolve locale).outcome = .ok resolved) (hitem : item ∈ scope.ownItems) :
    ∃ value, scope.ItemResolves locale item value ∧ resolved.get? item.1 = some value := by
  obtain ⟨value, hvalue, hmem⟩ := (resolve_eq_ok_iff.1 h).2.exists_value hitem
  exact ⟨value, hvalue, OrderedMap.get?_of_mem hmem⟩

/-- An item resolves to the same in two scopes that have it with the same overlay, and in which the
bases of its chain are the same. Nothing else of the scopes has a part in it. -/
theorem resolve_item_congr {resolved resolved' : Collection} {name : String}
    {definition : Definition} (h : (scope.resolve locale).outcome = .ok resolved)
    (h' : (other.resolve locale).outcome = .ok resolved')
    (hitem : (name, definition) ∈ scope.ownItems) (hitem' : (name, definition) ∈ other.ownItems)
    (hoverlay : other.items.overlay? locale name = scope.items.overlay? locale name)
    (hchain : ∀ base chain, Entries.get? baseKey definition = some (.string base) →
      scope.bases.BaseChain base chain →
        ∀ entry ∈ chain, scope.bases.SameAt locale other.bases entry.1) :
    ∃ value, resolved.get? name = some value ∧ resolved'.get? name = some value := by
  obtain ⟨value, hvalue, hget⟩ := get?_of_itemResolves h hitem
  obtain ⟨value', hvalue', hget'⟩ := get?_of_itemResolves h' hitem'
  obtain rfl := (hvalue.congr hoverlay hchain).unique hvalue'
  exact ⟨value, hget, hget'⟩

/-! ## An item among others -/

/-- An input on a base with an overlay. -/
def lonelyInput : Scope where
  bases := ⟨[("default", [("base", .null)]), ("sensor", [("base", .string "default")]),
    ("sensor.de", [("kind", .string "Fühler")])], by decide⟩
  items := ⟨[("input", [("base", .string "sensor")]),
    ("input.de", [("name", .string "Eingang")])], by decide⟩

/-- The same input beside another item, with another base beside its own. -/
def crowdedInput : Scope where
  bases := ⟨[("meter", [("base", .string "sensor"), ("unit", .string "volt")]),
    ("sensor.de", [("kind", .string "Fühler")]), ("sensor", [("base", .string "default")]),
    ("meter.de", [("unit", .string "Volt")]), ("default", [("base", .null)])], by decide⟩
  items := ⟨[("output", [("base", .string "meter")]), ("input.de", [("name", .string "Eingang")]),
    ("input", [("base", .string "sensor")])], by decide⟩

/-- The chain of bases of the input. -/
def inputChain : Entries String Definition :=
  [("default", [("base", .null)]), ("sensor", [("base", .string "default")])]

theorem baseChain_lonelyInput : lonelyInput.bases.BaseChain "sensor" inputChain :=
  .step rfl rfl (by decide) (.root rfl (Or.inr rfl))

theorem baseChain_crowdedInput : crowdedInput.bases.BaseChain "sensor" inputChain :=
  .step rfl rfl (by decide) (.root rfl (Or.inr rfl))

/-- The input in its full form. -/
def resolvedInput : Definition :=
  [("base", .string "sensor"), ("kind", .string "Fühler"), ("name", .string "Eingang")]

/-- All that is left of the scope where the input is alone. -/
def lonelyResolved : Collection := ⟨[("input", resolvedInput)], by decide⟩

/-- What the other scope resolves to. -/
def crowdedResolved : Collection :=
  ⟨[("output", [("base", .string "meter"), ("kind", .string "Fühler"), ("unit", .string "Volt")]),
    ("input", resolvedInput)], by decide⟩

theorem resolve_lonelyInput :
    (lonelyInput.resolve (some "de")).outcome = .ok lonelyResolved := by
  have hkeys : lonelyInput.bases.keys = ["default", "sensor", "sensor.de"] := rfl
  refine resolve_eq_ok_iff.2 ⟨basesRooted_iff.2 ?_, ?_⟩
  · simp only [hkeys, List.forall_mem_cons]
    exact ⟨fun _ => ⟨_, .root rfl (Or.inr rfl)⟩, fun _ => ⟨_, baseChain_lonelyInput⟩,
      fun hname => absurd hname (by decide), List.forall_mem_nil _⟩
  · have hown : lonelyInput.ownItems = [("input", [("base", .string "sensor")])] := by rfl
    rw [hown]
    exact .cons ⟨rfl, "sensor", _, rfl, by decide, baseChain_lonelyInput, rfl⟩ .nil

theorem resolve_crowdedInput :
    (crowdedInput.resolve (some "de")).outcome = .ok crowdedResolved := by
  have hmeter : crowdedInput.bases.BaseChain "meter" (inputChain ++
      [("meter", [("base", .string "sensor"), ("unit", .string "volt")])]) :=
    .step rfl rfl (by decide) baseChain_crowdedInput
  have hkeys : crowdedInput.bases.keys =
      ["meter", "sensor.de", "sensor", "meter.de", "default"] := rfl
  refine resolve_eq_ok_iff.2 ⟨basesRooted_iff.2 ?_, ?_⟩
  · simp only [hkeys, List.forall_mem_cons]
    exact ⟨fun _ => ⟨_, hmeter⟩, fun hname => absurd hname (by decide),
      fun _ => ⟨_, baseChain_crowdedInput⟩, fun hname => absurd hname (by decide),
      fun _ => ⟨_, .root rfl (Or.inr rfl)⟩, List.forall_mem_nil _⟩
  · have hown : crowdedInput.ownItems =
        [("output", [("base", .string "meter")]), ("input", [("base", .string "sensor")])] := by rfl
    rw [hown]
    exact .cons ⟨rfl, "meter", _, rfl, by decide, hmeter, rfl⟩
      (.cons ⟨rfl, "sensor", _, rfl, by decide, baseChain_crowdedInput, rfl⟩ .nil)

theorem resolve_item_congr_input :
    (lonelyInput.resolve (some "de")).outcome = .ok lonelyResolved ∧
    (crowdedInput.resolve (some "de")).outcome = .ok crowdedResolved ∧
    ∃ value, lonelyResolved.get? "input" = some value ∧
      crowdedResolved.get? "input" = some value := by
  refine ⟨resolve_lonelyInput, resolve_crowdedInput, ?_⟩
  refine resolve_item_congr resolve_lonelyInput resolve_crowdedInput
    (List.mem_filter.2 ⟨List.mem_cons_self .., by decide⟩)
    (List.mem_filter.2 ⟨by simp [crowdedInput], by decide⟩) rfl ?_
  intro base chain hbase hchain entry hentry
  obtain rfl : "sensor" = base := Value.string.inj (Option.some.inj hbase)
  obtain rfl := baseChain_lonelyInput.unique hchain
  have hentries : entry = ("default", [("base", .null)]) ∨
      entry = ("sensor", [("base", .string "default")]) := by
    simpa [inputChain] using hentry
  rcases hentries with rfl | rfl
  · exact ⟨rfl, rfl⟩
  · exact ⟨rfl, rfl⟩

end Scope

end Pedigree
