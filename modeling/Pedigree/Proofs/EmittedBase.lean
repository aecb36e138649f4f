import Pedigree.Proofs.ReadDefinitions
import Pedigree.Proofs.ScopeResolution

/-!
# The base that a resolved item names

An item is merged onto the base it names as it was written, and its overlay is merged into it
before that. A string on top of anything is that string, so the item keeps the name of its base
(`Scope.emitsBase_of_resolve`) unless the overlay has a base of its own. That one is not followed
and not checked : it is what the resolved item then shows (`Scope.not_forall_names_inherited`).
-/

namespace Pedigree

/-- A string on top of anything is that string. -/
theorem Value.onTop_string (below : Option Value) (s : String) :
    onTop below (.string s) = .string s := by
  cases below with
  | none => rfl
  | some old => exact merge_of_isScalar old rfl

/-- What stands on top of a string is there as it is. -/
theorem Value.onTop_some_string (s : String) (value : Value) :
    onTop (some (.string s)) value = value := by
  by_cases hkind : kind (.string s) = value.kind
  · cases value <;> simp only [kind, reduceCtorEq] at hkind
    exact onTop_string ..
  · exact merge_of_kind_ne hkind

namespace Collection

/-- The base that the overlay of a definition names for itself. -/
def overlayBase? (collection : Collection) (locale : Option String) (name : String) :
    Option Value :=
  (collection.overlay? locale name).bind (Entries.get? baseKey)

variable {collection : Collection} {locale : Option String} {name : String}

theorem WellFormed.nodup_keys (h : collection.WellFormed) {definition : Definition}
    (hget : collection.get? name = some definition) : (Entries.keys definition).Nodup :=
  (Value.wellFormed_mapping_iff.1 (h _ (Entries.mem_of_get? hget))).1

theorem WellFormed.nodup_keys_localized (h : collection.WellFormed) {definition : Definition}
    (hdefinition : (Entries.keys definition).Nodup) :
    (Entries.keys (collection.localized locale name definition)).Nodup :=
  localized_of_merge (P := fun definition => (Entries.keys definition).Nodup)
    (fun hbase hlayer => nodup_keys_mergeEntries hbase hlayer)
    (fun entry hentry => (Value.wellFormed_mapping_iff.1 (h entry hentry)).1) hdefinition

/-- A localized definition names the base of its overlay, or its own one if there is none. -/
theorem WellFormed.get?_baseKey_localized (h : collection.WellFormed) {definition : Definition}
    {base : String} (hbase : Entries.get? baseKey definition = some (.string base)) :
    Entries.get? baseKey (collection.localized locale name definition) =
      some ((collection.overlayBase? locale name).getD (.string base)) := by
  unfold localized overlayBase?
  cases hoverlay : collection.overlay? locale name with
  | none => exact hbase
  | some overlay =>
    obtain ⟨key, hget⟩ := overlay?_eq_some hoverlay
    change Entries.get? baseKey (mergeEntries definition overlay) = _
    rw [get?_mergeEntries definition (h.nodup_keys hget), hbase, Option.bind_some]
    cases Entries.get? baseKey overlay with
    | none => rfl
    | some value => exact congrArg some (Value.onTop_some_string base value)

end Collection

namespace Scope

variable {scope : Scope} {locale : Option String} {resolved : Collection}

/-- A resolved item lies on the expansion of the base it names, and names that base still, or what
its overlay has in the place of a base, on top of what the expansion has there. -/
def EmitsBase (scope : Scope) (locale : Option String) (expanded : Collection)
    (item : String × Definition) (value : Definition) : Prop :=
  ∃ base parent, Entries.get? baseKey item.2 = some (.string base) ∧
    expanded.get? base = some parent ∧
    value = parent.merge (scope.items.localized locale item.1 item.2) ∧
    Entries.get? baseKey value =
      match scope.items.overlayBase? locale item.1 with
      | none => some (.string base)
      | some other => some (Value.onTop (Entries.get? baseKey parent) other)

theorem OntoExpanded.emitsBase {expanded : Collection} {item : String × Definition}
    {value : Definition} (h : scope.OntoExpanded locale expanded item value)
    (hformed : scope.items.WellFormed) (hitem : (Entries.keys item.2).Nodup) :
    scope.EmitsBase locale expanded item value := by
  obtain ⟨base, parent, hbase, hparent, rfl⟩ := h
  refine ⟨base, parent, hbase, hparent, rfl, ?_⟩
  rw [Definition.merge, get?_mergeEntries parent (hformed.nodup_keys_localized hitem),
    hformed.get?_baseKey_localized hbase]
  cases scope.items.overlayBase? locale item.1 with
  | none => exact congrArg some (Value.onTop_string ..)
  | some other => rfl

/-- What a resolution went through : all bases are expanded, and each own item is put onto one. -/
theorem lists_ontoExpanded_of_resolve (h : (scope.resolve locale).outcome = .ok resolved) :
    ∃ expanded, (Expander.new scope.bases locale).expandAll.outcome = .ok expanded ∧
      Entries.Lists Prod.fst (scope.OntoExpanded locale expanded) scope.ownItems
        resolved.entries := by
  obtain ⟨expanded, hexpanded, h⟩ := Logged.bind_eq_ok_iff.1 h
  obtain ⟨result, hresult, h⟩ := Logged.bind_eq_ok_iff.1 h
  obtain ⟨-, -, hdone⟩ := Logged.bind_eq_ok_iff.1 h
  obtain rfl : result = resolved := Except.ok.inj hdone
  have hempty : ∀ name ∈ Entries.keys scope.items.entries,
      name ∉ (OrderedMap.empty : Collection).keys := fun name _ => by
    simp [OrderedMap.keys, OrderedMap.empty]
  obtain ⟨new, hentries, hnew⟩ :=
    (resolveItems_eq_ok_iff scope.items.distinct hempty).1 hresult
  rw [hentries]
  exact ⟨expanded, hexpanded, hnew⟩

/-- Each resolved item lies on an expanded base and names it, unless the overlay of the item has a
base of its own. -/
theorem emitsBase_of_resolve (hformed : scope.items.WellFormed)
    (h : (scope.resolve locale).outcome = .ok resolved) :
    ∃ expanded, (Expander.new scope.bases locale).expandAll.outcome = .ok expanded ∧
      ∀ item ∈ resolved.entries, ∃ definition, (item.1, definition) ∈ scope.ownItems ∧
        scope.EmitsBase locale expanded (item.1, definition) item.2 := by
  obtain ⟨expanded, hexpanded, hlists⟩ := lists_ontoExpanded_of_resolve h
  refine ⟨expanded, hexpanded, ?_⟩
  rintro ⟨name, value⟩ hvalue
  obtain ⟨item, hitem, rfl, honto⟩ := hlists.exists_thing hvalue
  have hkeys : (Entries.keys item.2).Nodup :=
    (Value.wellFormed_mapping_iff.1 (hformed item (List.mem_of_mem_filter hitem))).1
  exact ⟨item.2, hitem, honto.emitsBase hformed hkeys⟩

/-! ## An overlay with a base of its own -/

/-- Two items on `default`. The overlay of the first one names another base. -/
def rebasedSensor : Scope where
  bases := OrderedMap.empty.insert "default" [("base", .null)]
  items := ⟨[("sensor", [("base", .string "default")]),
    ("sensor.de", [("base", .string "elsewhere")]),
    ("meter", [("base", .string "default")]),
    ("meter.de", [("unit", .string "Volt")])], by decide⟩

/-- What the two items are for the locale of their overlays. -/
def rebasedSensorResolved : Collection :=
  ⟨[("sensor", [("base", .string "elsewhere")]),
    ("meter", [("base", .string "default"), ("unit", .string "Volt")])], by decide⟩

theorem wellFormed_rebasedSensor : rebasedSensor.items.WellFormed := by
  simp [rebasedSensor, Collection.WellFormed, or_imp, forall_and]

theorem resolve_rebasedSensor :
    (rebasedSensor.resolve (some "de")).outcome = .ok rebasedSensorResolved := by
  have hown : rebasedSensor.ownItems =
      [("sensor", [("base", .string "default")]), ("meter", [("base", .string "default")])] := by
    rfl
  refine resolve_eq_ok_of_default rfl (Or.inr rfl) ?_
  rw [hown]
  exact .cons ⟨rfl, rfl, rfl⟩ (.cons ⟨rfl, rfl, rfl⟩ .nil)

theorem emitsBase_meter :
    rebasedSensor.items.WellFormed ∧
      (rebasedSensor.resolve (some "de")).outcome = .ok rebasedSensorResolved ∧
      ∃ expanded definition, rebasedSensor.EmitsBase (some "de") expanded ("meter", definition)
        [("base", .string "default"), ("unit", .string "Volt")] := by
  refine ⟨wellFormed_rebasedSensor, resolve_rebasedSensor, ?_⟩
  obtain ⟨expanded, -, hitems⟩ :=
    emitsBase_of_resolve wellFormed_rebasedSensor resolve_rebasedSensor
  obtain ⟨definition, -, hbase⟩ :=
    hitems _ (List.mem_cons_of_mem _ (List.mem_singleton_self _))
  exact ⟨expanded, definition, hbase⟩

/-- A resolved item need not name the base it lies on, nor any base at all. -/
theorem not_forall_names_inherited :
    ¬ ∀ (scope : Scope) (locale : Option String) (resolved : Collection),
      scope.items.WellFormed → (scope.resolve locale).outcome = .ok resolved →
        ∀ item ∈ resolved.entries, ∃ base ∈ scope.bases.keys,
          Entries.get? baseKey item.2 = some (.string base) := by
  intro h
  obtain ⟨base, hmem, hbase⟩ :=
    h _ _ _ wellFormed_rebasedSensor resolve_rebasedSensor _ (List.mem_cons_self ..)
  obtain rfl : "elsewhere" = base := Value.string.inj (Option.some.inj hbase)
  exact absurd hmem (by decide)

end Scope

end Pedigree
