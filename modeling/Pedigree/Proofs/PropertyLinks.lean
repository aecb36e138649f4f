import Pedigree.Proofs.PropertyShape
import Pedigree.Proofs.ReadDefinitions

/-!
# Linking properties

A sweep fails with what its first failing visit reports (`failure?_sweep`), and one that
succeeds has visited every entry (`snd_sweep`). For objects in shape the only thing that
can fail is the look-up of a property, so linking reports the first property, by object
and then by place, that no global definition has (`failure?_link`). An object that was
linked has every global definition below the property of its name (`Definition.Linked`).
-/

namespace Pedigree

/-! ## Sweeps -/

namespace Entries

variable {κ α : Type} {visit : κ → α → Logged Failure Unit × α} {entries : Entries κ α}

theorem sweep_cons_of_ok {key : κ} {value : α} (h : (visit key value).1.outcome = .ok ())
    (rest : Entries κ α) :
    (sweep visit ((key, value) :: rest)).1.outcome = (sweep visit rest).1.outcome ∧
      (sweep visit ((key, value) :: rest)).2 =
        (key, (visit key value).2) :: (sweep visit rest).2 := by
  rcases hvisit : visit key value with ⟨⟨outcome, log⟩, after⟩
  obtain rfl : outcome = .ok () := by simpa [hvisit] using h
  simp [sweep, hvisit]

theorem sweep_cons_of_error {key : κ} {value : α} {failure : Failure}
    (h : (visit key value).1.outcome = .error failure) (rest : Entries κ α) :
    (sweep visit ((key, value) :: rest)).1.outcome = .error failure ∧
      (sweep visit ((key, value) :: rest)).2 = (key, (visit key value).2) :: rest := by
  rcases hvisit : visit key value with ⟨⟨outcome, log⟩, after⟩
  obtain rfl : outcome = .error failure := by simpa [hvisit] using h
  simp [sweep, hvisit]

/-- A sweep reports the first failure of a visit. -/
theorem failure?_sweep (visit : κ → α → Logged Failure Unit × α) (entries : Entries κ α) :
    (sweep visit entries).1.failure? =
      entries.findSome? fun entry => (visit entry.1 entry.2).1.failure? := by
  induction entries with
  | nil => rfl
  | cons entry rest ih =>
    obtain ⟨key, value⟩ := entry
    rw [List.findSome?_cons]
    cases hvisit : (visit key value).1.outcome with
    | ok =>
      rw [Logged.failure?_eq_none_iff.2 hvisit, ← ih]
      simp only [Logged.failure?, (sweep_cons_of_ok hvisit rest).1]
    | error failure =>
      rw [Logged.failure?_eq_some_iff.2 hvisit]
      exact Logged.failure?_eq_some_iff.2 (sweep_cons_of_error hvisit rest).1

/-- A sweep that succeeds has visited every entry. -/
theorem snd_sweep (h : (sweep visit entries).1.outcome = .ok ()) :
    (sweep visit entries).2 = entries.map fun entry => (entry.1, (visit entry.1 entry.2).2) := by
  induction entries with
  | nil => rfl
  | cons entry rest ih =>
    obtain ⟨key, value⟩ := entry
    cases hvisit : (visit key value).1.outcome with
    | ok =>
      obtain ⟨houtcome, hentries⟩ := sweep_cons_of_ok hvisit rest
      rw [hentries, ih (houtcome ▸ h), List.map_cons]
    | error failure =>
      rw [(sweep_cons_of_error hvisit rest).1] at h
      cases h

theorem outcome_visit_of_sweep (h : (sweep visit entries).1.outcome = .ok ()) :
    ∀ entry ∈ entries, (visit entry.1 entry.2).1.outcome = .ok () := by
  rw [← Logged.failure?_eq_none_iff, failure?_sweep, List.findSome?_eq_none_iff] at h
  exact fun entry hentry => Logged.failure?_eq_none_iff.1 (h entry hentry)

end Entries

/-! ## Writing out shorthands -/

namespace Collection

theorem shaped_normalize {collection : Collection} (hformed : collection.WellFormed)
    (h : collection.normalize.1.outcome = .ok ()) : collection.normalize.2.Shaped := by
  change ∀ entry ∈ (Entries.sweep Definition.normalize collection.entries).2, _
  rw [Entries.snd_sweep h]
  intro entry hentry
  obtain ⟨raw, hraw, rfl⟩ := List.mem_map.1 hentry
  exact Definition.shaped_normalize (Value.wellFormed_mapping_iff.1 (hformed raw hraw)).1
    (Entries.outcome_visit_of_sweep h raw hraw)

end Collection

/-! ## Linking -/

namespace Collection

/-- The value is a property override on top of the global definition of its name. -/
def Extends (globals : Collection) (override : String × Value) (value : Value) : Prop :=
  ∃ definition, globals.get? override.1 = some definition ∧
    value = (Value.mapping definition).merge override.2

end Collection

namespace Definition

/-- The property overrides of an object, in order. -/
def overrides (object : Definition) : Entries String Value :=
  match Entries.get? propertiesKey object with
  | some (.mapping overrides) => overrides
  | _ => []

/-- The second object is the first one with every property on top of its global definition. All
else, and the order of all keys, is the same. -/
structure Linked (globals : Collection) (before after : Definition) : Prop where
  keys : Entries.keys after = Entries.keys before
  others : ∀ key, key ≠ propertiesKey → Entries.get? key after = Entries.get? key before
  properties :
    match Entries.get? propertiesKey before with
    | some (.mapping overrides) => ∃ linked,
      Entries.get? propertiesKey after = some (.mapping linked) ∧
        Entries.Lists Prod.fst globals.Extends overrides linked
    | other => Entries.get? propertiesKey after = other

variable {globals : Collection} {name : String} {object : Definition}

theorem failure?_linkProperty (globals : Collection) (object property : String) (override : Value) :
    (link.linkProperty globals object property override).1.failure? =
      if globals.contains property then none else some (.undefinedProperty object property) := by
  unfold link.linkProperty OrderedMap.contains Entries.contains
  change _ = if (globals.get? property).isSome then _ else _
  cases globals.get? property <;> rfl

theorem findSome?_ite {β γ : Type} (known : β → Bool) (report : β → γ) (list : List β) :
    (list.findSome? fun b => if known b then none else some (report b)) =
      (list.find? fun b => !known b).map report := by
  induction list with
  | nil => rfl
  | cons b rest ih => cases hb : known b <;> simp [hb, ih]

theorem failure?_sweep_linkProperty (globals : Collection) (name : String)
    (overrides : Entries String Value) :
    (Entries.sweep (link.linkProperty globals name) overrides).1.failure? =
      (overrides.find? fun override => !globals.contains override.1).map fun override =>
        .undefinedProperty name override.1 := by
  simp only [Entries.failure?_sweep, failure?_linkProperty]
  exact findSome?_ite (fun override => globals.contains override.1) _ overrides

/-- Linking an object in shape fails at the first property without a global definition. -/
theorem failure?_link (hshape : object.Structured) :
    (link globals name object).1.failure? =
      (object.overrides.find? fun override => !globals.contains override.1).map fun override =>
        .undefinedProperty name override.1 := by
  unfold Structured at hshape
  unfold link overrides
  split
  · rename_i hget
    rw [hget]
    rfl
  · rename_i hget
    rw [hget]
    rfl
  · rename_i overrides hget
    rw [hget]
    exact failure?_sweep_linkProperty globals name overrides
  · rename_i other hnone hnull hmapping hget
    rw [hget] at hshape
    cases other <;> simp_all [Value.StructuredProperties]

theorem extends_of_linkProperty {property : String} {override : Value}
    (h : (link.linkProperty globals name property override).1.outcome = .ok ()) :
    globals.Extends (property, override) (link.linkProperty globals name property override).2 := by
  unfold link.linkProperty at h ⊢
  cases hget : globals.get? property with
  | none =>
    rw [hget] at h
    cases h
  | some definition => exact ⟨definition, hget, rfl⟩

/-- An object that was linked has every global definition below the property of its name. -/
theorem linked_of_link (h : (link globals name object).1.outcome = .ok ()) :
    Linked globals object (link globals name object).2 := by
  unfold link at h ⊢
  split at h
  · rename_i hget
    exact ⟨rfl, fun _ _ => rfl, by simp [hget]⟩
  · rename_i hget
    exact ⟨rfl, fun _ _ => rfl, by simp [hget]⟩
  · rename_i overrides hget
    change (Entries.sweep (link.linkProperty globals name) overrides).1.outcome = .ok () at h
    have hmem : propertiesKey ∈ Entries.keys object :=
      List.mem_map_of_mem (Entries.mem_of_get? hget)
    refine ⟨?_, fun key hkey => Entries.get?_insert_of_ne hkey _ _, ?_⟩
    · exact (Entries.keys_insert ..).trans (if_pos hmem)
    · rw [hget]
      refine ⟨_, Entries.get?_insert_self .., ?_⟩
      rw [Entries.snd_sweep h]
      exact Entries.lists_map fun override hoverride =>
        extends_of_linkProperty (Entries.outcome_visit_of_sweep h override hoverride)
  · cases h

end Definition

namespace Collection

/-- The properties that objects override, by object and then by place. -/
def propertyUses (objects : Collection) : List (String × String) :=
  objects.entries.flatMap fun object =>
    (Definition.overrides object.2).map fun override => (object.1, override.1)

/-- Linking objects in shape fails at the first property without a global definition. -/
theorem failure?_link {globals objects : Collection} (hshape : objects.Shaped) :
    (link globals objects).1.failure? =
      (objects.propertyUses.find? fun use => !globals.contains use.2).map fun use =>
        .undefinedProperty use.1 use.2 := by
  change (Entries.sweep (Definition.link globals) objects.entries).1.failure? = _
  have hobject : ∀ object ∈ objects.entries,
      (Definition.link globals object.1 object.2).1.failure? =
        (((Definition.overrides object.2).map fun override => (object.1, override.1)).find?
          fun use => !globals.contains use.2).map fun use => .undefinedProperty use.1 use.2 := by
    intro object hobject
    rw [Definition.failure?_link (hshape object hobject).structured, List.find?_map,
      Option.map_map]
    rfl
  rw [Entries.failure?_sweep, propertyUses, List.find?_flatMap, List.map_findSome?,
    ← List.head?_filterMap, ← List.head?_filterMap]
  exact congrArg List.head? (List.filterMap_congr hobject)

/-- Objects in shape are linked if and only if every property they override is known. -/
theorem link_eq_ok_iff {globals objects : Collection} (hshape : objects.Shaped) :
    (link globals objects).1.outcome = .ok () ↔
      ∀ use ∈ objects.propertyUses, use.2 ∈ globals.keys := by
  rw [← Logged.failure?_eq_none_iff, failure?_link hshape, Option.map_eq_none_iff,
    List.find?_eq_none]
  simp only [Bool.not_eq_true', Bool.not_eq_false, OrderedMap.contains_iff]

theorem link_eq_error {globals objects : Collection} (hshape : objects.Shaped)
    {failure : Failure} (h : (link globals objects).1.outcome = .error failure) :
    ∃ use ∈ objects.propertyUses, failure = .undefinedProperty use.1 use.2 := by
  rw [← Logged.failure?_eq_some_iff, failure?_link hshape] at h
  obtain ⟨use, huse, rfl⟩ := Option.map_eq_some_iff.1 h
  exact ⟨use, List.mem_of_find?_eq_some huse, rfl⟩

/-- The first property that is not known is reported. -/
theorem link_eq_error_of_first {globals objects : Collection} (hshape : objects.Shaped)
    {before after : List (String × String)} {object property : String}
    (huses : objects.propertyUses = before ++ (object, property) :: after)
    (hbefore : ∀ use ∈ before, use.2 ∈ globals.keys) (hunknown : property ∉ globals.keys) :
    (link globals objects).1.outcome = .error (.undefinedProperty object property) := by
  have hnone : before.find? (fun use => !globals.contains use.2) = none := by
    rw [List.find?_eq_none]
    simpa [OrderedMap.contains_iff] using hbefore
  have hcontains : globals.contains property = false := by
    rw [← Bool.not_eq_true, OrderedMap.contains_iff]
    exact hunknown
  rw [← Logged.failure?_eq_some_iff, failure?_link hshape, huses, List.find?_append, hnone,
    Option.none_or, List.find?_cons_of_pos (by simp [hcontains])]
  rfl

/-- Objects that were linked are linked one by one. -/
theorem lists_linked_of_link {globals objects : Collection}
    (h : (link globals objects).1.outcome = .ok ()) :
    Entries.Lists Prod.fst (fun object => Definition.Linked globals object.2) objects.entries
      (link globals objects).2.entries := by
  change Entries.Lists _ _ _ (Entries.sweep (Definition.link globals) objects.entries).2
  rw [Entries.snd_sweep h]
  exact Entries.lists_map fun object hobject =>
    Definition.linked_of_link (Entries.outcome_visit_of_sweep h object hobject)

end Collection

namespace Scope

/-- A scope with the shorthands of its properties written out. -/
def writtenOut (scope : Scope) : Scope :=
  ⟨scope.bases.normalize.2, scope.items.normalize.2⟩

variable {properties resolved : Collection} {objects : Scope} {locale : Option String}

/-- Once shorthands are written out and the scope has resolved, linking decides the outcome. -/
theorem outcome_resolveObjects (hbases : objects.bases.normalize.1.outcome = .ok ())
    (hitems : objects.items.normalize.1.outcome = .ok ())
    (hresolve : (objects.writtenOut.resolve locale).outcome = .ok resolved) :
    (resolveObjects properties objects locale).outcome =
      (Collection.link properties resolved).1.outcome.map fun _ =>
        (Collection.link properties resolved).2 := by
  unfold resolveObjects
  unfold writtenOut at hresolve
  simp only [Logged.outcome_bind, hbases, hitems, hresolve]
  change (Collection.link properties resolved).1.outcome.bind
    (fun _ => Except.ok (Collection.link properties resolved).2) = _
  cases (Collection.link properties resolved).1.outcome <;> rfl

/-- The scope that is resolved once shorthands are written out gives objects in shape. -/
theorem shaped_of_writtenOut (hformed : objects.WellFormed)
    (hbases : objects.bases.normalize.1.outcome = .ok ())
    (hitems : objects.items.normalize.1.outcome = .ok ())
    (hresolve : (objects.writtenOut.resolve locale).outcome = .ok resolved) : resolved.Shaped :=
  shaped_of_resolve (Collection.shaped_normalize hformed.bases hbases)
    (Collection.shaped_normalize hformed.items hitems) hresolve

/-- Objects that resolve have properties in shape, so no object is refused for the kind of its
properties. They are linked if and only if every property they override has a global definition,
and then property by property. If not, the first one without a global definition is reported. -/
theorem resolveObjects_of_resolve (properties : Collection) (hformed : objects.WellFormed)
    (hbases : objects.bases.normalize.1.outcome = .ok ())
    (hitems : objects.items.normalize.1.outcome = .ok ())
    (hresolve : (objects.writtenOut.resolve locale).outcome = .ok resolved) :
    (∀ object ∈ resolved.entries, Definition.Structured object.2) ∧
    (∀ name found, (Collection.link properties resolved).1.outcome ≠
      .error (.invalidProperties name found)) ∧
    ((∃ linked, (resolveObjects properties objects locale).outcome = .ok linked) ↔
      ∀ use ∈ resolved.propertyUses, use.2 ∈ properties.keys) ∧
    (∀ linked, (resolveObjects properties objects locale).outcome = .ok linked →
      Entries.Lists Prod.fst (fun object => Definition.Linked properties object.2)
        resolved.entries linked.entries) ∧
    (∀ before object property after,
      resolved.propertyUses = before ++ (object, property) :: after →
      (∀ use ∈ before, use.2 ∈ properties.keys) → property ∉ properties.keys →
      (resolveObjects properties objects locale).outcome =
        .error (.undefinedProperty object property)) := by
  have hshape := shaped_of_writtenOut hformed hbases hitems hresolve
  rw [outcome_resolveObjects hbases hitems hresolve]
  refine ⟨fun object hobject => (hshape object hobject).structured, ?_, ?_, ?_, ?_⟩
  · intro name found h
    obtain ⟨use, -, huse⟩ := Collection.link_eq_error hshape h
    cases huse
  · rw [← Collection.link_eq_ok_iff hshape]
    cases (Collection.link properties resolved).1.outcome with
    | error failure =>
      refine ⟨?_, fun h => (by cases h)⟩
      rintro ⟨linked, h⟩
      cases h
    | ok => exact ⟨fun _ => rfl, fun _ => ⟨_, rfl⟩⟩
  · intro linked h
    cases hlink : (Collection.link properties resolved).1.outcome with
    | error failure =>
      rw [hlink] at h
      cases h
    | ok =>
      rw [hlink] at h
      cases h
      exact Collection.lists_linked_of_link hlink
  · intro before object property after huses hbefore hunknown
    rw [Collection.link_eq_error_of_first hshape huses hbefore hunknown]
    rfl

theorem resolveObjects_of_unknown_override :
    let base : Definition :=
      [("base", .null), ("properties", .mapping [("units", .string "volt")])]
    let item : Definition :=
      [("base", .string "default"),
        ("properties", .mapping [("units", .mapping [("preset", .bool true)]), ("range", .null)])]
    let objects : Scope := ⟨⟨[("default", base)], by decide⟩, ⟨[("input", item)], by decide⟩⟩
    let properties : Collection := ⟨[("units", [("order", .null)])], by decide⟩
    let resolved : Collection :=
      ⟨[("input", [("base", .string "default"),
        ("properties", .mapping
          [("units", .mapping [("content", .string "volt"), ("preset", .bool true)]),
            ("range", .mapping [("content", .null)])])])], by decide⟩
    objects.WellFormed ∧ objects.bases.normalize.1.outcome = .ok () ∧
      objects.items.normalize.1.outcome = .ok () ∧
      (objects.writtenOut.resolve none).outcome = .ok resolved ∧
      (resolveObjects properties objects none).outcome =
        .error (.undefinedProperty "input" "range") := by
  intro base item objects properties resolved
  have hformed : objects.WellFormed := by
    constructor <;> simp [objects, base, item, Collection.WellFormed, or_imp, forall_and]
  have hbases : objects.bases.normalize.1.outcome = .ok () := rfl
  have hitems : objects.items.normalize.1.outcome = .ok () := rfl
  have hresolve : (objects.writtenOut.resolve none).outcome = .ok resolved := by
    have hown : objects.writtenOut.ownItems = objects.writtenOut.items.entries :=
      List.filter_eq_self.2 (by decide)
    refine resolve_eq_ok_of_default rfl (Or.inr rfl) ?_
    rw [hown]
    exact .cons ⟨rfl, rfl, rfl⟩ .nil
  refine ⟨hformed, hbases, hitems, hresolve, ?_⟩
  exact (resolveObjects_of_resolve properties hformed hbases hitems hresolve).2.2.2.2
    [("input", "units")] "input" "range" [] rfl (by decide) (by decide)

end Scope

end Pedigree
