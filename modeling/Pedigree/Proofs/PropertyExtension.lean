import Pedigree.Proofs.PropertyLinks

/-!
# Objects extend global properties

A property of a linked object is the override of the object on top of the global definition.
If the override is a mapping the result has every key of the global definition
(`Value.covers_merge`). Sequences are neither written out nor merged with a mapping, so an
override that is a sequence replaces the global definition as a whole : the keys of the
global definition are lost there, and only there (`Collection.ExtendsOrReplaces`).
-/

namespace Pedigree

/-- A mapping that has every key of a definition. -/
def Value.Covers (value : Value) (definition : Definition) : Prop :=
  ∃ fields, value = .mapping fields ∧
    ∀ key ∈ Entries.keys definition, key ∈ Entries.keys fields

/-- A mapping on top of a definition covers it. -/
theorem Value.covers_merge (definition : Definition) {override : Value}
    (h : override.kind = .mapping) :
    ((Value.mapping definition).merge override).Covers definition := by
  cases override <;> simp only [kind, reduceCtorEq] at h
  rename_i layer
  rw [merge_mapping]
  exact ⟨_, rfl, fun key hkey => mem_keys_mergeEntries.2 (Or.inl hkey)⟩

/-- The value covers the global definition of a property, or is a sequence that the object holds
in its place. -/
def Collection.ExtendsOrReplaces (globals : Collection) (override : String × Value)
    (value : Value) : Prop :=
  ∃ definition, globals.get? override.1 = some definition ∧
    (override.2.kind = .mapping ∧ value.Covers definition ∨
      override.2.kind = .sequence ∧ value = override.2)

theorem Collection.Extends.extendsOrReplaces {globals : Collection} {override : String × Value}
    {value : Value} (h : globals.Extends override value)
    (hshape : override.2.kind = .mapping ∨ override.2.kind = .sequence) :
    globals.ExtendsOrReplaces override value := by
  obtain ⟨definition, hget, rfl⟩ := h
  refine ⟨definition, hget, hshape.imp ?_ ?_⟩
  · exact fun hmapping => ⟨hmapping, Value.covers_merge definition hmapping⟩
  · intro hsequence
    refine ⟨hsequence, Value.merge_of_kind_ne ?_⟩
    rw [hsequence]
    simp [Value.kind]

namespace Definition

variable {globals : Collection} {before after : Definition}

/-- An object with mapped properties was linked to an object with mapped properties, property by
property. -/
theorem Linked.overrides (h : Linked globals before after) (hshape : before.Structured)
    {properties : Entries String Value}
    (hget : Entries.get? propertiesKey after = some (.mapping properties)) :
    (∀ override ∈ before.overrides,
      override.2.kind = .mapping ∨ override.2.kind = .sequence) ∧
    Entries.Lists Prod.fst globals.Extends before.overrides properties := by
  have hproperties := h.properties
  unfold Structured at hshape
  unfold Definition.overrides
  split at hproperties
  · rename_i overrides hbefore
    rw [hbefore] at hshape
    obtain ⟨linked, hafter, hlinked⟩ := hproperties
    obtain rfl := Value.mapping.inj (Option.some.inj (hafter.symm.trans hget))
    exact ⟨hshape, hlinked⟩
  · rename_i hbefore
    rw [hproperties] at hget
    exact absurd hget (hbefore properties)

end Definition

namespace Scope

variable {properties objects : Scope} {locale : Option String} {resolved : Resolved}

/-- What a resolution of both scopes went through. -/
theorem resolveBoth_eq_ok_iff :
    (resolveBoth properties objects locale).outcome = .ok resolved ↔
      (properties.resolve locale).outcome = .ok resolved.properties ∧
        (resolveObjects resolved.properties objects locale).outcome = .ok resolved.objects := by
  unfold resolveBoth
  rw [Logged.bind_eq_ok_iff]
  constructor
  · rintro ⟨globals, hglobals, h⟩
    obtain ⟨linked, hlinked, h⟩ := Logged.bind_eq_ok_iff.1 h
    cases h
    exact ⟨hglobals, hlinked⟩
  · rintro ⟨hglobals, hlinked⟩
    exact ⟨_, hglobals, Logged.bind_eq_ok_iff.2 ⟨_, hlinked, rfl⟩⟩

/-- What a resolution of objects went through. -/
theorem resolveObjects_eq_ok_iff {globals linked : Collection} :
    (resolveObjects globals objects locale).outcome = .ok linked ↔
      objects.bases.normalize.1.outcome = .ok () ∧ objects.items.normalize.1.outcome = .ok () ∧
        ∃ merged, (objects.writtenOut.resolve locale).outcome = .ok merged ∧
          (Collection.link globals merged).1.outcome = .ok () ∧
            linked = (Collection.link globals merged).2 := by
  unfold resolveObjects
  constructor
  · intro h
    obtain ⟨_, hbases, h⟩ := Logged.bind_eq_ok_iff.1 h
    obtain ⟨_, hitems, h⟩ := Logged.bind_eq_ok_iff.1 h
    obtain ⟨merged, hmerged, h⟩ := Logged.bind_eq_ok_iff.1 h
    obtain ⟨_, hlink, h⟩ := Logged.bind_eq_ok_iff.1 h
    exact ⟨hbases, hitems, merged, hmerged, hlink, (Except.ok.inj h).symm⟩
  · rintro ⟨hbases, hitems, merged, hmerged, hlink, rfl⟩
    exact Logged.bind_eq_ok_iff.2 ⟨_, hbases, Logged.bind_eq_ok_iff.2 ⟨_, hitems,
      Logged.bind_eq_ok_iff.2 ⟨merged, hmerged, Logged.bind_eq_ok_iff.2 ⟨_, hlink, rfl⟩⟩⟩⟩

/-- Every mapped property of a resolved object has a global definition. The property is a mapping
with all its keys, or the merged object holds a sequence there, which is kept as it is. -/
theorem extends_or_replaces_of_resolveBoth (hformed : objects.WellFormed)
    (h : (resolveBoth properties objects locale).outcome = .ok resolved) :
    ∃ merged, (objects.writtenOut.resolve locale).outcome = .ok merged ∧
      ∀ object ∈ resolved.objects.entries, ∀ entries,
        Entries.get? propertiesKey object.2 = some (.mapping entries) →
          ∃ before, (object.1, before) ∈ merged.entries ∧
            ∀ entry ∈ entries, ∃ override, (entry.1, override) ∈ Definition.overrides before ∧
              resolved.properties.ExtendsOrReplaces (entry.1, override) entry.2 := by
  obtain ⟨-, hobjects⟩ := resolveBoth_eq_ok_iff.1 h
  obtain ⟨hbases, hitems, merged, hmerged, hlink, heq⟩ := resolveObjects_eq_ok_iff.1 hobjects
  have hshape := shaped_of_writtenOut hformed hbases hitems hmerged
  refine ⟨merged, hmerged, ?_⟩
  intro object hobject entries hget
  rw [heq] at hobject
  obtain ⟨before, hbefore, hname, hlinked⟩ :=
    (Collection.lists_linked_of_link hlink).exists_thing hobject
  refine ⟨before.2, hname ▸ hbefore, fun entry hentry => ?_⟩
  obtain ⟨hkinds, hextends⟩ := hlinked.overrides (hshape before hbefore).structured hget
  obtain ⟨override, hoverride, hkey, hvalue⟩ := hextends.exists_thing hentry
  have hreplaces := hvalue.extendsOrReplaces (hkinds override hoverride)
  obtain ⟨key, override⟩ := override
  obtain rfl : key = entry.1 := hkey
  exact ⟨override, hoverride, hreplaces⟩

/-! ## A property that is a sequence -/

/-- Two global properties on a base without fields. -/
def orderedProperties : Scope where
  bases := ⟨[("default", [("base", .null)])], by decide⟩
  items := ⟨[("units", [("base", .string "default"), ("order", .bool true)]),
    ("range", [("base", .string "default"), ("order", .bool false)])], by decide⟩

/-- An object that extends the first of two properties, and has a sequence for the second. -/
def listedRange : Scope where
  bases := ⟨[("default", [("base", .null)])], by decide⟩
  items := ⟨[("input", [("base", .string "default"),
    ("properties", .mapping [("units", .mapping [("preset", .bool true)]),
      ("range", .sequence [.bool true])])])], by decide⟩

/-- What the object is with its properties linked. -/
def listedRangeResolved : Resolved where
  properties := orderedProperties.items
  objects := ⟨[("input", [("base", .string "default"),
    ("properties", .mapping
      [("units", .mapping [("base", .string "default"), ("order", .bool true),
        ("preset", .bool true)]),
        ("range", .sequence [.bool true])])])], by decide⟩

theorem wellFormed_listedRange : listedRange.WellFormed := by
  constructor <;> simp [listedRange, Collection.WellFormed, or_imp, forall_and]

theorem resolveBoth_listedRange :
    (resolveBoth orderedProperties listedRange none).outcome = .ok listedRangeResolved := by
  refine resolveBoth_eq_ok_iff.2 ⟨?_, resolveObjects_eq_ok_iff.2 ?_⟩
  · refine resolve_eq_ok_of_default rfl (Or.inr rfl) ?_
    have hown : orderedProperties.ownItems = orderedProperties.items.entries :=
      List.filter_eq_self.2 (by decide)
    rw [hown]
    exact .cons ⟨rfl, rfl, rfl⟩ (.cons ⟨rfl, rfl, rfl⟩ .nil)
  · refine ⟨rfl, rfl, listedRange.items, ?_, rfl, rfl⟩
    refine resolve_eq_ok_of_default rfl (Or.inr rfl) ?_
    have hown : listedRange.writtenOut.ownItems = listedRange.items.entries :=
      List.filter_eq_self.2 (by decide)
    rw [hown]
    exact .cons ⟨rfl, rfl, rfl⟩ .nil

theorem extendsOrReplaces_listedRange :
    listedRange.WellFormed ∧
      (resolveBoth orderedProperties listedRange none).outcome = .ok listedRangeResolved ∧
      ∃ override, listedRangeResolved.properties.ExtendsOrReplaces ("range", override)
        (.sequence [.bool true]) := by
  refine ⟨wellFormed_listedRange, resolveBoth_listedRange, ?_⟩
  obtain ⟨merged, -, hobjects⟩ :=
    extends_or_replaces_of_resolveBoth wellFormed_listedRange resolveBoth_listedRange
  obtain ⟨before, -, hentries⟩ := hobjects _ (List.mem_singleton_self _) _ rfl
  obtain ⟨override, -, hrange⟩ := hentries ("range", .sequence [.bool true]) (by simp)
  exact ⟨override, hrange⟩

/-- A mapped property of a resolved object need not have the keys of its global definition. -/
theorem not_forall_covers :
    ¬ ∀ (properties objects : Scope) (locale : Option String) (resolved : Resolved),
      objects.WellFormed → (resolveBoth properties objects locale).outcome = .ok resolved →
        ∀ object ∈ resolved.objects.entries, ∀ entries,
          Entries.get? propertiesKey object.2 = some (.mapping entries) →
            ∀ entry ∈ entries, ∀ definition,
              resolved.properties.get? entry.1 = some definition → entry.2.Covers definition := by
  intro h
  obtain ⟨fields, hfields, -⟩ := h _ _ _ _ wellFormed_listedRange resolveBoth_listedRange
    _ (List.mem_singleton_self _) _ rfl
    ("range", .sequence [.bool true]) (by simp) _ rfl
  cases hfields

end Scope

end Pedigree
