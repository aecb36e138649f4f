import Pedigree.Proofs.OwnEntries

/-!
# Overlays in a resolution

Overlays are told apart by what stands before the last dot of their names. An overlay that a
resolution merges into an item stays out of the result, and nothing is asked of its base, if that
part of its name is an item (`Scope.overlay_apart_iff_stem`). For a locale without a dot it is the
very item that the overlay belongs to. For one with a dot it need not be, and then the overlay is
merged and resolved as an item all the same (`Scope.not_forall_overlay_apart`).

An overlay for another locale, or of an overlay, is merged nowhere. Without these a scope resolves
to the same (`Scope.resolve_withoutUnselected`).
-/

namespace Pedigree

namespace Scope

/-! ## Overlays that are merged -/

/-- The scope with another definition in the place of an item. -/
def withItem (scope : Scope) (name : String) (definition : Definition) : Scope :=
  { scope with items := scope.items.insert name definition }

variable {scope : Scope} {locale name : String} {definition overlay : Definition}

theorem isOverlay_withItem (hname : name ∈ scope.items.keys) (definition : Definition) :
    (scope.withItem name definition).items.isOverlay = scope.items.isOverlay := by
  have hkeys : (scope.withItem name definition).items.keys = scope.items.keys :=
    (Entries.keys_insert ..).trans (if_pos hname)
  exact Collection.isOverlay_congr fun n => by rw [hkeys]

theorem ownItems_withItem (hname : name ∈ scope.items.keys)
    (hoverlay : scope.items.isOverlay name = true) (definition : Definition) :
    (scope.withItem name definition).ownItems = scope.ownItems := by
  unfold ownItems
  rw [isOverlay_withItem hname]
  exact Entries.filter_insert_of_not_keep (fun n => !scope.items.isOverlay n) (by simp [hoverlay])
    definition scope.items.entries

/-- Whatever an overlay holds, the scope fails with the same, or does not fail. -/
theorem failure?_withItem (hname : name ∈ scope.items.keys)
    (hoverlay : scope.items.isOverlay name = true) (locale : Option String)
    (definition : Definition) :
    ((scope.withItem name definition).resolve locale).failure? =
      (scope.resolve locale).failure? := by
  rw [failure?_resolve, failure?_resolve, ownItems_withItem hname hoverlay]
  rfl

theorem not_mem_keys_of_isOverlay {locale : Option String} {resolved : Collection}
    (hoverlay : scope.items.isOverlay name = true)
    (h : (scope.resolve locale).outcome = .ok resolved) : name ∉ resolved.keys := by
  intro hmem
  obtain ⟨entry, hentry, rfl⟩ := List.mem_map.1 hmem
  obtain ⟨item, hitem, hkey, -⟩ := (resolve_eq_ok_iff.1 h).2.exists_thing hentry
  have hown : scope.items.isOverlay item.1 = false := (Collection.mem_own_iff.1 hitem).2
  rw [hkey, hoverlay] at hown
  cases hown

/-- An own item is in the result, and names a base. -/
theorem mem_keys_of_mem_ownItems {locale : Option String} {resolved : Collection}
    (hitem : (name, definition) ∈ scope.ownItems)
    (h : (scope.resolve locale).outcome = .ok resolved) :
    name ∈ resolved.keys ∧ ∃ base, Entries.get? baseKey definition = some (.string base) := by
  obtain ⟨value, ⟨base, -, hbase, -⟩, hmem⟩ := (resolve_eq_ok_iff.1 h).2.exists_value hitem
  exact ⟨List.mem_map_of_mem hmem, base, hbase⟩

/-- The overlay that is merged into an item is neither in the result nor asked for a base, if the
locale has no dot, or if the item has an overlay for the front of the locale as well. If not, it is
in the result, and has to have a base. -/
theorem overlay_apart_iff_stem (hitem : (name, definition) ∈ scope.ownItems)
    (hoverlay : scope.items.get? (overlayName name locale) = some overlay) :
    scope.items.localized (some locale) name definition = definition.merge overlay ∧
    ((∀ front, stem? locale = some front → overlayName name front ∈ scope.items.keys) →
      (∀ resolved, (scope.resolve (some locale)).outcome = .ok resolved →
        overlayName name locale ∉ resolved.keys) ∧
      ∀ other, ((scope.withItem (overlayName name locale) other).resolve (some locale)).failure? =
        (scope.resolve (some locale)).failure?) ∧
    ((∃ front, stem? locale = some front ∧ overlayName name front ∉ scope.items.keys) →
      ∀ resolved, (scope.resolve (some locale)).outcome = .ok resolved →
        overlayName name locale ∈ resolved.keys ∧
          ∃ base, Entries.get? baseKey overlay = some (.string base)) := by
  have hname : name ∈ scope.items.keys := List.mem_map_of_mem (Collection.mem_own_iff.1 hitem).1
  have hstem := Collection.isOverlay_overlayName_iff hname locale
  refine ⟨?_, ?_, ?_⟩
  · rw [Collection.localized, Collection.overlay?, Option.bind_some, hoverlay]
  · intro hfront
    have happly := hstem.2 hfront
    exact ⟨fun resolved h => not_mem_keys_of_isOverlay happly h,
      failure?_withItem (OrderedMap.mem_keys_of_get? hoverlay) happly _⟩
  · rintro ⟨front, hfront, hnot⟩ resolved h
    have hown : (overlayName name locale, overlay) ∈ scope.ownItems := by
      refine Collection.mem_own_iff.2 ⟨Entries.mem_of_get? hoverlay, ?_⟩
      rw [← Bool.not_eq_true, hstem]
      exact fun hall => hnot (hall front hfront)
    exact mem_keys_of_mem_ownItems hown h

/-- A sensor with an overlay for a locale that has a dot. -/
def encodedSensor : Scope where
  bases := OrderedMap.empty.insert "default" [("base", .null)]
  items := ⟨[("sensor", [("base", .string "default")]),
    ("sensor.de_DE.UTF-8", [("base", .string "default"), ("name", .string "Sensor")])], by decide⟩

/-- What the sensor and its overlay resolve to. -/
def encodedSensorResolved : Collection :=
  ⟨[("sensor", [("base", .string "default"), ("name", .string "Sensor")]),
    ("sensor.de_DE.UTF-8", [("base", .string "default"), ("name", .string "Sensor")])], by decide⟩

theorem resolve_encodedSensor :
    (encodedSensor.resolve (some "de_DE.UTF-8")).outcome = .ok encodedSensorResolved := by
  have hown : encodedSensor.ownItems = encodedSensor.items.entries :=
    List.filter_eq_self.2 (by decide)
  refine resolve_eq_ok_of_default rfl (Or.inr rfl) ?_
  rw [hown]
  exact .cons ⟨rfl, rfl, rfl⟩ (.cons ⟨rfl, rfl, rfl⟩ .nil)

theorem overlay_apart_sensor :
    ("sensor", [("base", .string "default")]) ∈ encodedSensor.ownItems ∧
    encodedSensor.items.get? (overlayName "sensor" "de_DE.UTF-8") =
      some [("base", .string "default"), ("name", .string "Sensor")] ∧
    overlayName "sensor" "de_DE.UTF-8" ∈ encodedSensorResolved.keys := by
  have hitem : ("sensor", [("base", .string "default")]) ∈ encodedSensor.ownItems :=
    List.mem_filter.2 ⟨List.mem_cons_self .., by decide⟩
  refine ⟨hitem, rfl, ?_⟩
  exact ((overlay_apart_iff_stem hitem rfl).2.2 ⟨"de_DE", by decide, by decide⟩ _
    resolve_encodedSensor).1

/-- An overlay that is merged into an item need not stay apart from the items. -/
theorem not_forall_overlay_apart :
    ¬ ∀ (scope : Scope) (locale name : String) (definition overlay : Definition),
      (name, definition) ∈ scope.ownItems →
      scope.items.get? (overlayName name locale) = some overlay →
      (∀ resolved, (scope.resolve (some locale)).outcome = .ok resolved →
        overlayName name locale ∉ resolved.keys) ∧
      ∀ other, ((scope.withItem (overlayName name locale) other).resolve (some locale)).failure? =
        (scope.resolve (some locale)).failure? := by
  intro h
  have hitem : ("sensor", [("base", .string "default")]) ∈ encodedSensor.ownItems :=
    List.mem_filter.2 ⟨List.mem_cons_self .., by decide⟩
  exact (h encodedSensor "de_DE.UTF-8" "sensor" _ _ hitem rfl).1 _ resolve_encodedSensor
    (by decide)

end Scope

/-! ## Overlays that are not merged -/

namespace Collection

/-- An overlay for another locale than the given one, or of an entry that is an overlay itself. -/
def isUnselected (collection : Collection) (locale : Option String) (name : String) : Bool :=
  collection.isOverlay name &&
    (locale != some (lastPart name) || (stem? name).any collection.isOverlay)

/-- The collection without the overlays that are not selected. -/
def withoutUnselected (collection : Collection) (locale : Option String) : Collection :=
  collection.filter fun name _ => !collection.isUnselected locale name

variable {collection : Collection} {locale : Option String} {name : String}

theorem isUnselected_of_own (h : collection.isOverlay name = false) :
    collection.isUnselected locale name = false := by
  rw [isUnselected, h, Bool.false_and]

theorem get?_withoutUnselected (h : collection.isUnselected locale name = false) :
    (collection.withoutUnselected locale).get? name = collection.get? name :=
  Entries.get?_filter_of_keep (fun n => !collection.isUnselected locale n) (by simp [h])
    collection.entries

theorem mem_keys_withoutUnselected :
    name ∈ (collection.withoutUnselected locale).keys ↔
      name ∈ collection.keys ∧ collection.isUnselected locale name = false := by
  have hkeys : (collection.withoutUnselected locale).keys =
      collection.keys.filter fun n => !collection.isUnselected locale n :=
    Entries.keys_filter (fun n => !collection.isUnselected locale n) collection.entries
  rw [hkeys, List.mem_filter, Bool.not_eq_true']

/-- An overlay that stays keeps its stem, so no entry that stays changes its class. -/
theorem isOverlay_withoutUnselected (h : collection.isUnselected locale name = false) :
    (collection.withoutUnselected locale).isOverlay name = collection.isOverlay name := by
  cases hstem : stem? name with
  | none => simp [isOverlay, hstem]
  | some stem =>
    have hstays : stem ∈ collection.keys → collection.isUnselected locale stem = false := by
      intro hmem
      have hoverlay : collection.isOverlay name = true := by
        rw [isOverlay_of_stem? hstem, OrderedMap.contains_iff]
        exact hmem
      refine isUnselected_of_own ?_
      simp only [isUnselected, hoverlay, hstem, Bool.true_and, Bool.or_eq_false_iff] at h
      exact h.2
    rw [isOverlay_of_stem? hstem, isOverlay_of_stem? hstem, Bool.eq_iff_iff,
      OrderedMap.contains_iff, OrderedMap.contains_iff, mem_keys_withoutUnselected]
    exact and_iff_left_of_imp hstays

/-- For a locale without a dot nothing that a resolution reads is left out. -/
theorem sameOwn_withoutUnselected (h : ∀ tag ∈ locale, '.' ∉ tag.toList) :
    SameOwn locale collection (collection.withoutUnselected locale) where
  own := by
    unfold own
    change (collection.entries.filter fun entry =>
      !collection.isUnselected locale entry.1).filter _ = _
    rw [List.filter_filter]
    refine List.filter_congr fun entry _ => ?_
    cases hunselected : collection.isUnselected locale entry.1 with
    | false => simp [isOverlay_withoutUnselected hunselected]
    | true =>
      rw [isUnselected, Bool.and_eq_true_iff] at hunselected
      simp [hunselected.1]
  overlays := by
    intro entry hentry
    have hown : collection.isOverlay entry.1 = false := (mem_own_iff.1 hentry).2
    cases locale with
    | none => rfl
    | some tag =>
      have hdot : '.' ∉ tag.toList := h tag rfl
      refine get?_withoutUnselected ?_
      simp [isUnselected, lastPart_overlayName entry.1 hdot,
        stem?_overlayName_of_not_mem entry.1 hdot, hown]

end Collection

namespace Scope

/-- The scope without the overlays that are not selected. -/
def withoutUnselected (scope : Scope) (locale : Option String) : Scope :=
  ⟨scope.bases.withoutUnselected locale, scope.items.withoutUnselected locale⟩

/-- Overlays that are not selected have no part in a resolution. -/
theorem resolve_withoutUnselected (scope : Scope) {locale : Option String}
    (h : ∀ tag ∈ locale, '.' ∉ tag.toList) :
    (scope.withoutUnselected locale).resolve locale = scope.resolve locale :=
  resolve_congr (Collection.sameOwn_withoutUnselected h) (Collection.sameOwn_withoutUnselected h)

/-- A sensor with overlays for two locales, and an overlay of an overlay. -/
def translatedSensor : Scope where
  bases := ⟨[("default", [("base", .null)]), ("default.fr", [("unit", .string "volt")])], by decide⟩
  items := ⟨[("sensor", [("base", .string "default")]),
    ("sensor.fr", [("name", .string "Capteur")]), ("sensor.de", [("name", .string "Sensor")]),
    ("sensor.de.de", [("base", .bool true)])], by decide⟩

theorem resolve_withoutUnselected_sensor :
    (∀ tag ∈ some "de", '.' ∉ tag.toList) ∧
    (translatedSensor.withoutUnselected (some "de")).bases.keys = ["default"] ∧
    (translatedSensor.withoutUnselected (some "de")).items.keys = ["sensor", "sensor.de"] ∧
    (translatedSensor.withoutUnselected (some "de")).resolve (some "de") =
      translatedSensor.resolve (some "de") := by
  have hdot : ∀ tag ∈ some "de", '.' ∉ tag.toList := by
    intro tag htag
    obtain rfl := Option.mem_some.1 htag
    decide
  exact ⟨hdot, by decide, by decide, resolve_withoutUnselected translatedSensor hdot⟩

end Scope

end Pedigree
