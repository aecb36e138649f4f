import Pedigree.Scope

/-!
# Shorthands and links

An object lists its properties under `properties`. A scalar there is a shorthand for the
record `{content: scalar}`: `Collection.normalize` writes it out before anything is
merged. Once the object scope is resolved, `Collection.link` puts the global definition
of the same name below each entry.

Both work in place and stop at the first offender (`Entries.sweep`): what stands before
it is changed, it and all that follows is not.
-/

namespace Pedigree

/-- The field of a record that holds what a shorthand stands for. -/
def contentKey : String := "content"

namespace Entries

variable {κ α : Type}

/-- Visits the entries in order and puts the visitor's value in the place of each. A failure
stops the visit. -/
def sweep (visit : κ → α → Logged Failure Unit × α) :
    Entries κ α → Logged Failure Unit × Entries κ α
  | [] => (.done (), [])
  | (key, value) :: rest =>
    match visit key value with
    | (⟨.error failure, log⟩, value) => (⟨.error failure, log⟩, (key, value) :: rest)
    | (⟨.ok (), log⟩, value) =>
      match sweep visit rest with
      | (⟨outcome, more⟩, rest) => (⟨outcome, log ++ more⟩, (key, value) :: rest)

/-- A sweep keeps the keys and their order. -/
theorem keys_sweep (visit : κ → α → Logged Failure Unit × α) (entries : Entries κ α) :
    keys (sweep visit entries).2 = keys entries := by
  induction entries with
  | nil => rfl
  | cons entry rest ih =>
    obtain ⟨key, value⟩ := entry
    unfold sweep
    split
    · rfl
    · simp [ih]

end Entries

namespace OrderedMap

variable {κ α : Type}

/-- Sweeps over the entries of a map. -/
def sweep (visit : κ → α → Logged Failure Unit × α) (m : OrderedMap κ α) :
    Logged Failure Unit × OrderedMap κ α :=
  ((Entries.sweep visit m.entries).1,
    ⟨(Entries.sweep visit m.entries).2, by rw [Entries.keys_sweep]; exact m.distinct⟩)

@[simp] theorem keys_sweep (visit : κ → α → Logged Failure Unit × α) (m : OrderedMap κ α) :
    (m.sweep visit).2.keys = m.keys :=
  Entries.keys_sweep visit m.entries

end OrderedMap

namespace Value

/-- A scalar as a record, any other value as it is. -/
def writtenOut (value : Value) : Value :=
  if value.isScalar then .mapping [(contentKey, value)] else value

end Value

namespace Definition

/-- Writes out the shorthands of a definition. Missing and null properties are left alone. -/
def normalize (name : String) (definition : Definition) : Logged Failure Unit × Definition :=
  match Entries.get? propertiesKey definition with
  | none | some .null => (.done (), definition)
  | some (.mapping properties) =>
    (.done (), Entries.insert propertiesKey
      (.mapping (properties.map fun entry => (entry.1, entry.2.writtenOut))) definition)
  | some other => (.fail (.invalidProperties name other.kind), definition)

/-- Puts the global definition below each property of an object. -/
def link (globals : Collection) (name : String) (object : Definition) :
    Logged Failure Unit × Definition :=
  match Entries.get? propertiesKey object with
  | none | some .null => (.done (), object)
  | some (.mapping overrides) =>
    match Entries.sweep (linkProperty globals name) overrides with
    | (⟨outcome, _⟩, overrides) =>
      let line : LogLine := ⟨.debug, "cross-linked " ++ toString overrides.length ++
        " properties into '" ++ name ++ "'"⟩
      (⟨outcome, match outcome with | .ok () => [line] | .error _ => []⟩,
        Entries.insert propertiesKey (.mapping overrides) object)
  | some other => (.fail (.invalidProperties name other.kind), object)
where
  /-- Puts the global definition of a property below its override. -/
  linkProperty (globals : Collection) (object property : String) (override : Value) :
      Logged Failure Unit × Value :=
    match globals.get? property with
    | none => (.fail (.undefinedProperty object property), override)
    | some entries => (.done (), (Value.mapping entries).merge override)

end Definition

namespace Collection

/-- Writes out the shorthands of every definition. -/
def normalize (definitions : Collection) : Logged Failure Unit × Collection :=
  definitions.sweep Definition.normalize

/-- Links the properties of every object to the global definitions. -/
def link (globals objects : Collection) : Logged Failure Unit × Collection :=
  objects.sweep (Definition.link globals)

end Collection

/-- Resolved properties and resolved objects. -/
structure Resolved where
  properties : Collection
  objects : Collection

namespace Scope

/-- Resolves an object scope and links it to resolved properties. -/
def resolveObjects (properties : Collection) (objects : Scope) (locale : Option String) :
    Logged Failure Collection := do
  let (normalizedBases, bases) := objects.bases.normalize
  normalizedBases
  let (normalizedItems, items) := objects.items.normalize
  normalizedItems
  let resolved ← Scope.resolve ⟨bases, items⟩ locale
  let (linked, objects) := Collection.link properties resolved
  linked
  return objects

/-- Resolves both scopes, properties first. -/
def resolveBoth (properties objects : Scope) (locale : Option String) :
    Logged Failure Resolved := do
  let properties ← properties.resolve locale
  let objects ← resolveObjects properties objects locale
  return ⟨properties, objects⟩

end Scope

end Pedigree
