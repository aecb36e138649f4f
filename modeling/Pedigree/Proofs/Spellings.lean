import Pedigree.Proofs.PropertyExtension

/-!
# Shorthands and records

A property of an object may be written as a scalar or as the record `{content: scalar}`.
`Scope.Respells` replaces any of the scalars of a scope by their records : in bases, in items and
in overlays, each on its own. A record is what the scalar is written out to and is left alone
itself, so both spellings of a definition are normalized to the same (`normalize_of_respells`).
This happens before anything is merged, so no later step can tell the spellings apart
(`Scope.resolveObjects_of_respells`).
-/

namespace Pedigree

/-- Two sweeps whose visits do the same come to the same. If they succeed they leave the same
entries behind. -/
theorem Entries.sweep_congr {κ α : Type} {visit : κ → α → Logged Failure Unit × α}
    {entries other : Entries κ α}
    (h : Lists Prod.fst (fun entry value => visit entry.1 value = visit entry.1 entry.2)
      entries other) :
    (sweep visit other).1 = (sweep visit entries).1 ∧
      ((sweep visit entries).1.outcome = .ok () →
        (sweep visit other).2 = (sweep visit entries).2) := by
  induction h with
  | nil => exact ⟨rfl, fun _ => rfl⟩
  | @cons entry entry' rest rest' hentry _ ih =>
    obtain ⟨key, value⟩ := entry
    obtain ⟨key', value'⟩ := entry'
    obtain ⟨hkey, hvisit⟩ := hentry
    obtain rfl : key' = key := hkey
    replace hvisit : visit key' value' = visit key' value := hvisit
    obtain ⟨houtcome, hrest⟩ := ih
    rcases hfirst : visit key' value with ⟨⟨failure | _, log⟩, after⟩
    · simp [sweep, hvisit, hfirst]
    · simpa [sweep, hvisit, hfirst, houtcome] using hrest

/-! ## Spellings -/

/-- The other value is the same, or the record that this one is a shorthand for. -/
inductive Value.Respells : Value → Value → Prop
  | same (value : Value) : Respells value value
  | record {value : Value} (h : value.isScalar = true) :
    Respells value (.mapping [(contentKey, value)])

/-- The other definition is the same, or has records in the place of some of the scalars among its
properties. -/
inductive Definition.Respells (definition : Definition) : Definition → Prop
  | same : definition.Respells definition
  | properties {old new : Entries String Value}
    (hget : Entries.get? propertiesKey definition = some (.mapping old))
    (hnew : Entries.Lists Prod.fst (fun property => Value.Respells property.2) old new) :
    definition.Respells (Entries.insert propertiesKey (.mapping new) definition)

/-- The same definitions in the same order, each in one spelling or another. -/
def Collection.Respells (collection other : Collection) : Prop :=
  Entries.Lists Prod.fst (fun entry => Definition.Respells entry.2) collection.entries other.entries

/-- Both collections of the other scope hold the same definitions, in one spelling or another. -/
structure Scope.Respells (scope other : Scope) : Prop where
  bases : scope.bases.Respells other.bases
  items : scope.items.Respells other.items

/-! ## Writing out -/

/-- A shorthand is written out to its record, and the record is left alone. -/
theorem Value.Respells.writtenOut_eq {value other : Value} (h : value.Respells other) :
    other.writtenOut = value.writtenOut := by
  cases h with
  | same => rfl
  | record hscalar =>
    rw [writtenOut, writtenOut, if_pos hscalar]
    rfl

namespace Definition

theorem map_writtenOut_of_respells {old new : Entries String Value}
    (h : Entries.Lists Prod.fst (fun property => Value.Respells property.2) old new) :
    (new.map fun property => (property.1, property.2.writtenOut)) =
      old.map fun property => (property.1, property.2.writtenOut) := by
  induction h with
  | nil => rfl
  | cons hproperty _ ih => rw [List.map_cons, List.map_cons, ih, hproperty.1,
      hproperty.2.writtenOut_eq]

/-- Both spellings of a definition are normalized alike, whether that fails or not. -/
theorem normalize_of_respells {definition other : Definition} (h : definition.Respells other)
    (name : String) : normalize name other = normalize name definition := by
  cases h with
  | same => rfl
  | properties hget hnew =>
    simp only [normalize, hget, Entries.get?_insert_self, map_writtenOut_of_respells hnew,
      Entries.insert_insert]

end Definition

/-- Both spellings of a collection fail alike, or are normalized to the same collection. -/
theorem Collection.normalize_of_respells {collection other : Collection}
    (h : collection.Respells other) :
    other.normalize.1 = collection.normalize.1 ∧
      (collection.normalize.1.outcome = .ok () → other.normalize.2 = collection.normalize.2) := by
  have hvisits : Entries.Lists Prod.fst (fun entry value =>
      Definition.normalize entry.1 value = Definition.normalize entry.1 entry.2)
      collection.entries other.entries :=
    List.Forall₂.imp (fun _ _ hentry => ⟨hentry.1, Definition.normalize_of_respells hentry.2 _⟩) h
  obtain ⟨houtcome, hentries⟩ := Entries.sweep_congr hvisits
  exact ⟨houtcome, fun hok => OrderedMap.ext (hentries hok)⟩

namespace Scope

variable {objects objects' : Scope}

/-- Objects resolve to the same, or fail with the same, in whatever spelling their properties
are. -/
theorem resolveObjects_of_respells (properties : Collection) (h : objects.Respells objects')
    (locale : Option String) :
    resolveObjects properties objects' locale = resolveObjects properties objects locale := by
  obtain ⟨hbases, hbases'⟩ := Collection.normalize_of_respells h.bases
  obtain ⟨hitems, hitems'⟩ := Collection.normalize_of_respells h.items
  unfold resolveObjects
  dsimp only
  rw [hbases, hitems]
  refine Logged.bind_congr fun _ hbasesOk => Logged.bind_congr fun _ hitemsOk => ?_
  rw [hbases' hbasesOk, hitems' hitemsOk]

/-! ## A mixture of spellings -/

/-- An input with shorthands in its base, in the input itself and in its overlay. -/
def shorthandInput : Scope where
  bases := ⟨[("default", [("base", .null),
    ("properties", .mapping [("units", .string "volt"), ("range", .null)])])], by decide⟩
  items := ⟨[("input", [("base", .string "default"),
      ("properties", .mapping [("units", .mapping [("preset", .bool true)]),
        ("range", .bool false)])]),
    ("input.de", [("properties", .mapping [("units", .string "Volt")])])], by decide⟩

/-- The same input with records in the base and in the overlay. -/
def recordInput : Scope where
  bases := ⟨[("default", [("base", .null),
    ("properties", .mapping [("units", .mapping [("content", .string "volt")]),
      ("range", .mapping [("content", .null)])])])], by decide⟩
  items := ⟨[("input", [("base", .string "default"),
      ("properties", .mapping [("units", .mapping [("preset", .bool true)]),
        ("range", .bool false)])]),
    ("input.de", [("properties", .mapping
      [("units", .mapping [("content", .string "Volt")])])])], by decide⟩

/-- The properties that the input overrides. -/
def inputProperties : Collection := ⟨[("units", [("order", .bool true)]), ("range", [])], by decide⟩

/-- What the input is for the locale of its overlay. -/
def mergedInput : Collection :=
  ⟨[("input", [("base", .string "default"),
    ("properties", .mapping [("units", .mapping [("content", .string "Volt"),
        ("preset", .bool true)]),
      ("range", .mapping [("content", .bool false)])])])], by decide⟩

/-- The input with its properties linked. -/
def linkedInput : Collection :=
  ⟨[("input", [("base", .string "default"),
    ("properties", .mapping [("units", .mapping [("order", .bool true),
        ("content", .string "Volt"), ("preset", .bool true)]),
      ("range", .mapping [("content", .bool false)])])])], by decide⟩

theorem respells_shorthandInput : shorthandInput.Respells recordInput where
  bases := .cons ⟨rfl, .properties rfl (.cons ⟨rfl, .record rfl⟩ (.cons ⟨rfl, .record rfl⟩ .nil))⟩
    .nil
  items := .cons ⟨rfl, .same⟩
    (.cons ⟨rfl, .properties rfl (.cons ⟨rfl, .record rfl⟩ .nil)⟩ .nil)

theorem resolveObjects_shorthandInput :
    (resolveObjects inputProperties shorthandInput (some "de")).outcome = .ok linkedInput := by
  refine resolveObjects_eq_ok_iff.2 ⟨rfl, rfl, mergedInput, ?_, rfl, rfl⟩
  refine resolve_eq_ok_of_default rfl (Or.inr rfl) ?_
  have hown : shorthandInput.writtenOut.ownItems = shorthandInput.writtenOut.items.entries.take 1 :=
    rfl
  rw [hown]
  exact .cons ⟨rfl, rfl, rfl⟩ .nil

theorem resolveObjects_of_respells_input :
    shorthandInput.Respells recordInput ∧
      (resolveObjects inputProperties recordInput (some "de")).outcome = .ok linkedInput := by
  refine ⟨respells_shorthandInput, ?_⟩
  rw [resolveObjects_of_respells inputProperties respells_shorthandInput]
  exact resolveObjects_shorthandInput

end Scope

end Pedigree
