import Pedigree.Failure
import Pedigree.Log
import Pedigree.Value.Merge

/-!
# Definitions, bases and overlays

A definition names the base it inherits from under the key `base`. Only the definition
`default` ends a chain of bases, and only names of lower case letters, digits and
hyphens are bases. The entry `<name>.<locale>` of a collection is an overlay of the
entry `<name>` beside it: `localize` merges it over that entry for its locale.
-/

namespace Pedigree

/-- The key of a definition that names its base. -/
def baseKey : String := "base"

/-- The definition where every chain of bases ends. -/
def defaultBase : String := "default"

/-- The key of an object that holds its property overrides. -/
def propertiesKey : String := "properties"

namespace Definition

/-- The base a definition names. Absent and null both mean none. -/
def baseReference (name : String) (definition : Definition) : Except Failure (Option String) :=
  match Entries.get? baseKey definition with
  | none | some .null => .ok none
  | some (.string base) => .ok (some base)
  | some other => .error (.invalidBaseReference name other.kind)

end Definition

/-- Whether a base may have this name. -/
def isBaseName (name : String) : Bool :=
  !name.isEmpty && name.toList.all fun c => c.isLower || c.isDigit || c = '-'

/-- The name of the overlay of a definition for a locale. -/
def overlayName (name locale : String) : String := name ++ "." ++ locale

/-- The part of a name before its last dot. -/
def stem? (name : String) : Option String :=
  match name.toList.reverse.dropWhile (· != '.') with
  | [] => none
  | _ :: stem => some (String.ofList stem.reverse)

namespace Collection

/-- Whether a name is an overlay of another definition of the collection. -/
def isOverlay (collection : Collection) (name : String) : Bool :=
  match stem? name with
  | some stem => collection.contains stem
  | none => false

/-- The overlay of a definition for a locale. -/
def overlay? (collection : Collection) (locale : Option String) (name : String) :
    Option Definition :=
  locale.bind fun locale => collection.get? (overlayName name locale)

/-- A definition with its overlay on top, if there is one. -/
def localized (collection : Collection) (locale : Option String) (name : String)
    (definition : Definition) : Definition :=
  match collection.overlay? locale name with
  | some overlay => Definition.merge definition overlay
  | none => definition

/-- Logs that a definition has an overlay, and merges it. -/
def localize (collection : Collection) (locale : Option String) (name : String)
    (definition : Definition) : Logged Failure Definition := do
  if (collection.overlay? locale name).isSome then
    Logged.say .debug ("applying locale overlay to '" ++ name ++ "'")
  return collection.localized locale name definition

variable {collection other : Collection} {locale : Option String} {name : String}

/-- What is merged into a definition is decided by its overlay. -/
theorem localized_congr (h : other.overlay? locale name = collection.overlay? locale name) :
    other.localized locale name = collection.localized locale name := by
  funext definition
  rw [localized, h, localized]

theorem localize_congr (h : other.overlay? locale name = collection.overlay? locale name) :
    other.localize locale name = collection.localize locale name := by
  funext definition
  rw [localize, h, localized_congr h, localize]

end Collection

end Pedigree
