import Pedigree.Json.Printer
import Pedigree.Link
import Pedigree.Order

/-!
# Compiling

`compile` loads the property scope and resolves it, then loads the object scope and
resolves it against the properties, prints both documents and hands them to a sink. The
sink is called once, and only when everything before has succeeded, so a failure never
leaves half a compilation behind.
-/

namespace Pedigree

/-- The two documents of a compilation. -/
structure Documents where
  properties : String
  objects : String
deriving DecidableEq

/-- What a compilation amounts to. -/
structure Summary where
  /-- The number of properties. -/
  properties : Nat
  /-- The number of objects. -/
  objects : Nat
  /-- The files written. -/
  written : List Path
deriving DecidableEq

/-- Where scopes are loaded from. -/
abbrev Source := ScopeKind → Logged Failure Scope

/-- Where documents go. -/
abbrev Sink (σ : Type) := Documents → Action Failure σ (List Path)

namespace Collection

/-- A collection as one mapping. -/
def toValue (collection : Collection) : Value :=
  .mapping (collection.entries.map fun entry => (entry.1, .mapping entry.2))

end Collection

namespace Resolved

/-- Prints both documents, the properties as resolved and the objects by their order. -/
def render (resolved : Resolved) (indent : Nat) : Except Failure Documents := do
  let objects ← resolved.objects.sortByOrder
  return ⟨Json.pretty indent resolved.properties.toValue, Json.pretty indent objects.toValue⟩

end Resolved

namespace Compilation

/-- Loads and resolves both scopes. Objects are loaded only once the properties have resolved. -/
def resolve (source : Source) (locale : Option String) : Logged Failure Resolved := do
  let properties ← source .properties
  let properties ← properties.resolve locale
  let objects ← source .objects
  let objects ← Scope.resolveObjects properties objects locale
  return ⟨properties, objects⟩

/-- Resolves and prints both documents, and publishes neither. -/
def render (source : Source) (locale : Option String) (indent : Nat) :
    Logged Failure (Summary × Documents) := do
  let resolved ← resolve source locale
  let documents ← Logged.ofExcept (resolved.render indent)
  return (⟨resolved.properties.size, resolved.objects.size, []⟩, documents)

/-- Resolves, prints and publishes both documents. -/
def compile {σ : Type} (source : Source) (sink : Sink σ) (locale : Option String) (indent : Nat) :
    Action Failure σ Summary := do
  let (summary, documents) ← Action.lift (render source locale indent)
  let written ← sink documents
  Action.say .info ("compiled " ++ toString summary.properties ++ " properties and " ++
    toString summary.objects ++ " objects")
  return { summary with written }

end Compilation

end Pedigree
