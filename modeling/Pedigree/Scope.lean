import Pedigree.Expander

/-!
# Scopes

A scope holds bases and the items that inherit from them. `Scope.resolve` expands the
bases and merges each item, its overlay for the locale included, onto the base it names.
Overlays do not resolve on their own. Results are in item order.
-/

namespace Pedigree

/-- The two scopes of a definitions root. -/
inductive ScopeKind where
  | properties
  | objects
deriving DecidableEq, Repr

namespace ScopeKind

/-- The directory of a scope. -/
def directoryName : ScopeKind → String
  | .properties => "properties"
  | .objects => "objects"

end ScopeKind

/-- Bases and items. -/
structure Scope where
  bases : Collection
  items : Collection
deriving Inhabited

namespace Scope

/-- An item on top of the expanded base it names. -/
def resolveItem (scope : Scope) (locale : Option String) (expanded : Collection)
    (name : String) (definition : Definition) : Logged Failure Definition := do
  match ← Logged.ofExcept (Definition.baseReference name definition) with
  | none => Logged.fail (.missingBase name)
  | some baseName =>
    match expanded.get? baseName with
    | none => Logged.fail (.unknownBase name baseName)
    | some base =>
      let overlaid ← scope.items.localize locale name definition
      return Definition.merge base overlaid

/-- Resolves items in order, overlays apart, and adds them to those already resolved. -/
def resolveItems (scope : Scope) (locale : Option String) (expanded : Collection)
    (resolved : Collection) : Entries String Definition → Logged Failure Collection
  | [] => .done resolved
  | (name, definition) :: rest =>
    if scope.items.isOverlay name then resolveItems scope locale expanded resolved rest
    else do
      let item ← scope.resolveItem locale expanded name definition
      resolveItems scope locale expanded (resolved.insert name item) rest

/-- Resolves every item of a scope. -/
def resolve (scope : Scope) (locale : Option String) : Logged Failure Collection := do
  let expanded ← (Expander.new scope.bases locale).expandAll
  let resolved ← scope.resolveItems locale expanded .empty scope.items.entries
  Logged.say .debug ("resolved " ++ toString resolved.size ++ " items against " ++
    toString expanded.size ++ " bases")
  return resolved

end Scope

end Pedigree
