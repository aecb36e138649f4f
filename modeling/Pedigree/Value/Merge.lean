import Pedigree.Value

/-!
# Layering values

`Value.merge` puts a layer on top of a base. Two mappings are merged key by key, two
sequences are concatenated, and in every other case the layer wins, null included.
Keys of the base keep their place, keys that only the layer has follow in its order.
-/

namespace Pedigree

mutual

/-- The base with the layer on top. -/
def Value.merge (base : Value) : Value → Value
  | .mapping layer =>
    match base with
    | .mapping entries => .mapping (mergeEntries entries layer)
    | _ => .mapping layer
  | .sequence layer =>
    match base with
    | .sequence items => .sequence (items ++ layer)
    | _ => .sequence layer
  | layer => layer

/-- Merges the entries of a layer into the base, one after the other. -/
def mergeEntries (base : List (String × Value)) : List (String × Value) → List (String × Value)
  | [] => base
  | (key, value) :: rest =>
    let merged := match Entries.get? key base with
      | some old => old.merge value
      | none => value
    mergeEntries (Entries.insert key merged base) rest

end

namespace Definition

/-- The definition with a layer on top. -/
def merge (base layer : Definition) : Definition := mergeEntries base layer

/-- All layers on top of each other, the first one lowest. -/
def stack (layers : List Definition) : Definition := layers.foldl merge []

end Definition

end Pedigree
