import Pedigree.Yaml.Token

/-!
# Nodes of a YAML document

A node is a scalar, a collection, or an alias of a node that carries an anchor. Anchors are
numbered: a name that is given again gets a new number. Tags are resolved, so that `!!int`
and the same tag between angle brackets do not differ.
-/

namespace Pedigree.Yaml

/-- A resolved tag, as bytes. -/
abbrev Tag := List UInt8

/-- What may precede a node. -/
structure Properties where
  anchor : Option Nat
  tag : Option Tag

/-- A node of a document. -/
inductive Node where
  | alias (anchor : Nat)
  | scalar (properties : Properties) (text : String) (style : Style)
  | sequence (properties : Properties) (items : List Node)
  | mapping (properties : Properties) (entries : List (Node × Node))

namespace Node

/-- A node of which nothing is written. -/
def empty : Node := .scalar ⟨none, none⟩ "" .plain

/-- A number of an anchor with its node, if there is one. -/
def anchoredHere (properties : Properties) (node : Node) : List (Nat × Node) :=
  match properties.anchor with
  | some anchor => [(anchor, node)]
  | none => []

mutual

/-- The nodes with an anchor, in the order of their starts. -/
def anchored : Node → List (Nat × Node)
  | .alias _ => []
  | .scalar properties text style => anchoredHere properties (.scalar properties text style)
  | .sequence properties items =>
    anchoredHere properties (.sequence properties items) ++ anchoredItems items
  | .mapping properties entries =>
    anchoredHere properties (.mapping properties entries) ++ anchoredEntries entries

/-- The nodes with an anchor among the items of a sequence. -/
def anchoredItems : List Node → List (Nat × Node)
  | [] => []
  | node :: rest => node.anchored ++ anchoredItems rest

/-- The nodes with an anchor among the entries of a mapping. -/
def anchoredEntries : List (Node × Node) → List (Nat × Node)
  | [] => []
  | (key, value) :: rest => key.anchored ++ (value.anchored ++ anchoredEntries rest)

end

mutual

/-- The number of scalars, aliases, and ends of collections. -/
def size : Node → Nat
  | .alias _ => 1
  | .scalar .. => 1
  | .sequence _ items => 2 + sizeItems items
  | .mapping _ entries => 2 + sizeEntries entries

/-- The size of the items of a sequence. -/
def sizeItems : List Node → Nat
  | [] => 0
  | node :: rest => node.size + sizeItems rest

/-- The size of the entries of a mapping. -/
def sizeEntries : List (Node × Node) → Nat
  | [] => 0
  | (key, value) :: rest => key.size + value.size + sizeEntries rest

end

end Node

end Pedigree.Yaml
