import Pedigree.Yaml.Node.Reader
import Pedigree.Yaml.Scalar
import Pedigree.Yaml.Token.Lexer

/-!
# Trees of nodes

`Tree.ofNode?` replaces aliases and resolves scalars. It refuses equal keys in one mapping,
collections nested more than 128 deep, and more than a hundred aliases for each node that is
written, so that a short text cannot blow up. `Tree.read?` reads the tree of a text.
-/

namespace Pedigree.Yaml.Tree

/-- A step that may fail and counts the aliases followed. -/
abbrev Loading := StateT Nat Option

/-- How deep collections may be nested. -/
def depthLimit : Nat := 128

/-- The nodes of a document that aliases refer to, and how many aliases may be followed. -/
structure Anchored where
  nodes : List (Nat × Node)
  limit : Nat

/-- The anchored nodes of a document. Where a number is given twice, the later node has it. -/
def Anchored.of (root : Node) : Anchored := ⟨root.anchored.reverse, 100 * root.size⟩

/-- Replaces an alias. A tag given outside of it does not count any more. -/
def follow (anchored : Anchored) (tagged : Bool) : Node → Loading (Bool × Node)
  | .alias anchor => do
    let followed ← get
    if anchored.limit ≤ followed then failure
    set (followed + 1)
    match Entries.get? anchor anchored.nodes with
    | some node => return (false, node)
    | none => failure
  | node => return (tagged, node)

/-- The local tag to put around a node, unless there is one already. -/
def wrapper? (tagged : Bool) (properties : Properties) : Option String :=
  if tagged then none else properties.tag.bind Scalar.localName?

/-- The meaning of a scalar with a local tag around it, if it has one. -/
def loadScalar (tagged : Bool) (properties : Properties) (text : String) (style : Style) :
    Option Tree :=
  match wrapper? tagged properties with
  | some tag => (Scalar.untagged text style).map (.tagged tag)
  | none =>
    match tagged, properties.tag with
    | false, some tag => Scalar.tagged tag text style
    | _, _ => Scalar.untagged text style

/-- Loads the entries of a mapping in order, keys before values. A key inside a local tag takes
no tag of its own. -/
def loadEntries (load : Bool → Node → Loading Tree) (tagged : Bool)
    (loaded : List (Tree × Tree)) : List (Node × Node) → Loading (List (Tree × Tree))
  | [] => return loaded.reverse
  | (key, value) :: rest => do
    let key ← load tagged key
    if loaded.any fun entry => entry.1.same key then failure
    let value ← load false value
    loadEntries load tagged ((key, value) :: loaded) rest

/-- Puts a local tag around a tree. -/
def wrap (tag : Option String) (tree : Tree) : Tree :=
  match tag with
  | some tag => .tagged tag tree
  | none => tree

/-- Loads a node that is no alias. Only with a loader for what is inside may it be a collection. -/
def loadNode (inside : Option (Bool → Node → Loading Tree)) (tagged : Bool) :
    Node → Loading Tree
  | .scalar properties text style => loadScalar tagged properties text style
  | .alias _ => failure
  | .sequence properties items => do
    let load ← inside
    let items ← items.mapM (load false)
    return wrap (wrapper? tagged properties) (.sequence items)
  | .mapping properties entries => do
    let load ← inside
    let tag := wrapper? tagged properties
    let entries ← loadEntries load (tagged || tag.isSome) [] entries
    return wrap tag (.mapping entries)

/-- Loads a node. No more collections than `depth` may be nested in it. -/
def load (anchored : Anchored) (depth : Nat) (tagged : Bool) (node : Node) : Loading Tree := do
  let (tagged, node) ← follow anchored tagged node
  match depth with
  | 0 => loadNode none tagged node
  | depth + 1 => loadNode (some (load anchored depth)) tagged node

/-- The tree of a document. -/
def ofNode? (root : Node) : Option Tree :=
  ((load (.of root) depthLimit false root).run 0).map Prod.fst

/-- The tree of a text that holds one document. An empty text holds null. -/
def read? (text : String) : Option Tree := do
  let tokens ← Token.lex text
  let root ← Document.ofTokens? tokens
  ofNode? root

end Pedigree.Yaml.Tree
