import Pedigree.Failure
import Pedigree.Text.Blank
import Pedigree.Yaml.Tree.Loader

/-!
# Definitions from YAML

`Tree.toValue` turns a tree into a value: tags are dropped, scalar keys become their texts,
and numbers that no document can hold are refused. `Definition.parse` reads the content of a
definition file, which holds a mapping or nothing.
-/

namespace Pedigree

namespace Yaml.Tree

/-- The text of a key. Only strings, numbers and truth values are keys. -/
def keyText? : Tree → Option String
  | .string s => some s
  | .number n => some n.text
  | .bool b => some (if b then "true" else "false")
  | .tagged _ tree => keyText? tree
  | _ => none

mutual

/-- The value of a tree. The first key or number in document order that has none is the failure. -/
def toValue (file : Path) : Tree → Except Failure Value
  | .null => .ok .null
  | .bool b => .ok (.bool b)
  | .number n =>
    match n.toNumber? with
    | some held => .ok (.number held)
    | none => .error (.invalidYaml file (.unrepresentable n.text))
  | .string s => .ok (.string s)
  | .sequence items => (itemsToValues file items).map .sequence
  | .mapping entries =>
    (entriesToPairs file entries).map fun pairs => .mapping (Entries.ofPairs pairs)
  | .tagged _ tree => toValue file tree

/-- The values of the items of a sequence. -/
def itemsToValues (file : Path) : List Tree → Except Failure (List Value)
  | [] => .ok []
  | item :: rest => do
    let value ← toValue file item
    let values ← itemsToValues file rest
    return value :: values

/-- The key texts and values of the entries of a mapping. -/
def entriesToPairs (file : Path) : List (Tree × Tree) → Except Failure (List (String × Value))
  | [] => .ok []
  | (key, item) :: rest => do
    match keyText? key with
    | none => .error (.invalidKey file)
    | some key =>
      let value ← toValue file item
      let pairs ← entriesToPairs file rest
      return (key, value) :: pairs

end

end Yaml.Tree

namespace Definition

/-- Reads the content of a definition file. Blank content and null are empty definitions. -/
def parse (content : String) (file : Path) : Except Failure Definition :=
  if (Text.trim content.toList).isEmpty then .ok []
  else match Yaml.Tree.read? content with
    | none => .error (.invalidYaml file .malformed)
    | some tree => do
      match ← tree.toValue file with
      | .null => .ok []
      | .mapping entries => .ok entries
      | other => .error (.notAMapping file other.kind)

end Definition

end Pedigree
