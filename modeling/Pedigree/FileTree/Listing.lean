import Pedigree.FileTree

/-!
# Listing a file tree

The entries of a directory in the order of their names. Temporary files are not listed.
-/

namespace Pedigree.FileTree

/-- An entry of a directory by its name. -/
abbrev Entry := String × FileNode

/-- Whether a name does not come after another, by code points. -/
def nameLE (a b : Entry) : Bool := !decide (b.1 < a.1)

/-- The entries of a directory, sorted by name. -/
def entriesAt (t : FileTree) (location : Location) : List Entry :=
  (t.nodes.entries.filterMap fun entry =>
    match entry.1 with
    | .named name :: parent => if parent = location then some (name, entry.2) else none
    | _ => none).mergeSort nameLE

/-- A line of a listing: a directory, or a file with its content. -/
structure ListedEntry where
  path : String
  content : Option String

/-- Lists what stands below a location, depth first. No more than `depth` directories are nested. -/
def listFrom (t : FileTree) (depth : Nat) (location : Location) (trail : String) :
    List ListedEntry :=
  match depth with
  | 0 => []
  | depth + 1 =>
    (t.entriesAt location).flatMap fun (name, node) =>
      match node with
      | .file content => [⟨trail ++ name, some (Text.decodeLossy content)⟩]
      | .directory =>
        ⟨trail ++ name ++ "/", none⟩ ::
          listFrom t depth (.named name :: location) (trail ++ name ++ "/")

/-- Lists what stands in the working directory. -/
def list (t : FileTree) : List ListedEntry := t.listFrom (t.nodes.size + 1) t.workingDirectory ""

end Pedigree.FileTree
