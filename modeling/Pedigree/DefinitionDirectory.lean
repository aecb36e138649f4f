import Pedigree.Compilation
import Pedigree.FileTree.Listing
import Pedigree.Yaml.Definition

/-!
# Definitions in directories

A directory of definitions holds one file for each, named for the definition. A scope is
a directory of items whose sub-directory `bases` holds the bases. Files are read in
the order of their names, so the order of a listing does not matter.
-/

namespace Pedigree

/-- The sub-directory of a scope that holds its bases. -/
def basesDirectory : String := "bases"

namespace FileTree

/-- Whether a file holds a definition, by the extension of its name. -/
def isDefinitionFile (extensions : List String) (name : String) : Bool :=
  match (Path.splitExtension name).2 with
  | some extension => extensions.contains extension
  | none => false

/-- The definition files at a location, sorted by name. -/
def definitionFiles (t : FileTree) (extensions : List String) (location : Location) :
    List (String × ByteArray) :=
  (t.entriesAt location).filterMap fun (name, node) =>
    match node with
    | .file content => if isDefinitionFile extensions name then some (name, content) else none
    | .directory => none

/-- The definition in a file. -/
def parseFile (file : Path) (content : ByteArray) : Except Failure Definition :=
  match Text.decode? content with
  | some text => Definition.parse text file
  | none => .error (.io file .notText)

/-- Adds the definitions of files under their names without extension. -/
def collect (directory : Path) (read : Collection) :
    List (String × ByteArray) → Except Failure Collection
  | [] => .ok read
  | (name, content) :: rest => do
    let definition ← parseFile (directory.join ⟨name⟩) content
    collect directory (read.insert (Path.splitExtension name).1 definition) rest

/-- Reads the definitions of a directory, those of its sub-directories apart. -/
def readCollection (t : FileTree) (extensions : List String) (directory : Path) :
    Logged Failure Collection := do
  match t.find directory with
  | .ok (location, .directory) =>
    let read ← .ofExcept (collect directory .empty (t.definitionFiles extensions location))
    .say .debug ("loaded " ++ toString read.size ++ " definitions from " ++ directory.text)
    return read
  | _ => .fail (.directoryNotFound directory)

/-- Loads a scope: the items of a directory, and the bases of its sub-directory. A directory of
bases has no bases of its own. -/
def loadDirectory (t : FileTree) (extensions : List String) (directory : Path) :
    Logged Failure Scope := do
  let items ← t.readCollection extensions directory
  if directory.fileName? = some basesDirectory then return ⟨.empty, items⟩
  let bases ← t.readCollection extensions (directory.join ⟨basesDirectory⟩)
  return ⟨bases, items⟩

/-- The scopes below a root. -/
def source (t : FileTree) (extensions : List String) (root : Path) : Source := fun kind =>
  t.loadDirectory extensions (root.join ⟨kind.directoryName⟩)

end FileTree

end Pedigree
