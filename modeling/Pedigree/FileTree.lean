import Pedigree.Failure
import Pedigree.Text.Utf8

/-!
# File trees

A `FileTree` says what stands at each location: a file with its content, or a directory. A
location lists the names that lead to it, innermost first, and the root is the empty location.
Paths are resolved step by step from the working directory, and every step starts in a
directory. Files that wait to be renamed have names of their own kind, which no path can spell.
-/

namespace Pedigree

/-- The name of an entry of a directory. -/
inductive EntryName where
  | named (name : String)
  /-- A file that waits to be renamed. -/
  | temporary (number : Nat)
deriving DecidableEq

/-- Where an entry stands: the names that lead to it, innermost first. -/
abbrev Location := List EntryName

/-- What stands at a location. -/
inductive FileNode where
  | file (content : ByteArray)
  | directory

instance : DecidableEq FileNode
  | .file a, .file b =>
    match ByteArray.instDecidableEq a b with
    | isTrue h => isTrue (h ▸ rfl)
    | isFalse h => isFalse fun heq => h (FileNode.file.inj heq)
  | .directory, .directory => isTrue rfl
  | .file _, .directory => isFalse nofun
  | .directory, .file _ => isFalse nofun

/-- Files and directories, and the directory that relative paths start from. -/
structure FileTree where
  nodes : OrderedMap Location FileNode
  workingDirectory : Location
  /-- A number for the next temporary file. -/
  fresh : Nat
  /-- No temporary file has this number, or one above it. -/
  unused : ∀ number directory, fresh ≤ number →
    nodes.get? (.temporary number :: directory) = none

namespace FileTree

/-- The tree that holds nothing but a working directory. -/
def empty (name : String) : FileTree where
  nodes := OrderedMap.empty.insert [.named name] .directory
  workingDirectory := [.named name]
  fresh := 0
  unused number directory _ := OrderedMap.get?_insert_of_ne (by simp) ..

/-- What stands at a location. -/
def node? (t : FileTree) (location : Location) : Option FileNode :=
  if location.isEmpty then some .directory else t.nodes.get? location

/-- The content of the file at a location. -/
def contentAt? (t : FileTree) (location : Location) : Option ByteArray :=
  match t.node? location with
  | some (.file content) => some content
  | _ => none

/-! ## Paths -/

/-- Takes steps from a location. Each of them starts in a directory. -/
def walk (t : FileTree) (location : Location) : List Path.Step → Except FileFault Location
  | [] => .ok location
  | step :: rest =>
    match t.node? location with
    | none => .error .missing
    | some (.file _) => .error .notADirectory
    | some .directory =>
      match step with
      | .stay => walk t location rest
      | .up => walk t (location.drop 1) rest
      | .name name => walk t (.named name :: location) rest

/-- Where the steps of a path start. -/
def origin (t : FileTree) (path : Path) : Location :=
  if path.isAbsolute then [] else t.workingDirectory

/-- The location of a path, and what stands there. A path that ends in a slash needs a directory. -/
def find (t : FileTree) (path : Path) : Except FileFault (Location × FileNode) := do
  if path.text.isEmpty then throw .missing
  let location ← t.walk (t.origin path) path.steps
  match t.node? location with
  | none => throw .missing
  | some (.file content) =>
    if path.endsInSlash then throw .notADirectory else return (location, .file content)
  | some .directory => return (location, .directory)

/-- The directory in which the last step of a path is taken. -/
def findParent (t : FileTree) (path : Path) : Except FileFault Location := do
  if path.text.isEmpty then throw .missing
  let location ← t.walk (t.origin path) path.steps.dropLast
  match t.node? location with
  | none => throw .missing
  | some (.file _) => throw .notADirectory
  | some .directory => return location

/-! ## Reading -/

/-- Whether a directory stands at a path. -/
def isDirectory (t : FileTree) (path : Path) : Bool :=
  match t.find path with
  | .ok (_, .directory) => true
  | _ => false

/-- Whether a file stands at a path. -/
def isFile (t : FileTree) (path : Path) : Bool :=
  match t.find path with
  | .ok (_, .file _) => true
  | _ => false

/-- The content of a file. -/
def readBytes (t : FileTree) (path : Path) : Except FileFault ByteArray := do
  match ← t.find path with
  | (_, .file content) => return content
  | (_, .directory) => throw .isADirectory

/-- The content of a file that holds UTF-8 text. -/
def readText (t : FileTree) (path : Path) : Except FileFault String := do
  match Text.decode? (← t.readBytes path) with
  | some text => return text
  | none => throw .notText

end FileTree

end Pedigree
