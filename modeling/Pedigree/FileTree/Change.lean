import Pedigree.FileTree

/-!
# Changing a file tree

Making directories, writing, renaming and removing. Each operation gives the changed tree, or
the reason why it is refused; a refused operation changes nothing. `makeDirectories` is the one
that can stop halfway, and it gives the tree it has reached.
-/

namespace Pedigree.FileTree

/-- Puts a node into a directory. -/
def put (t : FileTree) (directory : Location) (name : String) (node : FileNode) : FileTree :=
  { t with
    nodes := t.nodes.insert (.named name :: directory) node
    unused number other hnumber :=
      (OrderedMap.get?_insert_of_ne (by simp) ..).trans (t.unused number other hnumber) }

/-- Takes away what stands at a location. -/
def drop (t : FileTree) (location : Location) : FileTree :=
  { t with
    nodes := t.nodes.erase location
    unused number other hnumber := OrderedMap.get?_erase_eq_none (t.unused number other hnumber) }

/-! ## Directories -/

/-- Makes a directory in a directory that exists. -/
def makeDirectory (t : FileTree) (path : Path) : Except FileFault FileTree := do
  let parent ← t.findParent path
  match path.steps.getLast? with
  | some (.name name) =>
    let location := .named name :: parent
    if (t.node? location).isSome then throw .exists
    return t.put parent name .directory
  | _ => throw .exists

/-- Makes the first of the paths a directory, after the rest of them where its parent is missing. -/
def makeEach (t : FileTree) : List Path → Except FileFault Unit × FileTree
  | [] => (.ok (), t)
  | path :: parents =>
    match t.makeDirectory path with
    | .ok made => (.ok (), made)
    | .error .missing =>
      match makeEach t parents with
      | (.error fault, reached) => (.error fault, reached)
      | (.ok (), reached) =>
        match reached.makeDirectory path with
        | .ok made => (.ok (), made)
        | .error fault => (if reached.isDirectory path then .ok () else .error fault, reached)
    | .error fault => (if t.isDirectory path then .ok () else .error fault, t)

/-- Makes a directory and those it stands in, as far as they are missing. The empty path needs
none. -/
def makeDirectories (t : FileTree) (path : Path) : Except FileFault Unit × FileTree :=
  t.makeEach path.ancestors

/-! ## Files -/

/-- Writes a file in a directory that exists, in place of a file that stands there. -/
def writeFile (t : FileTree) (path : Path) (content : ByteArray) : Except FileFault FileTree := do
  let parent ← t.findParent path
  match path.steps.getLast? with
  | some (.name name) =>
    let location := .named name :: parent
    match t.node? location with
    | some .directory => throw .isADirectory
    | some (.file _) =>
      if path.endsInSlash then throw .notADirectory
      return t.put parent name (.file content)
    | none =>
      if path.endsInSlash then throw .isADirectory
      return t.put parent name (.file content)
  | _ => throw .isADirectory

/-- Removes a file. -/
def removeFile (t : FileTree) (path : Path) : Except FileFault FileTree := do
  match ← t.find path with
  | (location, .file _) => return t.drop location
  | (_, .directory) => throw .isADirectory

/-- Whether a location lies at or below another. -/
def isWithin (outer : Location) (location : Location) : Bool := outer.isSuffixOf location

/-- Removes what stands at a path, a directory with all it holds. -/
def removeAll (t : FileTree) (path : Path) : Except FileFault FileTree := do
  let (location, _) ← t.find path
  return { t with
    nodes := t.nodes.filter fun l _ => !isWithin location l
    unused := fun number other hnumber =>
      OrderedMap.get?_filter_eq_none (t.unused number other hnumber) }

/-! ## Temporary files -/

/-- A file that waits to be renamed: its number, and the directory it was made in. -/
structure Temporary where
  directory : Path
  number : Nat

/-- Adds a temporary file to a directory, under the number that is next. -/
def addTemporary (t : FileTree) (directory : Location) (content : ByteArray) : FileTree :=
  { t with
    nodes := t.nodes.insert (.temporary t.fresh :: directory) (.file content)
    fresh := t.fresh + 1
    unused := fun number other hnumber => by
      have hne : EntryName.temporary number :: other ≠ .temporary t.fresh :: directory := by
        rintro heq
        obtain rfl := EntryName.temporary.inj (List.cons.inj heq).1
        omega
      exact (OrderedMap.get?_insert_of_ne hne ..).trans (t.unused number other (by omega)) }

/-- Makes a temporary file in a directory. -/
def makeTemporary (t : FileTree) (directory : Path) (content : ByteArray) :
    Except FileFault (Temporary × FileTree) := do
  match ← t.find directory with
  | (_, .file _) => throw .notADirectory
  | (location, .directory) =>
    return (⟨directory, t.fresh⟩, t.addTemporary location content)

/-- Where a temporary file is, if its directory can still be reached. -/
def findTemporary (t : FileTree) (temporary : Temporary) : Except FileFault Location := do
  match ← t.find temporary.directory with
  | (_, .file _) => throw .notADirectory
  | (location, .directory) => return .temporary temporary.number :: location

/-- Renames a temporary file over a path. A file that stands there is replaced, a directory is
not. -/
def renameTemporary (t : FileTree) (temporary : Temporary) (path : Path) :
    Except FileFault FileTree := do
  let source ← t.findTemporary temporary
  let parent ← t.findParent path
  match path.steps.getLast? with
  | some (.name name) =>
    let location := .named name :: parent
    match t.node? source with
    | none => throw .missing
    | some .directory => throw .isADirectory
    | some (.file content) =>
      if path.endsInSlash then throw .notADirectory
      if t.node? location = some .directory then throw .isADirectory
      return (t.drop source).put parent name (.file content)
  | _ => throw .busy

/-- Removes a temporary file if it is still there. -/
def discardTemporary (t : FileTree) (temporary : Temporary) : FileTree :=
  match t.findTemporary temporary with
  | .ok location => t.drop location
  | .error _ => t

end Pedigree.FileTree
