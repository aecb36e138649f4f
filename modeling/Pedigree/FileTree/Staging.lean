import Pedigree.FileTree.Change
import Pedigree.Log

/-!
# Replacing files together

`stage` writes a content to a temporary file beside its target, and `commitAll` renames staged
files over their targets, all or none: where one of them cannot be renamed, the targets
before it get back what they held. `writeAtomically` is a commit of a single file.
-/

namespace Pedigree.FileTree

/-- A step that changes a file tree. -/
abbrev Change (α : Type) := Action Failure FileTree α

/-- Content that waits in a temporary file to replace its target. -/
structure Staged where
  temporary : Temporary
  target : Path

/-- The directory that a path stands in. -/
def directoryOf (path : Path) : Path :=
  match path.parent? with
  | some parent => if parent.text.isEmpty then ⟨"."⟩ else parent
  | none => ⟨"."⟩

/-- Goes on with the result of an operation at a path, or fails with its fault. -/
def expect {α : Type} (path : Path) : Except FileFault α → Change α
  | .ok a => pure a
  | .error fault => Action.fail (.io path fault)

/-- Makes the directory that a path stands in. -/
def prepare (path : Path) : Change Unit := do
  let (outcome, reached) := (← Action.read).makeDirectories (directoryOf path)
  Action.write reached
  expect (directoryOf path) outcome

/-- Writes a content beside its target. A directory is no target. -/
def stage (path : Path) (content : ByteArray) : Change Staged := do
  prepare path
  let t ← Action.read
  if t.isDirectory path then Action.fail (.io path .targetIsDirectory)
  let (temporary, t) ← expect (directoryOf path) (t.makeTemporary (directoryOf path) content)
  Action.write t
  return ⟨temporary, path⟩

/-- Removes the temporary files of staged contents. -/
def discard (staged : List Staged) : Change Unit := do
  Action.write (staged.foldl (fun t s => t.discardTemporary s.temporary) (← Action.read))

/-- Renames a staged content over its target, or gives it up. -/
def rename (staged : Staged) : Change Unit := do
  match (← Action.read).renameTemporary staged.temporary staged.target with
  | .ok t => Action.write t
  | .error fault => Action.fail (.io staged.target fault)

/-- Writes a file in one step, and the directories it needs. -/
def writeAtomically (path : Path) (content : ByteArray) : Change Unit := do
  let staged ← stage path content
  match ← (rename staged).attempt with
  | .ok () => return
  | .error failure =>
    discard [staged]
    Action.fail failure

/-- Gives a target back what it held before, or nothing. -/
def restore (target : Path) : Option ByteArray → Change Unit
  | some content => writeAtomically target content
  | none => do Action.write (← expect target ((← Action.read).removeFile target))

/-- Restores targets, the last replaced first. One that cannot be restored is logged and left. -/
def rollBack : List (Path × Option ByteArray) → Change Unit
  | [] => return
  | (target, previous) :: rest => do
    match ← (restore target previous).attempt with
    | .ok () => pure ()
    | .error failure =>
      Action.say .warn ("could not restore " ++ target.text ++ ": " ++ failure.message)
    rollBack rest

/-- What a target holds. Nothing at all is fine, a directory is not. -/
def previousContent (t : FileTree) (target : Path) : Except FileFault (Option ByteArray) :=
  match t.readBytes target with
  | .ok content => .ok (some content)
  | .error .missing => .ok none
  | .error fault => .error fault

/-- Renames staged files in order. `replaced` lists what earlier targets held, the last first. -/
def commit (replaced : List (Path × Option ByteArray)) : List Staged → Change Unit
  | [] => return
  | staged :: rest => do
    let attempt : Change (Option ByteArray) := do
      let previous ← expect staged.target (previousContent (← Action.read) staged.target)
      rename staged
      return previous
    match ← attempt.attempt with
    | .ok previous => commit ((staged.target, previous) :: replaced) rest
    | .error failure =>
      rollBack replaced
      discard (staged :: rest)
      Action.fail failure

/-- Renames every staged file over its target, or none. -/
def commitAll (staged : List Staged) : Change Unit := commit [] staged

end Pedigree.FileTree
