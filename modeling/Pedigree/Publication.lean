import Pedigree.Compilation
import Pedigree.FileTree.Staging

/-!
# Publishing documents

Both documents go to files of one directory. They are staged first and replaced together.
-/

namespace Pedigree

/-- The file of the properties document. -/
def propertiesFile : Path := ⟨"properties.json"⟩

/-- The file of the objects document. -/
def objectsFile : Path := ⟨"objects.json"⟩

/-- Writes both documents to a directory. -/
def publish (directory : Path) : Sink FileTree := fun documents => do
  let properties := directory.join propertiesFile
  let objects := directory.join objectsFile
  let first ← FileTree.stage properties documents.properties.toUTF8
  match ← (FileTree.stage objects documents.objects.toUTF8).attempt with
  | .error failure =>
    FileTree.discard [first]
    Action.fail failure
  | .ok second =>
    FileTree.commitAll [first, second]
    Action.say .info ("wrote " ++ properties.text ++ " and " ++ objects.text)
    return [properties, objects]

end Pedigree
