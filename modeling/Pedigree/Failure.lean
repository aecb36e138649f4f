import Pedigree.Path
import Pedigree.Value

/-!
# Failures

Everything that can stop a compilation, as causes. `Failure.message` holds the wording.
A failure names the definition, the file or the directory it was found in.
-/

namespace Pedigree

/-- Why a file operation is refused. -/
inductive FileFault where
  /-- Nothing stands at the path, or at a directory on the way. -/
  | missing
  /-- Something that is no directory stands where a directory is to be made. -/
  | exists
  /-- A step of the path leads through a file. -/
  | notADirectory
  /-- A directory stands where a file is needed. -/
  | isADirectory
  /-- The path ends in a step that cannot be renamed. -/
  | busy
  /-- The content is not UTF-8 text. -/
  | notText
  /-- The target of a write is a directory. -/
  | targetIsDirectory
deriving DecidableEq, Repr

namespace FileFault

/-- The wording of a refused operation. -/
def message : FileFault → String
  | .missing => "No such file or directory (os error 2)"
  | .exists => "File exists (os error 17)"
  | .notADirectory => "Not a directory (os error 20)"
  | .isADirectory => "Is a directory (os error 21)"
  | .busy => "Device or resource busy (os error 16)"
  | .notText => "stream did not contain valid UTF-8"
  | .targetIsDirectory => "target is a directory"

end FileFault

/-- What is wrong with the content of a definition file. -/
inductive YamlFault where
  /-- The text is not YAML, or YAML that holds no tree of values. -/
  | malformed
  /-- A number that no document can hold, with its text. -/
  | unrepresentable (number : String)
deriving DecidableEq, Repr

/-- How objects may be ordered. -/
inductive OrderKind where
  | missing
  | number
  | text
deriving DecidableEq, Repr

namespace OrderKind

/-- The kind as error texts name it. -/
def description : OrderKind → String
  | .missing => "no order"
  | .number => "a numeric order"
  | .text => "a string order"

end OrderKind

/-- A cause that stops a compilation. -/
inductive Failure where
  /-- A directory of definitions does not exist. -/
  | directoryNotFound (path : Path)
  /-- A file operation was refused. -/
  | io (path : Path) (fault : FileFault)
  /-- A definition file is not valid YAML. -/
  | invalidYaml (file : Path) (fault : YamlFault)
  /-- A definition file holds no mapping. -/
  | notAMapping (file : Path) (found : Value.Kind)
  /-- A mapping key is no scalar. -/
  | invalidKey (file : Path)
  /-- A base is not among the bases. -/
  | unknownBase (name base : String)
  /-- A definition other than the root has no base. -/
  | missingBase (name : String)
  /-- A base reference is not a string. -/
  | invalidBaseReference (name : String) (found : Value.Kind)
  /-- A chain of bases comes back to a name. -/
  | baseCycle (chain : List String)
  /-- The properties of an object are no mapping. -/
  | invalidProperties (name : String) (found : Value.Kind)
  /-- An object overrides a property that does not exist. -/
  | undefinedProperty (object property : String)
  /-- An order is neither a number nor a string. -/
  | invalidOrder (name : String) (found : Value.Kind)
  /-- Two objects have orders of different kinds. -/
  | mixedOrder (first : String) (firstKind : OrderKind) (second : String) (secondKind : OrderKind)
  /-- The project configuration cannot be read. -/
  | invalidConfig (file : Path)
deriving DecidableEq, Repr

namespace Failure

/-- The wording of a failure. -/
def message : Failure → String
  | .directoryNotFound path => "directory not found: " ++ path.text
  | .io path fault => "IO error on " ++ path.text ++ ": " ++ fault.message
  | .invalidYaml file .malformed => "invalid YAML in " ++ file.text
  | .invalidYaml file (.unrepresentable number) =>
    "invalid YAML in " ++ file.text ++ ": number " ++ number ++ " cannot be represented in JSON"
  | .notAMapping file found =>
    "definition in " ++ file.text ++ " must be a mapping, found " ++ found.text
  | .invalidKey file => "unsupported mapping key in " ++ file.text ++ ": keys must be scalars"
  | .unknownBase name base => "unknown base '" ++ base ++ "' referenced by '" ++ name ++ "'"
  | .missingBase name => "definition '" ++ name ++ "' has no base; only 'default' may omit it"
  | .invalidBaseReference name found =>
    "base of '" ++ name ++ "' must be a string, found " ++ found.text
  | .baseCycle chain => "base cycle detected: " ++ " -> ".intercalate chain
  | .invalidProperties name found =>
    "properties of '" ++ name ++ "' must be a mapping, found " ++ found.text
  | .undefinedProperty object property =>
    "undefined property '" ++ property ++ "' in object '" ++ object ++ "'"
  | .invalidOrder name found =>
    "order of '" ++ name ++ "' must be a number or a string, found " ++ found.text
  | .mixedOrder first firstKind second secondKind =>
    "objects mix order kinds: '" ++ first ++ "' has " ++ firstKind.description ++ ", '" ++
      second ++ "' has " ++ secondKind.description
  | .invalidConfig file => "invalid configuration in " ++ file.text

end Failure

end Pedigree
