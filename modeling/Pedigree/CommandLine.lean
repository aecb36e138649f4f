import Pedigree.Path

/-!
# Command lines

What a command line asks for, and why one is not carried out. `CommandLine.read` stands in
`CommandLine.Reader`.
-/

namespace Pedigree

/-- What to do with the definitions. -/
inductive Command where
  /-- Resolve them and write the documents, to this directory if one is given. -/
  | compile (output : Option Path)
  /-- Resolve them and write nothing. -/
  | check
  /-- Print one resolved object, or one property. -/
  | show (name : String) (property : Bool)
deriving DecidableEq

/-- The names of the commands. -/
inductive CommandName where
  | compile
  | check
  | show
deriving DecidableEq

namespace CommandName

/-- The word for a command. -/
def text : CommandName → String
  | .compile => "compile"
  | .check => "check"
  | .show => "show"

/-- The command of a word. -/
def ofText? (word : String) : Option CommandName :=
  [compile, check, «show»].find? fun name => name.text == word

end CommandName

namespace Command

/-- The name of a command. -/
def name : Command → CommandName
  | .compile _ => .compile
  | .check => .check
  | .show .. => .show

end Command

/-- A command line that can be carried out. -/
structure Invocation where
  command : Command
  /-- The root of the definitions. -/
  root : Path
  /-- The locale, if one is given. -/
  locale : Option String
  /-- Whether to print events instead of text. -/
  json : Bool
  /-- How many times more messages were asked for. -/
  verbosity : Nat
deriving DecidableEq

/-- Why a command line is not carried out. -/
inductive Usage where
  /-- Help is asked for. -/
  | help
  /-- The version is asked for. -/
  | version
  /-- Nothing is given at all. -/
  | nothing
  /-- There is no such option, or no place for a word. -/
  | unknownArgument
  /-- There is no such command. -/
  | unknownCommand
  /-- Options are given without a command. -/
  | missingCommand
  /-- The name of the definition is missing. -/
  | missingName
  /-- The value of an option is missing, or is an empty path. -/
  | invalidValue
  /-- An option is given twice. -/
  | repeated
  /-- A value is given to an option that takes none. -/
  | unneededValue
deriving DecidableEq, Repr

namespace Usage

/-- The exit code. Only what was asked for is no failure. -/
def exitCode : Usage → Nat
  | .help | .version => 0
  | _ => 2

end Usage

end Pedigree
