import Pedigree.Configuration
import Pedigree.FileTree
import Pedigree.Log
import Pedigree.Text.Blank
import Pedigree.Text.EditDistance
import Pedigree.Toml.Reader

/-!
# Reading the configuration

A configuration file has two sections, `definitions` and `output`. A key that does not belong
there is no failure but a `Warning`, with the line it is found on and the known key that
it resembles. The environment has the last word on the settings it gives.
-/

namespace Pedigree

/-- The configuration file of a project, in its root. -/
def configurationFile : Path := ⟨"bactwin.toml"⟩

/-- A key that has no meaning. -/
structure Warning where
  key : String
  file : Path
  /-- The number of its line, the first being one. -/
  line : Option Nat
  /-- A known key that it resembles. -/
  suggestion : Option String
deriving DecidableEq

/-- What the environment says. -/
structure Environment where
  locale : Option String
  outputDirectory : Option String

namespace Configuration

/-! ## Settings -/

/-- The sections. -/
def sectionNames : List String := ["definitions", "output"]

/-- The keys of the section `definitions`. -/
def definitionsKeys : List String := ["locale", "extensions"]

/-- The keys of the section `output`. -/
def outputKeys : List String := ["dir", "indent"]

/-- The key under which a date shows where a table is expected. -/
def dateKey : String := "$__toml_private_datetime"

/-- The settings of a section, and the keys that have no meaning in it. The settings may also be
listed in an array, in the order of their keys. -/
def readSection (known : List String) :
    Toml.Item → Option ((String → Option Toml.Item) × List String)
  | .table _ entries =>
    some (fun key => Entries.get? key entries, (Entries.keys entries).filter (!known.contains ·))
  | .array items => some (fun key => Entries.get? key (known.zip items), [])
  | .date _ => some (fun _ => none, [dateKey])
  | _ => none

/-- A setting that is a text. -/
def text? : Toml.Item → Option String
  | .string s => some s
  | _ => none

/-- A setting that is a list of texts. -/
def texts? : Toml.Item → Option (List String)
  | .array items => items.mapM text?
  | _ => none

/-- A setting that is a size. -/
def size? : Toml.Item → Option Nat
  | .integer n => if 0 ≤ n then some n.toNat else none
  | _ => none

/-- The value of a setting, or its default if it is not given. A setting of another type has
none. -/
def setting {α : Type} (read : Toml.Item → Option α) (default : α) : Option Toml.Item → Option α
  | none => some default
  | some item => read item

/-- Reads the section `definitions`. -/
def readDefinitions (c : Configuration) (item : Toml.Item) :
    Option (Configuration × List String) := do
  let (field, unknown) ← readSection definitionsKeys item
  let locale ← setting (fun item => (text? item).map some) none (field "locale")
  let extensions ← setting texts? defaultExtensions (field "extensions")
  return ({ c with locale, extensions }, unknown)

/-- Reads the section `output`. -/
def readOutput (c : Configuration) (item : Toml.Item) : Option (Configuration × List String) := do
  let (field, unknown) ← readSection outputKeys item
  let path? := fun item => (text? item).map Path.mk
  let directory ← setting path? defaultOutputDirectory (field "dir")
  let indent ← setting size? defaultIndent (field "indent")
  return ({ c with outputDirectory := directory, indent }, unknown)

/-- Puts a section before a key. -/
def dotted (name key : String) : String := name ++ "." ++ key

/-- Reads the entries of a configuration in order. The keys without meaning are listed with their
sections. -/
def readEntries (c : Configuration) (unknown : List String) :
    Toml.Entries → Option (Configuration × List String)
  | [] => some (c, unknown)
  | (name, item) :: rest => do
    if name = "definitions" then
      let (c, keys) ← c.readDefinitions item
      readEntries c (unknown ++ keys.map (dotted name)) rest
    else if name = "output" then
      let (c, keys) ← c.readOutput item
      readEntries c (unknown ++ keys.map (dotted name)) rest
    else readEntries c (unknown ++ [name]) rest

/-! ## Warnings -/

/-- The table that a line names between brackets. -/
def headerName? (line : List Char) : Option (List Char) :=
  match line with
  | '[' :: rest =>
    if rest.getLast? = some ']' then some (Text.trim rest.dropLast) else none
  | _ => none

/-- The key that a line gives a value. -/
def entryName? (line : List Char) : Option (List Char) :=
  if line.contains '=' then
    some (Text.trimBy (· == '"') (Text.trim (line.takeWhile (· != '='))))
  else none

/-- The number of the first line that gives a key a value in a table. A key outside of all tables
is also found as the name of a table. -/
def findLine (table key : List Char) (number : Nat) (current : List Char) :
    List (List Char) → Option Nat
  | [] => none
  | line :: rest =>
    let line := Text.trim line
    match headerName? line with
    | some name =>
      if table.isEmpty && name == key then some number
      else findLine table key (number + 1) name rest
    | none =>
      if current == table && entryName? line == some key then some number
      else findLine table key (number + 1) current rest

/-- The keys of a section, the empty name standing for the document itself. -/
def knownKeys (name : String) : List String :=
  if name = "" then sectionNames
  else if name = "definitions" then definitionsKeys
  else if name = "output" then outputKeys
  else []

/-- The candidate that is closest to a word, the first of several. -/
def closest (word : String) (best : Option (Nat × String)) : List String → Option (Nat × String)
  | [] => best
  | candidate :: rest =>
    let distance := Text.editDistance word.toList candidate.toList
    match best with
    | some (least, _) =>
      closest word (if distance < least then some (distance, candidate) else best) rest
    | none => closest word (some (distance, candidate)) rest

/-- The known key of a section that an unknown one resembles: at most two edits away. -/
def suggest (name key : String) : Option String :=
  match closest key none (knownKeys name) with
  | some (distance, candidate) => if distance ≤ 2 then some candidate else none
  | none => none

/-- The warning about a key with its section. The last dot separates the two. -/
def warn (content : String) (file : Path) (unknown : String) : Warning :=
  let (name, key) := (Text.splitLast? '.' unknown.toList).getD ([], unknown.toList)
  { key := String.ofList key
    file
    line := findLine name key 1 [] (Text.split '\n' content.toList)
    suggestion := suggest (String.ofList name) (String.ofList key) }

/-! ## Files -/

/-- Reads the content of a configuration file. -/
def parse (content : String) (file : Path) : Except Failure (Configuration × List Warning) :=
  match (Toml.Document.read? content).bind (readEntries .default []) with
  | some (c, unknown) => .ok (c, unknown.map (warn content file))
  | none => .error (.invalidConfig file)

/-- Loads a configuration file. -/
def load (t : FileTree) (file : Path) : Except Failure (Configuration × List Warning) :=
  match t.readText file with
  | .ok content => parse content file
  | .error fault => .error (.io file fault)

/-- Puts what the environment says in place. A blank locale stands for none, and a blank output
directory changes nothing. -/
def override (c : Configuration) (environment : Environment) : Configuration :=
  let locale := match environment.locale with
    | some locale =>
      let locale := Text.trim locale.toList
      if locale.isEmpty then none else some (String.ofList locale)
    | none => c.locale
  let outputDirectory := match environment.outputDirectory with
    | some directory =>
      if (Text.trim directory.toList).isEmpty then c.outputDirectory else ⟨directory⟩
    | none => c.outputDirectory
  { c with locale, outputDirectory }

/-- Loads the configuration of a root. A root without a configuration file has the defaults. -/
def loadRoot (t : FileTree) (environment : Environment) (root : Path) :
    Logged Failure (Configuration × List Warning) := do
  let file := root.join configurationFile
  let (c, warnings) ←
    if t.isFile file then do
      Logged.say .debug ("loading configuration from " ++ file.text)
      Logged.ofExcept (load t file)
    else pure (Configuration.default, [])
  return (c.override environment, warnings)

end Configuration

end Pedigree
