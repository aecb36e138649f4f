import Pedigree.Configuration.Reader
import Pedigree.FileTree.Change
import Pedigree.Json.Printer

/-!
# Console

What a command prints, beside the file tree it works on. Text for people goes to `out` and
warnings to `err`. An event is a value on one line of its own, so that a reader can split the
output at the line breaks.
-/

namespace Pedigree

/-- The files a command works on, and what it has printed. -/
structure Console where
  tree : FileTree
  out : String
  err : String

/-- Why a command stops: what it was doing, and the cause if there is one. -/
structure CommandFailure where
  context : String
  cause : Option Failure
deriving DecidableEq

/-- A step of a command. -/
abbrev Task (α : Type) := Action CommandFailure Console α

namespace Event

/-- An event as a line of text. -/
def line (event : Value) : String := Json.compact event ++ "\n"

/-- The text of a path as a value. -/
def ofPath (path : Path) : Value := .string path.text

/-- A text that may be missing. -/
def ofText? : Option String → Value
  | some s => .string s
  | none => .null

end Event

namespace Task

/-- Prints a text. -/
def print (text : String) : Task Unit := fun console =>
  (.done (), { console with out := console.out ++ text })

/-- Prints a text where warnings go. -/
def printWarning (text : String) : Task Unit := fun console =>
  (.done (), { console with err := console.err ++ text })

/-- Prints an event. -/
def emit (event : Value) : Task Unit := print (Event.line event)

/-- Stops for a reason of its own. -/
def stop {α : Type} (context : String) : Task α := Action.fail ⟨context, none⟩

/-- Puts a failure into the context it happened in. -/
def explain {α : Type} (context : String) (x : Logged Failure α) : Logged CommandFailure α :=
  ⟨x.outcome.mapError fun failure => ⟨context, some failure⟩, x.log⟩

/-- Takes a step that changes the files. -/
def change {α : Type} (context : String) (x : Action Failure FileTree α) : Task α := fun console =>
  match x console.tree with
  | (result, tree) => (explain context result, { console with tree })

/-- Takes a step that looks at the files. -/
def look {α : Type} (context : String) (x : FileTree → Logged Failure α) : Task α := fun console =>
  (explain context (x console.tree), console)

end Task

/-! ## Warnings -/

namespace Warning

/-- The event of a warning. -/
def event (command : String) (w : Warning) : Value :=
  .mapping [
    ("event", .string "warning"),
    ("command", .string command),
    ("kind", .string "unknown_config_key"),
    ("key", .string w.key),
    ("file", Event.ofPath w.file),
    ("line", match w.line with | some n => .ofNat n | none => .null),
    ("suggestion", Event.ofText? w.suggestion)]

/-- A warning as people read it. -/
def text (w : Warning) : String :=
  let place := match w.line with
    | some n => w.file.text ++ ":" ++ toString n
    | none => w.file.text
  let advice := match w.suggestion with
    | some suggestion => "   Did you mean '" ++ suggestion ++ "'?\n\n"
    | none => ""
  "⚠ Unknown config key '" ++ w.key ++ "' in " ++ place ++ "\n" ++ advice

/-- Reports warnings, as events or as text. -/
def report (json : Bool) (command : String) : List Warning → Task Unit
  | [] => pure ()
  | w :: rest => do
    if json then Task.emit (w.event command) else Task.printWarning w.text
    report json command rest

end Warning

end Pedigree
