import Pedigree.CommandLine
import Pedigree.Console
import Pedigree.DefinitionDirectory
import Pedigree.Publication

/-!
# Commands

`Invocation.run` carries out a command line. Every command loads the configuration of its root,
reports the warnings, and resolves the definitions; only `compile` goes on to write documents.
-/

namespace Pedigree

namespace Project

/-- The scopes of a project. -/
def source (p : Project) (t : FileTree) : Source := t.source p.extensions p.root

/-- Compiles the definitions of a project into documents. -/
def compile (p : Project) : FileTree.Change Summary := fun t =>
  Compilation.compile (p.source t) (publish p.outputDirectory) p.locale p.indent t

end Project

namespace Summary

/-- A summary as people read it. -/
def text (title : String) (locale : Option String) (s : Summary) : String :=
  let locale := match locale with
    | some locale => "  Locale:     " ++ locale ++ "\n"
    | none => ""
  title ++ "\n" ++ locale ++
    "  Properties: " ++ toString s.properties ++ "\n" ++
    "  Objects:    " ++ toString s.objects ++ "\n" ++
    String.join (s.written.map fun path => "  ✓ " ++ path.text ++ "\n")

/-- The members of a summary that every event has. -/
def members (command : String) (s : Summary) : List (String × Value) := [
  ("event", .string "complete"),
  ("command", .string command),
  ("success", .bool true),
  ("properties", .ofNat s.properties),
  ("objects", .ofNat s.objects)]

end Summary

namespace Invocation

/-- Loads the project of the root, and reports the warnings about its configuration. -/
def loadProject (i : Invocation) (environment : Environment) : Task (Project × List Warning) := do
  let (c, warnings) ← Task.look ("failed to load configuration from " ++ i.root.text)
    fun t => Configuration.loadRoot t environment i.root
  return ((Project.ofConfiguration i.root c).withLocale i.locale, warnings)

/-- Writes the documents of a project. -/
def compile (i : Invocation) (p : Project) : Task Unit := do
  if i.json then
    Task.emit (.mapping [
      ("event", .string "start"),
      ("command", .string "compile"),
      ("root", Event.ofPath p.root),
      ("locale", Event.ofText? p.locale),
      ("output", Event.ofPath p.outputDirectory)])
  let summary ← Task.change ("failed to compile definitions in " ++ p.root.text) p.compile
  if i.json then
    Task.emit (.mapping (summary.members "compile" ++
      [("written", .sequence (summary.written.map Event.ofPath))]))
  else Task.print (summary.text "Compiled definitions" p.locale)

/-- Resolves the definitions of a project and prints how many there are. -/
def check (i : Invocation) (p : Project) : Task Unit := do
  let (summary, _) ← Task.look ("definitions in " ++ p.root.text ++ " do not resolve") fun t =>
    Compilation.render (p.source t) p.locale p.indent
  if i.json then Task.emit (.mapping (summary.members "check"))
  else Task.print (summary.text "Definitions resolve cleanly" p.locale)

/-- Prints one resolved definition of a project. -/
def «show» (i : Invocation) (p : Project) (name : String) (property : Bool) : Task Unit := do
  let resolved ← Task.look ("failed to resolve definitions in " ++ p.root.text) fun t =>
    Compilation.resolve (p.source t) p.locale
  let (kind, collection) :=
    if property then ("property", resolved.properties) else ("object", resolved.objects)
  match collection.get? name with
  | none => Task.stop ("unknown " ++ kind ++ " '" ++ name ++ "'")
  | some definition =>
    if i.json then
      Task.emit (.mapping [
        ("event", .string "definition"),
        ("command", .string "show"),
        ("kind", .string kind),
        ("name", .string name),
        ("definition", .mapping definition)])
    else Task.print (Json.pretty p.indent (.mapping definition) ++ "\n")

/-- Carries out a command line. -/
def run (i : Invocation) (environment : Environment) : Task Unit := do
  let (project, warnings) ← i.loadProject environment
  Warning.report i.json i.command.name.text warnings
  match i.command with
  | .compile output => i.compile (project.withOutputDirectory output)
  | .check => i.check project
  | .show name property => i.show project name property

/-- The least level of the log lines that are shown. -/
def leastLevel (i : Invocation) : Level :=
  match i.verbosity with
  | 0 => .warn
  | 1 => .info
  | _ => .debug

end Invocation

end Pedigree
