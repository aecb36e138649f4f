import Pedigree.CommandLine.Reader
import Pedigree.Commands

/-!
# The program

Reads the command line and the environment, takes a snapshot of the directories that a command
looks at, runs the command on it, and carries its changes over to the disk. All decisions are
made by `CommandLine.read` and `Invocation.run`.
-/

namespace Pedigree.Program

/-- The variable that gives the locale. -/
def localeVariable : String := "BACTWIN_LOCALE"

/-- The variable that gives the output directory. -/
def outputVariable : String := "BACTWIN_OUTPUT_DIR"

/-- How the program is called. -/
def usageText : String :=
  "Usage: pedigree [--json] [-v] <COMMAND>\n\n" ++
  "Commands:\n" ++
  "  compile  Resolve definitions and write properties.json and objects.json\n" ++
  "  check    Resolve definitions and report errors without writing anything\n" ++
  "  show     Print one resolved object (or property) as JSON\n" ++
  "  help     Print this message\n\n" ++
  "Options of every command:\n" ++
  "  -r, --root <ROOT>      Definitions root holding properties/ and objects/\n" ++
  "  -l, --locale <LOCALE>  Apply the overlays of this locale\n" ++
  "      --json             Emit events instead of human-readable output\n" ++
  "  -v, --verbose          Show more messages\n" ++
  "Options of compile:\n" ++
  "  -o, --output <OUTPUT>  Output directory\n" ++
  "Options of show:\n" ++
  "      --property         Look the name up among properties\n"

/-- The version of the program. -/
def versionText : String := "pedigree 0.1.0\n"

/-- What is wrong with a command line. -/
def problem : Usage → String
  | .help | .version | .nothing => ""
  | .unknownArgument => "error: unexpected argument\n"
  | .unknownCommand => "error: unrecognized subcommand\n"
  | .missingCommand => "error: a subcommand is required\n"
  | .missingName => "error: the name of a definition is required\n"
  | .invalidValue => "error: an option has no value, or an empty path\n"
  | .repeated => "error: an option is given more than once\n"
  | .unneededValue => "error: an option takes no value\n"

/-- The location of an absolute path whose steps are all names. -/
def locate (path : Path) : Location :=
  path.steps.foldl (fun location step =>
    match step with
    | .name name => EntryName.named name :: location
    | .up => location.drop 1
    | .stay => location) []

/-- The path of a location. A temporary file has none. -/
def pathOf? (location : Location) : Option String :=
  (location.reverse.mapM fun (name : EntryName) =>
    match name with
    | .named name => some ("/" ++ name)
    | .temporary _ => none).map String.join

/-- Puts a node and the directories above it into a tree. -/
def record (t : FileTree) (location : Location) (node : FileNode) : FileTree :=
  match location with
  | .named name :: parent => (record t parent .directory).put parent name node
  | _ => t

/-- Puts a directory with its files into a tree, if there is one. -/
def recordDirectory (t : FileTree) (path : Path) : IO FileTree := do
  let mut t := t
  try
    let entries ← (← IO.FS.realPath path.text).readDir
    t := record t (locate path) .directory
    for entry in entries do
      let location := .named entry.fileName :: locate path
      if ← entry.path.isDir then t := record t location .directory
      else t := record t location (.file (← IO.FS.readBinFile entry.path))
    return t
  catch _ => return t

/-- Puts a file into a tree, or marks that one stands there, if there is one. -/
def recordFile (t : FileTree) (path : Path) : IO FileTree := do
  try return record t (locate path) (.file (← IO.FS.readBinFile path.text))
  catch _ => return t

/-- A tree of all that a command looks at. -/
def snapshot (start : Path) (root : Path) (outputs : List Path) : IO FileTree := do
  let empty : FileTree := ⟨.empty, locate start, 0, fun _ _ _ => rfl⟩
  let mut t := record empty (locate start) .directory
  let root := start.join root
  t ← recordFile t (root.join configurationFile)
  for kind in [ScopeKind.properties, ScopeKind.objects] do
    let directory := root.join ⟨kind.directoryName⟩
    t ← recordDirectory t directory
    t ← recordDirectory t (directory.join ⟨basesDirectory⟩)
  for output in outputs do
    for path in (start.join output).ancestors do
      t ← recordFile t path
    t ← recordDirectory t (start.join output)
  return t

/-- Writes to the disk what a command has changed. -/
def carryOver (before after : FileTree) : IO Unit := do
  for (location, node) in after.nodes.entries do
    if before.node? location != some node then
      match pathOf? location, node with
      | some path, .directory => IO.FS.createDirAll path
      | some path, .file content =>
        IO.FS.writeBinFile (path ++ ".new") content
        IO.FS.rename (path ++ ".new") path
      | none, _ => pure ()

/-- The directories that documents may go to. -/
def outputsOf (i : Invocation) (environment : Environment) (t : FileTree) : List Path :=
  match i.command, (Configuration.loadRoot t environment i.root).outcome with
  | .compile output, .ok (c, _) =>
    [((Project.ofConfiguration i.root c).withOutputDirectory output).outputDirectory]
  | _, _ => []

/-- Carries out a command line. -/
def execute (i : Invocation) : IO UInt32 := do
  let start : Path := ⟨(← IO.currentDir).toString⟩
  let environment : Environment := ⟨← IO.getEnv localeVariable, ← IO.getEnv outputVariable⟩
  let settings ← snapshot start i.root []
  let before ← snapshot start i.root (outputsOf i environment settings)
  let (result, console) := i.run environment ⟨before, "", ""⟩
  for line in result.log do
    if i.leastLevel.rank ≤ line.level.rank then IO.eprintln line.text
  IO.eprint console.err
  carryOver before console.tree
  IO.print console.out
  match result.outcome with
  | .ok () => return 0
  | .error failure =>
    let cause := match failure.cause with
      | some cause => "\n\nCaused by:\n    " ++ cause.message
      | none => ""
    IO.eprintln ("Error: " ++ failure.context ++ cause)
    return 1

end Pedigree.Program

open Pedigree in
/-- Runs the program. -/
def main (words : List String) : IO UInt32 := do
  match CommandLine.read words with
  | .ok invocation => Program.execute invocation
  | .error .version =>
    IO.print Program.versionText
    return 0
  | .error .help =>
    IO.print Program.usageText
    return 0
  | .error usage =>
    IO.eprint (Program.problem usage ++ Program.usageText)
    return usage.exitCode.toUInt32
