import Pedigree.Text.Split

/-!
# Paths as text

A path is kept as it was written, since messages and documents show it that way.
`Path.join` appends a path to another, `Path.parent?` and `Path.fileName?` read it
from the end, where repeated slashes and single dots after the start do not count as
components. `Path.steps` is what a walk through directories follows.
-/

namespace Pedigree

/-- A path of a file or a directory. -/
structure Path where
  text : String
deriving DecidableEq, Inhabited, Repr

namespace Path

/-- Whether the path starts at the root of the file system. -/
def isAbsolute (p : Path) : Bool := p.text.toList.head? == some '/'

/-- The path `q` as seen from `p`. An absolute `q` stands for itself. -/
def join (p q : Path) : Path :=
  if q.isAbsolute || p.text.isEmpty then q
  else if p.text.toList.getLast? == some '/' then ⟨p.text ++ q.text⟩
  else ⟨p.text ++ "/" ++ q.text⟩

/-- The part of a path that does not shrink: a leading slash, or a leading dot component. -/
def anchorLength : List Char → Nat
  | '/' :: _ => 1
  | ['.'] => 1
  | '.' :: '/' :: _ => 1
  | _ => 0

/-- Drops the last component of a path that is written backwards. -/
def dropComponent (reversed : List Char) : List Char :=
  (reversed.dropWhile (· != '/')).drop 1

theorem length_dropComponent_lt {reversed : List Char} (h : reversed ≠ []) :
    (dropComponent reversed).length < reversed.length := by
  cases reversed with
  | nil => exact absurd rfl h
  | cons c rest =>
    have hle : ((c :: rest).dropWhile (· != '/')).length ≤ (c :: rest).length :=
      (List.dropWhile_sublist _).length_le
    simp only [dropComponent, List.length_drop, List.length_cons] at hle ⊢
    omega

/-- Drops empty and single-dot components at the end of a path that is written backwards. -/
def trimEnd (reversed : List Char) : List Char :=
  if _h : reversed = [] then []
  else
    let component := reversed.takeWhile (· != '/')
    if component = [] ∨ component = ['.'] then trimEnd (dropComponent reversed) else reversed
termination_by reversed.length
decreasing_by exact length_dropComponent_lt _h

/-- The path without its last component. The root and the empty path have none. -/
def parent? (p : Path) : Option Path :=
  let chars := p.text.toList
  let anchor := chars.take (anchorLength chars)
  let body := trimEnd (chars.drop (anchorLength chars)).reverse
  if body.isEmpty then
    if anchor = ['.'] then some ⟨""⟩ else none
  else some ⟨String.ofList (anchor ++ (trimEnd (dropComponent body)).reverse)⟩

/-- The last component, unless it is a step upwards. -/
def fileName? (p : Path) : Option String :=
  let chars := p.text.toList
  let body := trimEnd (chars.drop (anchorLength chars)).reverse
  let component := (body.takeWhile (· != '/')).reverse
  if body.isEmpty || component = ['.', '.'] then none else some (String.ofList component)

/-- One step of a walk. -/
inductive Step where
  | stay
  | up
  | name (s : String)
deriving DecidableEq

/-- The steps of a path. Repeated slashes count once. -/
def steps (p : Path) : List Step :=
  (Text.split '/' p.text.toList).filterMap fun segment =>
    if segment = [] then none
    else if segment = ['.'] then some .stay
    else if segment = ['.', '.'] then some .up
    else some (.name (String.ofList segment))

/-- Whether the path ends in a slash, so that only a directory can stand at it. -/
def endsInSlash (p : Path) : Bool := p.text.toList.getLast? == some '/'

/-- The path and the paths it leads through, innermost first. The empty path is not among them. -/
def ancestors (p : Path) : List Path := go (p.text.length + 1) p
where
  /-- At most `steps` of the paths. -/
  go : Nat → Path → List Path
    | 0, _ => []
    | steps + 1, p =>
      if p.text.isEmpty then []
      else match p.parent? with
        | none => [p]
        | some parent => p :: go steps parent

/-- Splits a file name at its last dot, unless the dot comes first. -/
def splitExtension (name : String) : String × Option String :=
  let reversed := name.toList.reverse
  let extension := reversed.takeWhile (· != '.')
  let stem := (reversed.dropWhile (· != '.')).drop 1
  if stem.isEmpty then (name, none)
  else (String.ofList stem.reverse, some (String.ofList extension.reverse))

end Path

end Pedigree
