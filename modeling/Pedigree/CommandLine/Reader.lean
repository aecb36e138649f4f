import Pedigree.CommandLine
import Pedigree.OrderedMap
import Pedigree.Text.Split

/-!
# Reading command lines

`CommandLine.read` reads the words behind the name of the program: options, then a command, then
its options and words. Two options may stand on either side of the command.

The value of an option may be the next word. It is settled only when the next option that
exists is met, or at the end; an unknown option is refused at once. So `Given.pending` holds the
last option that takes a value.
-/

namespace Pedigree.CommandLine

/-- What a word may be the value of. -/
inductive Slot where
  | root
  | locale
  | output
  | name
deriving DecidableEq

namespace Slot

/-- Whether the value is a path. A path is not empty. -/
def isPath : Slot → Bool
  | .root | .output => true
  | _ => false

end Slot

/-- An option that takes no value and is given once. -/
inductive Flag where
  | json
  | property
deriving DecidableEq

/-- What an option does. -/
inductive Effect where
  | flag (flag : Flag)
  /-- Counts how often it is given. -/
  | count
  | value (slot : Slot)
  | help
  | version
deriving DecidableEq

/-- An option with its spellings. -/
structure Switch where
  long : String
  short : Option Char
  effect : Effect

/-- Options that are known before the command and behind it. -/
def commonSwitches : List Switch :=
  [⟨"json", none, .flag .json⟩, ⟨"verbose", some 'v', .count⟩, ⟨"help", some 'h', .help⟩]

/-- The options before the command. -/
def leadingSwitches : List Switch := commonSwitches ++ [⟨"version", some 'V', .version⟩]

/-- The options of every command. -/
def sourceSwitches : List Switch :=
  commonSwitches ++ [⟨"root", some 'r', .value .root⟩, ⟨"locale", some 'l', .value .locale⟩]

/-- The options of a command. -/
def switches : CommandName → List Switch
  | .compile => sourceSwitches ++ [⟨"output", some 'o', .value .output⟩]
  | .check => sourceSwitches
  | .show => sourceSwitches ++ [⟨"property", none, .flag .property⟩]

/-- What has been given so far. -/
structure Given where
  flags : List Flag
  /-- How often more messages were asked for, if at all. -/
  verbosity : Option Nat
  values : List (Slot × String)
  /-- The last option that takes a value, until the value is settled. -/
  pending : Option (Slot × Option String)

namespace Given

/-- Nothing. -/
def empty : Given := ⟨[], none, [], none⟩

/-- Settles the pending option. -/
def settle (g : Given) : Except Usage Given :=
  match g.pending with
  | none => .ok g
  | some (_, none) => .error .invalidValue
  | some (slot, some value) =>
    if Entries.contains slot g.values then .error .repeated
    else if slot.isPath && value.isEmpty then .error .invalidValue
    else .ok { g with values := g.values ++ [(slot, value)], pending := none }

/-- Gives a value to an option that has been settled. -/
def put (g : Given) (slot : Slot) (value : Option String) : Given :=
  { g with pending := some (slot, value) }

/-- Takes an option, with the value that is attached to it. -/
def take (g : Given) (effect : Effect) (attached : Option String) : Except Usage Given := do
  let g ← g.settle
  match effect with
  | .flag flag =>
    if g.flags.contains flag then .error .repeated
    else .ok { g with flags := flag :: g.flags }
  | .count => .ok { g with verbosity := some (g.verbosity.getD 0 + 1) }
  | .value slot =>
    match attached with
    | some value => (g.put slot (some value)).settle
    | none => .ok (g.put slot none)
  | .help => .error .help
  | .version => .error .version

end Given

/-! ## Options -/

/-- Whether an option takes a value. -/
def Effect.takesValue : Effect → Bool
  | .value _ => true
  | _ => false

/-- Reads an option of several letters, behind its hyphens. -/
def readLong (known : List Switch) (g : Given) (word : List Char) : Except Usage Given :=
  let name := word.takeWhile (· != '=')
  let attached := match word.dropWhile (· != '=') with
    | [] => none
    | _ :: value => some (String.ofList value)
  match known.find? fun switch => switch.long.toList == name with
  | none => .error .unknownArgument
  | some switch =>
    if attached.isSome && !switch.effect.takesValue then .error .unneededValue
    else g.take switch.effect attached

/-- The value that follows the letter of an option, behind an equals sign or at once. -/
def attachedValue : List Char → Option String
  | [] => none
  | '=' :: value => some (String.ofList value)
  | value => some (String.ofList value)

/-- Reads options of one letter, behind their common hyphen. -/
def readShort (known : List Switch) (g : Given) : List Char → Except Usage Given
  | [] => .ok g
  | c :: rest =>
    match known.find? fun switch => switch.short == some c with
    | none => .error .unknownArgument
    | some switch =>
      if switch.effect.takesValue then g.take switch.effect (attachedValue rest)
      else (g.take switch.effect none).bind fun g => readShort known g rest

/-- Reads a word as an option, if it is one. A hyphen alone is none. -/
def readSwitch? (known : List Switch) (g : Given) (word : String) : Option (Except Usage Given) :=
  match word.toList with
  | '-' :: '-' :: name => some (readLong known g name)
  | '-' :: c :: letters => some (readShort known g (c :: letters))
  | _ => none

/-! ## Words -/

/-- Reads a word that is no option: the name of the definition to show. -/
def readWord (command : CommandName) (g : Given) (word : String) : Except Usage Given :=
  if command = .show ∧ !Entries.contains .name g.values then do
    let g ← g.settle
    .ok { g with values := g.values ++ [(.name, word)] }
  else .error .unknownArgument

/-- Reads the options and words of a command. Behind two hyphens all are words. -/
def readArguments (command : CommandName) (onlyWords : Bool) (g : Given) :
    List String → Except Usage Given
  | [] => g.settle
  | word :: rest =>
    if onlyWords then
      (readWord command g word).bind fun g => readArguments command true g rest
    else if word = "--" then readArguments command true g rest
    else
      let next := match readSwitch? (switches command) g word, g.pending with
        | some outcome, _ => outcome
        | none, some (slot, none) => .ok (g.put slot (some word))
        | none, _ => readWord command g word
      next.bind fun g => readArguments command false g rest

/-- The word that asks for help on a command. -/
def helpWord : String := "help"

/-- Whether a word is a command, or asks for help. -/
def isCommandWord (word : String) : Bool :=
  (CommandName.ofText? word).isSome || word == helpWord

/-- What asking for help amounts to. No more than one command may follow. -/
def readHelp : List String → Usage
  | [] => .help
  | [word] => if isCommandWord word then .help else .unknownCommand
  | _ => .unknownCommand

/-- The command that has been given, with its options. -/
def command? (name : CommandName) (g : Given) : Except Usage Command :=
  let path (slot : Slot) : Option Path := (Entries.get? slot g.values).map Path.mk
  match name with
  | .compile => .ok (.compile (path .output))
  | .check => .ok .check
  | .show =>
    match Entries.get? .name g.values with
    | some word => .ok (.show word (g.flags.contains .property))
    | none => .error .missingName

/-- Puts together what stands before the command and behind it. -/
def invocation (name : CommandName) (leading g : Given) : Except Usage Invocation := do
  let command ← command? name g
  return {
    command
    root := ((Entries.get? .root g.values).map Path.mk).getD ⟨"."⟩
    locale := Entries.get? .locale g.values
    json := leading.flags.contains .json || g.flags.contains .json
    verbosity := (g.verbosity.or leading.verbosity).getD 0 }

/-- Reads what stands before the command, and the rest by the command. Behind two hyphens there
is no command any more. -/
def readLeading (onlyWords : Bool) (leading : Given) : List String → Except Usage Invocation
  | [] =>
    if leading.flags.isEmpty && leading.verbosity.isNone then .error .nothing
    else .error .missingCommand
  | word :: rest =>
    if onlyWords then
      if isCommandWord word then .error .unknownArgument else .error .unknownCommand
    else match CommandName.ofText? word with
      | some name =>
        (readArguments name false .empty rest).bind fun g => invocation name leading g
      | none =>
        if word = helpWord then .error (readHelp rest)
        else if word = "--" then readLeading true leading rest
        else match readSwitch? leadingSwitches leading word with
          | some outcome => outcome.bind fun leading => readLeading false leading rest
          | none => .error .unknownCommand

/-- Reads the words behind the name of the program. -/
def read (words : List String) : Except Usage Invocation := readLeading false .empty words

end Pedigree.CommandLine
