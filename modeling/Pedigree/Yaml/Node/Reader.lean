import Pedigree.OrderedMap
import Pedigree.Yaml.Node
import Pedigree.Yaml.Token.Property

/-!
# Reading nodes from tokens

`Document.ofTokens?` gives the root node of a text with a single document. The readers descend
through the collections. Each call passes on less fuel, and since every item takes a token,
fuel in proportion to the tokens is enough.
-/

namespace Pedigree.Yaml

/-- What the handles of tags stand for. -/
abbrev Handles := List (List UInt8 × List UInt8)

/-- The handles that need no directive. -/
def knownHandles : Handles :=
  [(bytesOf localHandle, bytesOf localHandle),
    (bytesOf ownHandle, bytesOf "tag:yaml.org,2002:".toList)]

/-- A tag with its handle replaced by what it stands for. -/
def TagName.resolve (handles : Handles) (name : TagName) : Option Tag :=
  if name.handle.isEmpty then some name.suffix
  else (Entries.get? name.handle handles).map (· ++ name.suffix)

/-- The tokens that are left, and the anchors so far. -/
structure Cursor where
  tokens : List Token
  anchors : List (List Char × Nat)

namespace Cursor

/-- Whether the next token is one of these. -/
def at? (c : Cursor) (tokens : List Token) : Bool := c.tokens.head?.any (tokens.contains ·)

/-- Passes over a token. -/
def next (c : Cursor) : Cursor := { c with tokens := c.tokens.drop 1 }

/-- Gives an anchor its number. -/
def name (c : Cursor) : Option (List Char) → Option Nat × Cursor
  | none => (none, c)
  | some anchor =>
    let number := c.anchors.length
    (some number, { c with anchors := Entries.insert anchor number c.anchors })

/-- Reads the properties of a node: an anchor and a tag, in either order. -/
def readProperties (handles : Handles) (c : Cursor) : Option (Properties × Cursor) := do
  let (anchor, tag, tokens) := match c.tokens with
    | .anchor anchor :: .tag tag :: rest => (some anchor, some tag, rest)
    | .tag tag :: .anchor anchor :: rest => (some anchor, some tag, rest)
    | .anchor anchor :: rest => (some anchor, none, rest)
    | .tag tag :: rest => (none, some tag, rest)
    | tokens => (none, none, tokens)
  let tag ← match tag with
    | none => some none
    | some name => (name.resolve handles).map some
  let (anchor, c) := { c with tokens }.name anchor
  return (⟨anchor, tag⟩, c)

end Cursor

/-- Where a node stands. -/
inductive Context where
  /-- In a flow collection. -/
  | flow
  /-- In a block sequence, or at the root. -/
  | block
  /-- In a block mapping, where a sequence needs no indent of its own. -/
  | blockEntry
deriving DecidableEq

/-- The properties of a scalar. An exclamation mark alone is no tag. -/
def Properties.ofScalar (properties : Properties) : Properties :=
  if properties.tag = some (bytesOf localHandle) then { properties with tag := none }
  else properties

mutual

/-- Reads a node. -/
def readNode (handles : Handles) (fuel : Nat) (context : Context) (c : Cursor) :
    Option (Node × Cursor) :=
  match fuel with
  | 0 => none
  | fuel + 1 =>
    match c.tokens with
    | .alias anchor :: _ =>
      (Entries.get? anchor c.anchors).map fun number => (.alias number, c.next)
    | _ => do
      let (properties, c) ← c.readProperties handles
      match c.tokens with
      | .scalar text style :: _ => return (.scalar properties.ofScalar text style, c.next)
      | .beginSequence :: _ =>
        let (items, c) ← readFlowItems handles fuel true [] c.next
        return (.sequence properties items, c)
      | .beginMapping :: _ =>
        let (entries, c) ← readFlowEntries handles fuel true [] c.next
        return (.mapping properties entries, c)
      | tokens =>
        if context = .blockEntry && tokens.head? = some .entry then
          let (items, c) ← readOpenItems handles fuel [] c
          return (.sequence properties items, c)
        else if context ≠ .flow && tokens.head? = some .blockSequence then
          let (items, c) ← readBlockItems handles fuel [] c.next
          return (.sequence properties items, c)
        else if context ≠ .flow && tokens.head? = some .blockMapping then
          let (entries, c) ← readBlockEntries handles fuel [] c.next
          return (.mapping properties entries, c)
        else if properties.anchor.isSome || properties.tag.isSome then
          return (.scalar properties "" .plain, c)
        else none

/-- Reads a node, or the empty node before one of the given tokens. -/
def readOptional (handles : Handles) (fuel : Nat) (context : Context) (stops : List Token)
    (c : Cursor) : Option (Node × Cursor) :=
  match fuel with
  | 0 => none
  | fuel + 1 => if c.at? stops then some (.empty, c) else readNode handles fuel context c

/-- Reads the value of an entry, if there is one, behind its key. -/
def readEntryValue (handles : Handles) (fuel : Nat) (context : Context) (stops : List Token)
    (c : Cursor) : Option (Node × Cursor) :=
  match fuel with
  | 0 => none
  | fuel + 1 =>
    if c.at? [.value] then readOptional handles fuel context stops c.next else some (.empty, c)

/-- Reads the items of a block sequence. -/
def readBlockItems (handles : Handles) (fuel : Nat) (items : List Node) (c : Cursor) :
    Option (List Node × Cursor) :=
  match fuel with
  | 0 => none
  | fuel + 1 =>
    match c.tokens with
    | .entry :: _ => do
      let (item, c) ← readOptional handles fuel .block [.entry, .blockEnd] c.next
      readBlockItems handles fuel (item :: items) c
    | .blockEnd :: _ => some (items.reverse, c.next)
    | _ => none

/-- Reads the items of a sequence that stands at the indent of its key. -/
def readOpenItems (handles : Handles) (fuel : Nat) (items : List Node) (c : Cursor) :
    Option (List Node × Cursor) :=
  match fuel with
  | 0 => none
  | fuel + 1 =>
    match c.tokens with
    | .entry :: _ => do
      let (item, c) ← readOptional handles fuel .block [.entry, .key, .value, .blockEnd] c.next
      readOpenItems handles fuel (item :: items) c
    | _ => some (items.reverse, c)

/-- Reads the entries of a block mapping. -/
def readBlockEntries (handles : Handles) (fuel : Nat) (entries : List (Node × Node)) (c : Cursor) :
    Option (List (Node × Node) × Cursor) :=
  match fuel with
  | 0 => none
  | fuel + 1 =>
    match c.tokens with
    | .key :: _ => do
      let stops := [Token.key, .value, .blockEnd]
      let (key, c) ← readOptional handles fuel .blockEntry stops c.next
      let (value, c) ← readEntryValue handles fuel .blockEntry stops c
      readBlockEntries handles fuel ((key, value) :: entries) c
    | .blockEnd :: _ => some (entries.reverse, c.next)
    | _ => none

/-- Reads the items of a flow sequence. An entry among them is a mapping of its own. Where its
key is missing, the token that follows the question mark is dropped. -/
def readFlowItems (handles : Handles) (fuel : Nat) (first : Bool) (items : List Node) (c : Cursor) :
    Option (List Node × Cursor) :=
  match fuel with
  | 0 => none
  | fuel + 1 =>
    if c.at? [.endSequence] then some (items.reverse, c.next)
    else if !first && !c.at? [.comma] then none
    else
      let c := if first then c else c.next
      match c.tokens with
      | .endSequence :: _ => some (items.reverse, c.next)
      | .key :: _ => do
        let c := c.next
        let (key, c) ←
          if c.at? [.value, .comma, .endSequence] then some (Node.empty, c.next)
          else readNode handles fuel .flow c
        let (value, c) ← readEntryValue handles fuel .flow [.comma, .endSequence] c
        readFlowItems handles fuel false (.mapping ⟨none, none⟩ [(key, value)] :: items) c
      | _ => do
        let (item, c) ← readNode handles fuel .flow c
        readFlowItems handles fuel false (item :: items) c

/-- Reads the entries of a flow mapping. A node without a mark is a key without value. -/
def readFlowEntries (handles : Handles) (fuel : Nat) (first : Bool) (entries : List (Node × Node))
    (c : Cursor) : Option (List (Node × Node) × Cursor) :=
  match fuel with
  | 0 => none
  | fuel + 1 =>
    if c.at? [.endMapping] then some (entries.reverse, c.next)
    else if !first && !c.at? [.comma] then none
    else
      let c := if first then c else c.next
      match c.tokens with
      | .endMapping :: _ => some (entries.reverse, c.next)
      | .key :: _ => do
        let (key, c) ← readOptional handles fuel .flow [.value, .comma, .endMapping] c.next
        let (value, c) ← readEntryValue handles fuel .flow [.comma, .endMapping] c
        readFlowEntries handles fuel false ((key, value) :: entries) c
      | _ => do
        let (key, c) ← readNode handles fuel .flow c
        readFlowEntries handles fuel false ((key, .empty) :: entries) c

end

namespace Document

/-- Reads the directives of a document: at most one version, which has to be 1.1 or 1.2, and each
handle once. -/
def readDirectives (versioned : Bool) (handles : Handles) :
    List Token → Option (Handles × List Token)
  | .version major minor :: rest =>
    if versioned || major ≠ 1 || (minor ≠ 1 && minor ≠ 2) then none
    else readDirectives true handles rest
  | .tagHandle handle start :: rest =>
    if Entries.contains handle handles then none
    else readDirectives versioned (handles ++ [(handle, start)]) rest
  | rest => some (handles, rest)

/-- Reads the root of a document behind its directives. Only a document without directives may
go without its mark. -/
def readRoot (handles : Handles) (directed : Bool) (tokens : List Token) :
    Option (Node × Cursor) :=
  let fuel := 4 * tokens.length + 8
  match tokens with
  | .documentStart :: rest =>
    match rest with
    | [] | .version .. :: _ | .tagHandle .. :: _ | .documentStart :: _ | .documentEnd :: _ =>
      some (.empty, ⟨rest, []⟩)
    | rest => readNode handles fuel .block ⟨rest, []⟩
  | tokens => if directed then none else readNode handles fuel .block ⟨tokens, []⟩

/-- The root node of a text that holds at most one document. A text without one has the empty
node. -/
def ofTokens? (tokens : List Token) : Option Node := do
  if tokens.isEmpty then return .empty
  let (handles, rest) ← readDirectives false [] tokens
  let (root, c) ← readRoot (handles ++ knownHandles) (rest.length != tokens.length) rest
  guard ((c.tokens.dropWhile (· = .documentEnd)).isEmpty)
  return root

end Document

end Pedigree.Yaml
