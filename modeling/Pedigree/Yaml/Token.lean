/-!
# Tokens of a YAML text

Brackets of flow collections stand in the text. The starts and ends of block collections
come from the indentation, and a key of a block mapping is marked once its colon is found.
-/

namespace Pedigree.Yaml

/-- Whether a scalar stands bare in the text. -/
inductive Style where
  | plain
  | quoted
deriving DecidableEq

/-- A tag as written: the handle names the start of the tag, the suffix is the rest of it.
Bytes, since escapes may spell any. -/
structure TagName where
  handle : List UInt8
  suffix : List UInt8
deriving DecidableEq

/-- A token. -/
inductive Token where
  /-- The declared version of the language. -/
  | version (major minor : Nat)
  /-- The meaning of a tag handle. -/
  | tagHandle (handle start : List UInt8)
  | documentStart
  | documentEnd
  | blockSequence
  | blockMapping
  /-- The end of the innermost block collection. -/
  | blockEnd
  | beginSequence
  | endSequence
  | beginMapping
  | endMapping
  /-- The hyphen of an entry. -/
  | entry
  | comma
  | key
  | value
  | alias (name : List Char)
  | anchor (name : List Char)
  | tag (name : TagName)
  | scalar (text : String) (style : Style)
deriving DecidableEq

end Pedigree.Yaml
