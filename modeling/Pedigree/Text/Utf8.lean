/-!
# UTF-8

`Text.decode?` reads bytes that are UTF-8 throughout. `Text.decodeLossy` reads any bytes: each
longest start of a character that breaks off becomes one U+FFFD.
-/

namespace Pedigree.Text

/-- The text of bytes that are UTF-8. -/
def decode? (bytes : ByteArray) : Option String := String.fromUTF8? bytes

/-- The bytes of a character that have been read. -/
structure Partial where
  /-- How many bytes are missing. -/
  missing : Nat
  /-- The least byte that may follow. -/
  low : Nat
  /-- The greatest byte that may follow. -/
  high : Nat
  /-- The bits read. -/
  bits : Nat

/-- What stands for bytes that are no character. -/
def replacement : Char := '\ufffd'

/-- Reads the first byte of a character. The characters read are last first. -/
def startCharacter (read : List Char) (byte : Nat) : List Char × Option Partial :=
  if byte < 0x80 then (Char.ofNat byte :: read, none)
  else if 0xC2 ≤ byte ∧ byte < 0xE0 then (read, some ⟨1, 0x80, 0xBF, byte - 0xC0⟩)
  else if 0xE0 ≤ byte ∧ byte < 0xF0 then
    (read, some ⟨2, if byte = 0xE0 then 0xA0 else 0x80, if byte = 0xED then 0x9F else 0xBF,
      byte - 0xE0⟩)
  else if 0xF0 ≤ byte ∧ byte < 0xF5 then
    (read, some ⟨3, if byte = 0xF0 then 0x90 else 0x80, if byte = 0xF4 then 0x8F else 0xBF,
      byte - 0xF0⟩)
  else (replacement :: read, none)

/-- Reads one byte. -/
def readByte (state : List Char × Option Partial) (byte : UInt8) : List Char × Option Partial :=
  let n := byte.toNat
  match state with
  | (read, none) => startCharacter read n
  | (read, some p) =>
    if p.low ≤ n ∧ n ≤ p.high then
      let bits := p.bits * 64 + (n - 0x80)
      if p.missing ≤ 1 then (Char.ofNat bits :: read, none)
      else (read, some ⟨p.missing - 1, 0x80, 0xBF, bits⟩)
    else startCharacter (replacement :: read) n

/-- The text of bytes, with a replacement for what is no character. -/
def decodeLossy (bytes : ByteArray) : String :=
  match bytes.toList.foldl readByte ([], none) with
  | (read, none) => String.ofList read.reverse
  | (read, some _) => String.ofList (replacement :: read).reverse

end Pedigree.Text
