import Pedigree.Text.Digit

/-!
# Dates and times

Which words are dates or times of day. The numbers have to exist in the calendar; a second may
be the sixtieth.
-/

namespace Pedigree.Toml

open Text

/-- The number of a fixed count of digits, and what follows. -/
def readDigits (count : Nat) (chars : List Char) : Option (Nat × List Char) :=
  let digits := chars.take count
  if digits.length = count && digits.all Char.isDigit then
    some (ofDigits 10 (digits.map digitValue), chars.drop count)
  else none

/-- Passes over one character. -/
def readMark (mark : Char) : List Char → Option (List Char)
  | c :: rest => if c = mark then some rest else none
  | [] => none

/-- The number of days in a month. -/
def daysIn (year month : Nat) : Nat :=
  if month = 2 then
    if year % 4 = 0 ∧ (year % 100 ≠ 0 ∨ year % 400 = 0) then 29 else 28
  else if month = 4 ∨ month = 6 ∨ month = 9 ∨ month = 11 then 30
  else 31

/-- Passes over a date. -/
def passDate (chars : List Char) : Option (List Char) := do
  let (year, rest) ← readDigits 4 chars
  let (month, rest) ← readDigits 2 (← readMark '-' rest)
  let (day, rest) ← readDigits 2 (← readMark '-' rest)
  guard (1 ≤ month ∧ month ≤ 12 ∧ 1 ≤ day ∧ day ≤ daysIn year month)
  return rest

/-- Passes over a fraction of a second, if there is one. -/
def passFraction (chars : List Char) : Option (List Char) :=
  match chars with
  | '.' :: rest =>
    if (rest.takeWhile Char.isDigit).isEmpty then none else some (rest.dropWhile Char.isDigit)
  | chars => some chars

/-- Passes over a time of day. -/
def passTime (chars : List Char) : Option (List Char) := do
  let (hour, rest) ← readDigits 2 chars
  let (minute, rest) ← readDigits 2 (← readMark ':' rest)
  let (second, rest) ← readDigits 2 (← readMark ':' rest)
  guard (hour ≤ 23 ∧ minute ≤ 59 ∧ second ≤ 60)
  passFraction rest

/-- Passes over the offset of a time zone, if there is one. -/
def passOffset (chars : List Char) : Option (List Char) :=
  match chars with
  | [] => some []
  | c :: rest =>
    if c = 'Z' ∨ c = 'z' then some rest
    else if c = '+' ∨ c = '-' then do
      let (hour, rest) ← readDigits 2 rest
      let (minute, rest) ← readDigits 2 (← readMark ':' rest)
      guard (hour ≤ 23 ∧ minute ≤ 59)
      return rest
    else some (c :: rest)

/-- Whether a word is a time of day with an optional offset. -/
def isZonedTime (word : List Char) : Bool :=
  ((passTime word).bind passOffset).any List.isEmpty

/-- Whether a word is a date without time. -/
def isDate (word : List Char) : Bool := (passDate word).any List.isEmpty

/-- Whether a word is a date, a time of day, or both with the letter T between them. -/
def isDateOrTime (word : List Char) : Bool :=
  isDate word || (passTime word).any List.isEmpty ||
    match passDate word with
    | some (c :: time) => (c = 'T' || c = 't') && isZonedTime time
    | _ => false

end Pedigree.Toml
