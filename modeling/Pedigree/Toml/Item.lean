import Pedigree.Number.Binary64
import Pedigree.OrderedMap

/-!
# Items of a TOML document

A table keeps its entries in order, and how it came to be: tables may only be extended in the
way they were begun. `Table.extend` follows a path of keys, makes the tables that are missing,
and changes the table at its end.
-/

namespace Pedigree.Toml

/-- How a table came to be. -/
inductive Origin where
  /-- A header of its own. -/
  | header
  /-- A header further inside. -/
  | implied
  /-- A key with dots. -/
  | dotted
  /-- A value in braces. -/
  | braces
deriving DecidableEq

/-- A value, a table, or an array of tables. -/
inductive Item where
  | string (s : String)
  | integer (n : Int)
  | float (x : Binary64)
  | bool (b : Bool)
  | date (text : String)
  | array (items : List Item)
  | table (origin : Origin) (entries : List (String × Item))
  /-- The tables of headers in double brackets. -/
  | tables (rows : List (List (String × Item)))

/-- The entries of a table. -/
abbrev Entries := List (String × Item)

namespace Table

/-- Changes the table at a path. The tables on the way are made where they are missing. A path
with dots does not lead through tables that have a header, and no path leads through a value.
An array of tables stands for its last table. -/
def extend (dotted : Bool) (change : Origin → Entries → Option Entries) :
    List String → Origin → Entries → Option Entries
  | [], origin, entries => change origin entries
  | key :: path, _, entries =>
    match Pedigree.Entries.get? key entries with
    | none =>
      let origin := if dotted then Origin.dotted else Origin.implied
      (extend dotted change path origin []).map fun inner =>
        Pedigree.Entries.insert key (.table origin inner) entries
    | some (.table origin inner) =>
      if origin = .braces || (dotted && origin = .header) then none
      else (extend dotted change path origin inner).map fun inner =>
        Pedigree.Entries.insert key (.table origin inner) entries
    | some (.tables rows) =>
      match rows.getLast? with
      | none => none
      | some last => (extend dotted change path .header last).map fun last =>
        Pedigree.Entries.insert key (.tables (rows.dropLast ++ [last])) entries
    | some _ => none

/-- Gives a key a value. Each key is given once, and a path with dots ends in a table that was
made by one. -/
def assign (path : List String) (key : String) (value : Item) (origin : Origin)
    (entries : Entries) : Option Entries :=
  extend true (fun origin entries =>
    if (origin == .dotted) == path.isEmpty || Pedigree.Entries.contains key entries then none
    else some (entries ++ [(key, value)])) path origin entries

/-- Begins the table of a header. A table that was implied moves to the end. -/
def open? (key : String) (entries : Entries) : Option Entries :=
  match Pedigree.Entries.get? key entries with
  | none => some (entries ++ [(key, .table .header [])])
  | some (.table .implied inner) =>
    some (Pedigree.Entries.erase key entries ++ [(key, .table .header inner)])
  | some _ => none

/-- Begins the next table of an array of tables. -/
def openNext? (key : String) (entries : Entries) : Option Entries :=
  match Pedigree.Entries.get? key entries with
  | none => some (entries ++ [(key, .tables [[]])])
  | some (.tables rows) => some (Pedigree.Entries.insert key (.tables (rows ++ [[]])) entries)
  | some _ => none

end Table

end Pedigree.Toml
