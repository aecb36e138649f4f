import Pedigree.Definition

/-!
# The order of objects

Objects are listed by their attribute `order`, numbers by their nearest binary64 and
strings by code points, which is the order of their UTF-8 bytes. All objects have to use
one kind of order. Objects that compare equal keep their source order.
-/

namespace Pedigree

/-- The attribute that orders objects. -/
def orderKey : String := "order"

/-- What an object is ordered by. -/
inductive OrderKey where
  | missing
  | number (x : Binary64)
  | text (s : String)
deriving DecidableEq

namespace OrderKey

/-- The kind of an order. -/
def kind : OrderKey → OrderKind
  | .missing => .missing
  | .number _ => .number
  | .text _ => .text

/-- Whether the first key does not come after the second one. Keys of different kinds do not
come after each other. -/
def le : OrderKey → OrderKey → Bool
  | .number x, .number y => x.scaled ≤ y.scaled
  | .text s, .text t => decide ¬(t < s)
  | _, _ => true

end OrderKey

namespace Definition

/-- The order of an object. Absent and null both mean none. -/
def order (name : String) (object : Definition) : Except Failure OrderKey :=
  match Entries.get? orderKey object with
  | none | some .null => .ok .missing
  | some (.number n) => .ok (.number n.toBinary64)
  | some (.string s) => .ok (.text s)
  | some other => .error (.invalidOrder name other.kind)

end Definition

/-- An entry of a collection with its order. -/
structure Ranked where
  key : OrderKey
  entry : String × Definition

namespace Ranked

/-- The entries with their orders, if all are of the first one's kind. -/
def ofEntries (first : Option (String × OrderKind)) :
    Entries String Definition → Except Failure (List Ranked)
  | [] => .ok []
  | (name, object) :: rest => do
    let key ← Definition.order name object
    match first with
    | none => return ⟨key, (name, object)⟩ :: (← ofEntries (some (name, key.kind)) rest)
    | some (firstName, firstKind) =>
      if firstKind = key.kind then return ⟨key, (name, object)⟩ :: (← ofEntries first rest)
      else throw (.mixedOrder firstName firstKind name key.kind)

theorem map_entry_ofEntries {first : Option (String × OrderKind)}
    {entries : Entries String Definition} {ranked : List Ranked}
    (h : ofEntries first entries = .ok ranked) : ranked.map Ranked.entry = entries := by
  induction entries generalizing first ranked with
  | nil =>
    cases h
    rfl
  | cons entry rest ih =>
    obtain ⟨name, object⟩ := entry
    simp only [ofEntries, bind, Except.bind, pure, Except.pure] at h
    split at h
    · cases h
    · split at h
      · split at h
        · cases h
        · rename_i hr
          cases h
          simp [ih hr]
      · split at h
        · split at h
          · cases h
          · rename_i hr
            cases h
            simp [ih hr]
        · cases h

end Ranked

namespace Collection

/-- The objects by their order. -/
def sortByOrder (objects : Collection) : Except Failure Collection :=
  match h : Ranked.ofEntries none objects.entries with
  | .error failure => .error failure
  | .ok ranked =>
    .ok (objects.reorder ((ranked.mergeSort fun a b => a.key.le b.key).map Ranked.entry) (by
      rw [← Ranked.map_entry_ofEntries h]
      exact (List.mergeSort_perm ranked _).map Ranked.entry))

end Collection

end Pedigree
