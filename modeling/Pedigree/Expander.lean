import Pedigree.Definition

/-!
# Expanding bases

An `Expander` turns the bases of one collection into their merged form. `expand` follows
the base of a definition up to `default` and merges the localized definitions on the way
back. Each expanded base is kept in a memo, so a shared ancestor is merged once. A name
is marked in the memo while its own base is being expanded, and meeting such a mark is a
cycle.

A failing call leaves its marks and its chain of names behind. Every nested call marks
one more base of the collection, which bounds the recursion (`unmarked_enter_lt`).
-/

namespace Pedigree

/-- What the memo knows of a base. -/
inductive Expansion where
  /-- Its own base is being expanded, or a failure happened meanwhile. -/
  | inProgress
  /-- It expands to this definition. -/
  | done (definition : Definition)

/-- A run of expansions over one collection. -/
structure Expander where
  /-- The bases as they were written. -/
  bases : Collection
  /-- The locale whose overlays apply. -/
  locale : Option String
  /-- What is known so far. -/
  memo : OrderedMap String Expansion
  /-- The names being expanded, outermost first. -/
  chain : List String

namespace Expander

/-- An expander that knows nothing yet. -/
def new (bases : Collection) (locale : Option String) : Expander := ⟨bases, locale, .empty, []⟩

/-- The number of bases without a memo entry. -/
def unmarked (e : Expander) : Nat := (e.bases.keys.filter fun name => !e.memo.contains name).length

/-- Marks a name and puts it at the end of the chain. -/
def enter (e : Expander) (name : String) : Expander :=
  { e with memo := e.memo.insert name .inProgress, chain := e.chain ++ [name] }

/-- Takes the last name off the chain and remembers its expansion. -/
def leave (e : Expander) (name : String) (definition : Definition) : Expander :=
  { e with memo := e.memo.insert name (.done definition), chain := e.chain.dropLast }

/-- The names from the given one to the end of the chain, and the given one again. -/
def cycle (e : Expander) (name : String) : List String :=
  let loop := e.chain.dropWhile (· != name)
  (if loop.isEmpty then e.chain else loop) ++ [name]

theorem contains_enter (e : Expander) (name other : String) :
    (e.enter name).memo.contains other = (decide (other = name) || e.memo.contains other) := by
  by_cases h : other = name
  · subst h
    have : (e.enter other).memo.get? other = some .inProgress :=
      OrderedMap.get?_insert_self other Expansion.inProgress e.memo
    simp only [OrderedMap.get?] at this
    simp [OrderedMap.contains, Entries.contains, this]
  · have : (e.enter name).memo.get? other = e.memo.get? other :=
      OrderedMap.get?_insert_of_ne h Expansion.inProgress e.memo
    simp only [OrderedMap.get?] at this
    simp [OrderedMap.contains, Entries.contains, this, h]

/-- Entering a base that has no memo entry leaves fewer unmarked bases. -/
theorem unmarked_enter_lt {e : Expander} {name : String} (hmemo : e.memo.get? name = none)
    (hbase : name ∈ e.bases.keys) : (e.enter name).unmarked < e.unmarked := by
  have hmem : name ∈ e.bases.keys.filter fun k => !e.memo.contains k := by
    rw [List.mem_filter]
    refine ⟨hbase, ?_⟩
    simp only [OrderedMap.get?] at hmemo
    simp [OrderedMap.contains, Entries.contains, hmemo]
  have hfilter : (e.enter name).bases.keys.filter (fun k => !(e.enter name).memo.contains k) =
      (e.bases.keys.filter fun k => !e.memo.contains k).filter (fun k => decide (k ≠ name)) := by
    rw [List.filter_filter]
    refine List.filter_congr ?_
    intro k _
    rw [contains_enter]
    by_cases h : k = name <;> simp [h]
  unfold unmarked
  rw [hfilter]
  refine Nat.lt_of_le_of_ne (List.length_filter_le _ _) ?_
  intro heq
  have := (List.length_filter_eq_length_iff).1 heq name hmem
  simp at this

/-- Merges a localized definition onto its expanded base and remembers the result. -/
def finish (e : Expander) (name : String) (definition parent : Definition) :
    Logged Failure Definition × Expander :=
  let expanded := Definition.merge parent (e.bases.localized e.locale name definition)
  let result : Logged Failure Definition := do
    let _ ← e.bases.localize e.locale name definition
    Logged.say .debug ("expanded base '" ++ name ++ "' (" ++ toString expanded.length ++ " keys)")
    return expanded
  (result, e.leave name expanded)

/-- Expands a base, its ancestors first. -/
def expand (e : Expander) (name : String) : Logged Failure Definition × Expander :=
  match _hmemo : e.memo.get? name with
  | some (.done definition) => (.done definition, e)
  | some .inProgress => (.fail (.baseCycle (e.cycle name)), e)
  | none =>
    match _hbase : e.bases.get? name with
    | none => (.fail (.unknownBase (e.chain.getLast?.getD name) name), e)
    | some definition =>
      match Definition.baseReference name definition with
      | .error failure => (.fail failure, e.enter name)
      | .ok none =>
        if name = defaultBase then (e.enter name).finish name definition []
        else (.fail (.missingBase name), e.enter name)
      | .ok (some base) =>
        if isBaseName base && e.bases.contains base then
          match (e.enter name).expand base with
          | (⟨.error failure, log⟩, e) => (⟨.error failure, log⟩, e)
          | (⟨.ok parent, log⟩, e) =>
            match e.finish name definition parent with
            | (result, e) => (⟨result.outcome, log ++ result.log⟩, e)
        else (.fail (.unknownBase name base), e.enter name)
termination_by e.unmarked
decreasing_by exact unmarked_enter_lt _hmemo (OrderedMap.mem_keys_of_get? _hbase)

/-- Expands the given names in order, overlays apart. A name that no base may have is skipped
with a warning. -/
def expandNames (e : Expander) (expanded : Collection) :
    List String → Logged Failure Collection
  | [] => .done expanded
  | name :: rest =>
    if e.bases.isOverlay name then expandNames e expanded rest
    else if isBaseName name then
      match e.expand name with
      | (result, e) => do
        let definition ← result
        expandNames e (expanded.insert name definition) rest
    else do
      Logged.say .warn ("skipping base '" ++ name ++
        "': names must be lowercase letters, digits or '-'")
      expandNames e expanded rest

/-- Expands every base of the collection, in source order. -/
def expandAll (e : Expander) : Logged Failure Collection := e.expandNames .empty e.bases.keys

end Expander

end Pedigree
