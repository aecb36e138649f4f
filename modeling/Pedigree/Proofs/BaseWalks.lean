import Mathlib.Data.List.Perm.Subperm
import Pedigree.Proofs.ReferenceErrors

/-!
# Walks along the bases

Where an expansion ends is read off the references as they were written. A walk goes from a name to
the base it names, as long as that is a base name, is among the bases and was not passed before
(`Collection.WalksTo`). It comes to `default` without a base, or it breaks at a name in one of four
ways (`Collection.Breaks`). No name is passed twice, so every walk ends (`exists_end`).

An expander that has entered the names passed so far, and remembers nothing else, is where a new
expander comes to on such a walk (`Entered`). It answers what the end of the walk says, and a new
expander answers the same (`exists_entered_of_walksTo`). The loop over all bases shares one memo
between its calls, and each of them answers as a new expander does (`expandNames_eq_error_iff`).
-/

namespace Pedigree

namespace Collection

variable {bases : Collection} {start last : String} {passed : List String}

/-! ## Walks -/

/-- A walk may go on from a name to the base it names. -/
def Leads (bases : Collection) (name base : String) : Prop :=
  bases.Refers name base ∧ isBaseName base = true ∧ base ∈ bases.keys

/-- A walk from a name passes some names and comes to one that it has not passed. -/
inductive WalksTo (bases : Collection) (start : String) : List String → String → Prop where
  | start : WalksTo bases start [] start
  | step {passed : List String} {last base : String} (h : WalksTo bases start passed last)
      (hleads : bases.Leads last base) (hnew : base ∉ passed ++ [last]) :
      WalksTo bases start (passed ++ [last]) base

/-- How a walk that has passed some names breaks at one. -/
inductive Breaks (bases : Collection) (passed : List String) (name : String) : Failure → Prop where
  /-- Its base is neither a string nor null. -/
  | invalidReference {definition : Definition} {value : Value}
      (hget : bases.get? name = some definition)
      (hvalue : Entries.get? baseKey definition = some value)
      (hnull : value.kind ≠ .null) (hstring : value.kind ≠ .string) :
      Breaks bases passed name (.invalidBaseReference name value.kind)
  /-- It has no base and is not `default`. -/
  | missingBase {definition : Definition} (hget : bases.get? name = some definition)
      (hroot : definition.Rootless) (hname : name ≠ defaultBase) :
      Breaks bases passed name (.missingBase name)
  /-- Its base cannot be a base, or is not among them. -/
  | unknownBase {base : String} (hrefers : bases.Refers name base)
      (hunknown : ¬(isBaseName base = true ∧ base ∈ bases.keys)) :
      Breaks bases passed name (.unknownBase name base)
  /-- Its base was passed before, or is the name itself. -/
  | cycle {base : String} {before after : List String} (hleads : bases.Leads name base)
      (hpassed : passed ++ [name] = before ++ base :: after) :
      Breaks bases passed name (.baseCycle (base :: (after ++ [base])))

/-- The definition `default` is there and has no base. -/
def HasRoot (bases : Collection) : Prop :=
  ∃ definition, bases.get? defaultBase = some definition ∧ definition.Rootless

/-- Where a walk goes no further. -/
def Ends (bases : Collection) (passed : List String) (last : String) : Prop :=
  (∃ failure, bases.Breaks passed last failure) ∨ last = defaultBase ∧ bases.HasRoot

theorem WalksTo.nodup (h : bases.WalksTo start passed last) : (passed ++ [last]).Nodup := by
  induction h with
  | start => exact List.nodup_singleton _
  | step h hleads hnew ih => simpa using List.Nodup.concat hnew ih

theorem WalksTo.not_mem (h : bases.WalksTo start passed last) : last ∉ passed := by
  cases h with
  | start => exact List.not_mem_nil
  | step h hleads hnew => exact hnew

theorem WalksTo.subset (h : bases.WalksTo start passed last) (hstart : start ∈ bases.keys) :
    passed ++ [last] ⊆ bases.keys := by
  induction h with
  | start => exact List.cons_subset.2 ⟨hstart, List.nil_subset _⟩
  | step h hleads hnew ih =>
    exact List.append_subset.2 ⟨ih, List.cons_subset.2 ⟨hleads.2.2, List.nil_subset _⟩⟩

/-- At every name a walk ends or goes on. -/
theorem WalksTo.end_or_step (h : bases.WalksTo start passed last) (hlast : last ∈ bases.keys) :
    bases.Ends passed last ∨ ∃ base, bases.WalksTo start (passed ++ [last]) base := by
  obtain ⟨definition, hget⟩ : ∃ definition, bases.get? last = some definition :=
    Option.ne_none_iff_exists'.1 fun hnone => OrderedMap.get?_eq_none_iff.1 hnone hlast
  rcases href : Definition.baseReference last definition with failure | _ | base
  · obtain ⟨value, hvalue, hnull, hstring, rfl⟩ := Definition.baseReference_eq_error_iff.1 href
    exact .inl (.inl ⟨_, .invalidReference hget hvalue hnull hstring⟩)
  · have hroot := Definition.baseReference_eq_none_iff.1 href
    by_cases hname : last = defaultBase
    · exact .inl (.inr ⟨hname, definition, hname ▸ hget, hroot⟩)
    · exact .inl (.inl ⟨_, .missingBase hget hroot hname⟩)
  · have hrefers : bases.Refers last base :=
      ⟨definition, hget, Definition.baseReference_eq_some_iff.1 href⟩
    by_cases hknown : isBaseName base = true ∧ base ∈ bases.keys
    · by_cases hpassed : base ∈ passed ++ [last]
      · obtain ⟨before, after, hsplit⟩ := List.append_of_mem hpassed
        exact .inl (.inl ⟨_, .cycle ⟨hrefers, hknown⟩ hsplit⟩)
      · exact .inr ⟨base, h.step ⟨hrefers, hknown⟩ hpassed⟩
    · exact .inl (.inl ⟨_, .unknownBase hrefers hknown⟩)

theorem WalksTo.exists_end {passed : List String} {last : String}
    (h : bases.WalksTo start passed last) (hstart : start ∈ bases.keys) :
    ∃ passed last, bases.WalksTo start passed last ∧ bases.Ends passed last := by
  have hsubset := h.subset hstart
  rcases h.end_or_step (hsubset (by simp)) with hend | ⟨base, hstep⟩
  · exact ⟨passed, last, h, hend⟩
  · exact hstep.exists_end hstart
-- The names passed are distinct bases, so there are at most as many of them as bases.
termination_by bases.keys.length - passed.length
decreasing_by
  have := (h.nodup.subperm hsubset).length_le
  simp only [List.length_append, List.length_singleton] at this ⊢
  omega

/-- Every walk ends. -/
theorem exists_end (hstart : start ∈ bases.keys) :
    ∃ passed last, bases.WalksTo start passed last ∧ bases.Ends passed last :=
  WalksTo.start.exists_end hstart

end Collection

namespace Expander

open Collection

variable {bases : Collection} {locale : Option String} {e : Expander} {passed : List String}
  {start last name : String}

/-! ## Expanding along a walk -/

/-- An expander that has entered some names one after the other and done nothing else. -/
structure Entered (bases : Collection) (locale : Option String) (passed : List String)
    (e : Expander) : Prop where
  valid : e.Valid
  bases : e.bases = bases
  locale : e.locale = locale
  chain : e.chain = passed
  fresh : ∀ name ∉ passed, e.memo.get? name = none

theorem entered_new (bases : Collection) (locale : Option String) :
    Entered bases locale [] (new bases locale) :=
  ⟨valid_new bases locale, rfl, rfl, rfl, fun _ _ => rfl⟩

theorem Entered.enter (h : Entered bases locale passed e) (hnew : name ∉ passed)
    (hbase : name ∈ bases.keys) : Entered bases locale (passed ++ [name]) (e.enter name) where
  valid := h.valid.enter (h.fresh name hnew) (h.bases.symm ▸ hbase)
  bases := h.bases
  locale := h.locale
  chain := by rw [Expander.enter, h.chain]
  fresh other hother := by
    rw [List.mem_append, List.mem_singleton, not_or] at hother
    exact (OrderedMap.get?_insert_of_ne hother.2 ..).trans (h.fresh other hother.1)

/-- A name fails as the base that it leads to. -/
theorem Entered.outcome_expand_of_leads (h : Entered bases locale passed e) (hnew : name ∉ passed)
    {base : String} (hleads : bases.Leads name base) (failure : Failure) :
    (e.expand name).1.outcome = .error failure ↔
      ((e.enter name).expand base).1.outcome = .error failure := by
  obtain rfl := h.bases
  obtain ⟨⟨definition, hget, hbase⟩, hknown⟩ := hleads
  rw [outcome_expand_of_unmarked h.valid (h.fresh name hnew) hget,
    Definition.baseReference_eq_some_iff.2 hbase]
  simp only [hknown.1, OrderedMap.contains_iff.2 hknown.2, Bool.and_self, if_true]
  cases ((e.enter name).expand base).1.outcome <;> simp [Except.map]

/-- Where a walk breaks, the expansion fails with what broke it. -/
theorem Entered.outcome_expand_of_breaks (h : Entered bases locale passed e)
    (hnew : name ∉ passed) {failure : Failure} (hbreaks : bases.Breaks passed name failure) :
    (e.expand name).1.outcome = .error failure := by
  obtain rfl := h.bases
  have hmemo := h.fresh name hnew
  cases hbreaks with
  | invalidReference hget hvalue hnull hstring =>
    rw [outcome_expand_of_unmarked h.valid hmemo hget,
      Definition.baseReference_eq_error_iff.2 ⟨_, hvalue, hnull, hstring, rfl⟩]
  | missingBase hget hroot hname =>
    rw [outcome_expand_of_unmarked h.valid hmemo hget, Definition.baseReference_eq_none_iff.2 hroot]
    exact if_neg hname
  | unknownBase hrefers hunknown =>
    obtain ⟨definition, hget, hbase⟩ := hrefers
    rw [outcome_expand_of_unmarked h.valid hmemo hget, Definition.baseReference_eq_some_iff.2 hbase]
    refine if_neg ?_
    rwa [Bool.and_eq_true, OrderedMap.contains_iff]
  | @cycle base before after hleads hpassed =>
    obtain ⟨definition, hget, -⟩ := hleads.1
    have hnext := h.enter hnew (OrderedMap.mem_keys_of_get? hget)
    have hchain : (e.enter name).chain = before ++ base :: after := hnext.chain.trans hpassed
    have hmarked : (e.enter name).memo.get? base = some .inProgress :=
      (hnext.valid.marked base).2 (by simp [hchain])
    have hdistinct := hnext.valid.distinct
    rw [hchain, List.nodup_append] at hdistinct
    have hfirst : base ∉ before := fun hmem => hdistinct.2.2 base hmem base (by simp) rfl
    rw [h.outcome_expand_of_leads hnew hleads, expand_of_inProgress hmarked, cycle_eq hchain hfirst]
    rfl

/-- Where a walk comes to `default`, the expansion succeeds. -/
theorem Entered.outcome_expand_default (h : Entered bases locale passed e)
    (hnew : defaultBase ∉ passed) (hroot : bases.HasRoot) :
    ∃ definition, (e.expand defaultBase).1.outcome = .ok definition := by
  obtain rfl := h.bases
  obtain ⟨definition, hget, hrootless⟩ := hroot
  rw [outcome_expand_of_unmarked h.valid (h.fresh _ hnew) hget,
    Definition.baseReference_eq_none_iff.2 hrootless]
  exact ⟨_, if_pos rfl⟩

/-- A new expander fails at the start of a walk as one that has entered the names of the walk fails
at its end. -/
theorem exists_entered_of_walksTo (h : bases.WalksTo start passed last)
    (hstart : start ∈ bases.keys) (locale : Option String) :
    ∃ e, Entered bases locale passed e ∧ ∀ failure,
      ((new bases locale).expand start).1.outcome = .error failure ↔
        (e.expand last).1.outcome = .error failure := by
  induction h with
  | start => exact ⟨_, entered_new bases locale, fun _ => Iff.rfl⟩
  | @step passed last base h hleads hnew ih =>
    obtain ⟨e, he, hfails⟩ := ih
    exact ⟨e.enter last, he.enter h.not_mem (h.subset hstart (by simp)), fun failure =>
      (hfails failure).trans (he.outcome_expand_of_leads h.not_mem hleads failure)⟩

/-! ## Calls on a new expander -/

/-- A new expander fails with a failure if a walk breaks with it, and only then. -/
theorem outcome_expand_eq_error_iff (hname : name ∈ bases.keys) (locale : Option String)
    {failure : Failure} : ((new bases locale).expand name).1.outcome = .error failure ↔
      ∃ passed last, bases.WalksTo name passed last ∧ bases.Breaks passed last failure := by
  have hbreaks : ∀ passed last failure, bases.WalksTo name passed last →
      bases.Breaks passed last failure →
        ((new bases locale).expand name).1.outcome = .error failure := by
    intro passed last failure hwalk hbreaks
    obtain ⟨e, he, hfails⟩ := exists_entered_of_walksTo hwalk hname locale
    exact (hfails failure).2 (he.outcome_expand_of_breaks hwalk.not_mem hbreaks)
  constructor
  · intro herror
    obtain ⟨passed, last, hwalk, ⟨found, hfound⟩ | ⟨rfl, hroot⟩⟩ := exists_end hname
    · have := hbreaks passed last found hwalk hfound
      rw [herror] at this
      exact ⟨passed, last, hwalk, Except.error.inj this ▸ hfound⟩
    · obtain ⟨e, he, hfails⟩ := exists_entered_of_walksTo hwalk hname locale
      obtain ⟨definition, hok⟩ := he.outcome_expand_default hwalk.not_mem hroot
      rw [hfails, hok] at herror
      cases herror
  · rintro ⟨passed, last, hwalk, hfailure⟩
    exact hbreaks passed last failure hwalk hfailure

/-- A new expander succeeds where a walk comes to `default` without a base, and only then. -/
theorem exists_outcome_expand_iff (hname : name ∈ bases.keys) (locale : Option String) :
    (∃ definition, ((new bases locale).expand name).1.outcome = .ok definition) ↔
      ∃ passed, bases.WalksTo name passed defaultBase ∧ bases.HasRoot := by
  constructor
  · rintro ⟨definition, hok⟩
    obtain ⟨passed, last, hwalk, ⟨failure, hbreaks⟩ | ⟨rfl, hroot⟩⟩ := exists_end hname
    · rw [(outcome_expand_eq_error_iff hname locale).2 ⟨passed, last, hwalk, hbreaks⟩] at hok
      cases hok
    · exact ⟨passed, hwalk, hroot⟩
  · rintro ⟨passed, hwalk, hroot⟩
    obtain ⟨e, he, hfails⟩ := exists_entered_of_walksTo hwalk hname locale
    obtain ⟨definition, hok⟩ := he.outcome_expand_default hwalk.not_mem hroot
    cases houtcome : ((new bases locale).expand name).1.outcome with
    | ok found => exact ⟨found, rfl⟩
    | error failure =>
      rw [hfails, hok] at houtcome
      cases houtcome

/-! ## The loop over all bases -/

/-- The first name where `Q` holds, with `P` before it, is the head or comes after it. -/
theorem exists_first_cons_iff {names : List String} {P Q : String → Prop} :
    (∃ before first after, name :: names = before ++ first :: after ∧ (∀ n ∈ before, P n) ∧
      Q first) ↔ Q name ∨ P name ∧ ∃ before first after, names = before ++ first :: after ∧
        (∀ n ∈ before, P n) ∧ Q first := by
  constructor
  · rintro ⟨_ | ⟨_, before⟩, first, after, hsplit, hbefore, hfirst⟩
    · obtain ⟨rfl, -⟩ := List.cons.inj hsplit
      exact .inl hfirst
    · obtain ⟨rfl, hrest⟩ := List.cons.inj hsplit
      rw [List.forall_mem_cons] at hbefore
      exact .inr ⟨hbefore.1, before, first, after, hrest, hbefore.2, hfirst⟩
  · rintro (hname | ⟨hname, before, first, after, rfl, hbefore, hfirst⟩)
    · exact ⟨[], name, names, rfl, List.forall_mem_nil _, hname⟩
    · exact ⟨name :: before, first, after, rfl, List.forall_mem_cons.2 ⟨hname, hbefore⟩, hfirst⟩

/-- Expanding names one after the other fails as a new expander does at the first name that it
fails at. -/
theorem expandNames_eq_error_iff (h : e.Valid) (hcomplete : e.Complete) (hchain : e.chain = [])
    {names : List String} {expanded : Collection} {failure : Failure} :
    (e.expandNames expanded names).outcome = .error failure ↔
      ∃ before first after, names.filter isBaseName = before ++ first :: after ∧
        (∀ n ∈ before, ∃ definition,
          ((new e.bases e.locale).expand n).1.outcome = .ok definition) ∧
        ((new e.bases e.locale).expand first).1.outcome = .error failure := by
  induction names generalizing e expanded with
  | nil => simp [expandNames, Logged.done]
  | cons name rest ih =>
    rw [expandNames]
    by_cases hname : isBaseName name = true
    · have halike : (new e.bases e.locale).Alike e := ⟨rfl, rfl, hchain⟩
      have hnew := halike.outcome_expand_eq (valid_new ..) (complete_new _ _) h hcomplete name
      have hanswers := h.expand_answers name
      have hafter := hcomplete.expand h name
      rw [List.filter_cons_of_pos hname, exists_first_cons_iff, hnew]
      cases hexpand : e.expand name with
      | mk answer after =>
        rw [hexpand] at hanswers hafter
        simp only [Collection.isOverlay_eq_false_of_isBaseName _ hname, hname, if_true,
          Bool.false_eq_true, if_false, Logged.outcome_bind]
        cases hanswer : answer.outcome with
        | error found =>
          change Except.error found = Except.error failure ↔ _
          simp
        | ok definition =>
          change (after.expandNames (expanded.insert name definition) rest).outcome = _ ↔ _
          rw [ih hanswers.valid hafter ((hanswers.chain _ hanswer).trans hchain),
            hanswers.bases, hanswers.locale]
          simp
    · simp only [hname, if_false, Bool.false_eq_true, not_false_eq_true, List.filter_cons_of_neg]
      split
      · exact ih h hcomplete hchain
      · rw [Logged.outcome_bind, Logged.outcome_say]
        exact ih h hcomplete hchain

/-- A new expander's call is decided by the walk from the name: it fails with what breaks the walk,
and succeeds if the walk comes to `default` without a base. Expanding all bases returns the
expansions of the base names, in source order, or the failure of the first of them that fails. -/
theorem expand_decided_by_walk (bases : Collection) (locale : Option String) :
    (∀ name ∈ bases.keys,
      (∀ failure, ((new bases locale).expand name).1.outcome = .error failure ↔
        ∃ passed last, bases.WalksTo name passed last ∧ bases.Breaks passed last failure) ∧
      ((∃ definition, ((new bases locale).expand name).1.outcome = .ok definition) ↔
        ∃ passed, bases.WalksTo name passed defaultBase ∧ bases.HasRoot)) ∧
    (∀ expanded, ((new bases locale).expandAll).outcome = .ok expanded ↔
      Entries.Lists id
        (fun name definition => ((new bases locale).expand name).1.outcome = .ok definition)
        (bases.keys.filter isBaseName) expanded.entries) ∧
    ∀ failure, ((new bases locale).expandAll).outcome = .error failure ↔
      ∃ before first after, bases.keys.filter isBaseName = before ++ first :: after ∧
        (∀ name ∈ before, ∃ definition,
          ((new bases locale).expand name).1.outcome = .ok definition) ∧
        ((new bases locale).expand first).1.outcome = .error failure := by
  refine ⟨fun name hname => ⟨fun failure => outcome_expand_eq_error_iff hname locale,
    exists_outcome_expand_iff hname locale⟩, fun expanded => ?_, fun failure =>
    expandNames_eq_error_iff (valid_new bases locale) (complete_new bases locale) rfl⟩
  simp only [outcome_expand_new_eq_ok_iff]
  exact expandAll_eq_ok_iff bases locale

end Expander

end Pedigree
