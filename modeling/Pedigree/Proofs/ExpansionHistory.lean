import Pedigree.Proofs.Expansion

/-!
# Calls on one expander

An expander lives on after a call, also after one that failed : its marks, its chain and its
memo stay (`Expander.after`). Every state it reaches is valid, so what a later call returns is
what a new expander returns (`Valid.expand_new_of_expand`). A memo holds with a name all its
ancestors (`Complete`), so two valid states with the same chain answer alike, failures
included (`outcome_expand_eq`). While no call fails the chain is empty between the calls,
as it is in a new expander.
-/

namespace Pedigree.Expander

variable {e other : Expander} {name : String}

/-! ## Calls in turn -/

/-- The state after calls in turn, whatever they answer. -/
def after (e : Expander) (names : List String) : Expander :=
  names.foldl (fun e name => (e.expand name).2) e

/-- Each of the calls in turn succeeds. -/
def Succeeds (e : Expander) : List String → Prop
  | [] => True
  | name :: rest =>
    (∃ definition, (e.expand name).1.outcome = .ok definition) ∧ Succeeds (e.expand name).2 rest

/-- A property that each call keeps holds after calls in turn. -/
theorem after_induction {P : Expander → Prop} (step : ∀ e name, P e → P (e.expand name).2)
    (names : List String) (h : P e) : P (e.after names) := by
  induction names generalizing e with
  | nil => exact h
  | cons name rest ih => exact ih (step e name h)

/-- Only bases and locale never change. -/
theorem bases_locale_after (h : e.Valid) (names : List String) :
    (e.after names).Valid ∧ (e.after names).bases = e.bases ∧
      (e.after names).locale = e.locale := by
  refine after_induction (P := fun s => s.Valid ∧ s.bases = e.bases ∧ s.locale = e.locale) ?_
    names ⟨h, rfl, rfl⟩
  rintro s name ⟨hvalid, hbases, hlocale⟩
  have hanswers := hvalid.expand_answers name
  exact ⟨hanswers.valid, hanswers.bases.trans hbases, hanswers.locale.trans hlocale⟩

/-- Calls that all succeed leave the chain as it was. -/
theorem chain_after (h : e.Valid) {names : List String} (hsucceeds : e.Succeeds names) :
    (e.after names).chain = e.chain := by
  induction names generalizing e with
  | nil => rfl
  | cons name rest ih =>
    obtain ⟨⟨definition, hok⟩, hrest⟩ := hsucceeds
    have hanswers := h.expand_answers name
    exact (ih hanswers.valid hrest).trans (hanswers.chain definition hok)

/-! ## Steps of a call -/

theorem expand_of_done {definition : Definition}
    (h : e.memo.get? name = some (.done definition)) :
    e.expand name = (.done definition, e) := by
  rw [expand]
  split <;> simp_all

theorem expand_of_inProgress (h : e.memo.get? name = some .inProgress) :
    e.expand name = (.fail (.baseCycle (e.cycle name)), e) := by
  rw [expand]
  split <;> simp_all

theorem expand_of_unknown (hmemo : e.memo.get? name = none) (hbase : e.bases.get? name = none) :
    e.expand name = (.fail (.unknownBase (e.chain.getLast?.getD name) name), e) := by
  rw [expand]
  split
  · simp_all
  · simp_all
  · split <;> simp_all

/-- A base that the memo knows nothing of is entered, and finished once its own base is expanded. -/
theorem expand_of_unmarked {definition : Definition} (hmemo : e.memo.get? name = none)
    (hbase : e.bases.get? name = some definition) :
    e.expand name =
      match Definition.baseReference name definition with
      | .error failure => (.fail failure, e.enter name)
      | .ok none =>
        if name = defaultBase then (e.enter name).finish name definition []
        else (.fail (.missingBase name), e.enter name)
      | .ok (some base) =>
        if isBaseName base && e.bases.contains base then
          match (e.enter name).expand base with
          | (⟨.error failure, log⟩, inner) => (⟨.error failure, log⟩, inner)
          | (⟨.ok parent, log⟩, inner) =>
            (⟨(inner.finish name definition parent).1.outcome,
              log ++ (inner.finish name definition parent).1.log⟩,
              (inner.finish name definition parent).2)
        else (.fail (.unknownBase name base), e.enter name) := by
  rw [expand]
  split
  · simp_all
  · simp_all
  · split
    · simp_all
    · rename_i found hfound
      obtain rfl : found = definition := Option.some.inj (hfound.symm.trans hbase)
      rfl

/-- What a call answers for a base that the memo knows nothing of. -/
theorem outcome_expand_of_unmarked (h : e.Valid) {definition : Definition}
    (hmemo : e.memo.get? name = none) (hbase : e.bases.get? name = some definition) :
    (e.expand name).1.outcome =
      match Definition.baseReference name definition with
      | .error failure => .error failure
      | .ok none =>
        if name = defaultBase then
          .ok (Definition.merge [] (e.bases.localized e.locale name definition))
        else .error (.missingBase name)
      | .ok (some base) =>
        if isBaseName base && e.bases.contains base then
          ((e.enter name).expand base).1.outcome.map fun parent =>
            Definition.merge parent (e.bases.localized e.locale name definition)
        else .error (.unknownBase name base) := by
  have henter := h.enter hmemo (OrderedMap.mem_keys_of_get? hbase)
  rw [expand_of_unmarked hmemo hbase]
  rcases Definition.baseReference name definition with failure | _ | base
  · rfl
  · dsimp only
    split
    · exact outcome_finish ..
    · rfl
  · dsimp only
    split
    · have hanswers := henter.expand_answers base
      rcases hinner : (e.enter name).expand base with ⟨⟨_ | parent, log⟩, inner⟩
      · rfl
      · rw [hinner] at hanswers
        have hbases : inner.bases = e.bases := hanswers.bases
        have hlocale : inner.locale = e.locale := hanswers.locale
        simp only [outcome_finish, hbases, hlocale]
        rfl
    · rfl

/-- A call that succeeds leaves the name in the memo. -/
theorem get?_memo_of_expand {definition : Definition}
    (h : (e.expand name).1.outcome = .ok definition) :
    (e.expand name).2.memo.get? name = some (.done definition) := by
  revert h
  fun_cases expand e name with
  | case1 found hdone => exact fun h => Except.ok.inj h ▸ hdone
  | case5 _ found hfound href hroot =>
    intro h
    rw [outcome_finish] at h
    exact Except.ok.inj h ▸ OrderedMap.get?_insert_self ..
  | case8 _ found hfound base href hknown parent log inner hinner result after hfinish =>
    intro h
    have hresult : result = (inner.finish name found parent).1 := by rw [hfinish]
    have hafter : after = (inner.finish name found parent).2 := by rw [hfinish]
    rw [hresult, outcome_finish] at h
    rw [hafter, ← Except.ok.inj h]
    exact OrderedMap.get?_insert_self ..
  | _ => exact fun h => (by cases h)

/-! ## Ancestors of what the memo holds -/

/-- The memo holds with a name every name on its chain of bases. -/
def Complete (e : Expander) : Prop :=
  ∀ name definition chain, e.memo.get? name = some (.done definition) →
    e.bases.BaseChain name chain → ∀ ancestor ∈ Entries.keys chain,
      ∃ expanded, e.memo.get? ancestor = some (.done expanded)

theorem complete_new (bases : Collection) (locale : Option String) :
    (new bases locale).Complete := by
  intro name definition chain hdone
  simp [new, OrderedMap.get?, OrderedMap.empty] at hdone

theorem Complete.enter (h : e.Complete) (hmemo : e.memo.get? name = none) :
    (e.enter name).Complete := by
  intro done definition chain hdone hchain ancestor hancestor
  have hne : done ≠ name := by
    rintro rfl
    simp [Expander.enter] at hdone
  have hold : e.memo.get? done = some (.done definition) := by
    simpa [Expander.enter, OrderedMap.get?_insert_of_ne hne] using hdone
  obtain ⟨expanded, hexpanded⟩ := h done definition chain hold hchain ancestor hancestor
  have hother : ancestor ≠ name := by
    rintro rfl
    rw [hmemo] at hexpanded
    cases hexpanded
  exact ⟨expanded, by simpa [Expander.enter, OrderedMap.get?_insert_of_ne hother] using hexpanded⟩

/-- A name may be remembered once the names above it are. -/
theorem Complete.leave (h : e.Complete) (definition : Definition)
    (habove : ∀ chain, e.bases.BaseChain name chain → ∀ ancestor ∈ Entries.keys chain,
      ancestor ≠ name → ∃ expanded, e.memo.get? ancestor = some (.done expanded)) :
    (e.leave name definition).Complete := by
  have hkept : ∀ ancestor, (ancestor ≠ name →
      ∃ expanded, e.memo.get? ancestor = some (.done expanded)) →
        ∃ expanded, (e.leave name definition).memo.get? ancestor = some (.done expanded) := by
    intro ancestor hancestor
    by_cases hname : ancestor = name
    · subst hname
      exact ⟨definition, OrderedMap.get?_insert_self ..⟩
    · obtain ⟨expanded, hexpanded⟩ := hancestor hname
      exact ⟨expanded, (OrderedMap.get?_insert_of_ne hname ..).trans hexpanded⟩
  intro done old chain hdone hchain ancestor hancestor
  refine hkept ancestor fun hne => ?_
  by_cases hname : done = name
  · subst hname
    exact habove chain hchain ancestor hancestor hne
  · have hold : e.memo.get? done = some (.done old) :=
      (OrderedMap.get?_insert_of_ne hname ..).symm.trans hdone
    exact h done old chain hold hchain ancestor hancestor

theorem Complete.expand (hvalid : e.Valid) (h : e.Complete) (name : String) :
    (e.expand name).2.Complete := by
  fun_induction Expander.expand e name with
  | case1 e name definition hmemo => exact h
  | case2 e name hmemo => exact h
  | case3 e name hmemo hget => exact h
  | case4 e name hmemo definition hget failure href => exact h.enter hmemo
  | case5 e definition hmemo hget href =>
    refine (h.enter hmemo).leave _ fun chain hchain ancestor hancestor hne => ?_
    cases hchain with
    | root => exact absurd (by simpa using hancestor) hne
    | step hget' hbase' =>
      obtain rfl := Option.some.inj (hget'.symm.trans hget)
      rw [Definition.baseReference_eq_some_iff.2 hbase'] at href
      cases href
  | case6 e name hmemo definition hget href hname => exact h.enter hmemo
  | case7 e name hmemo definition hget base href hbase failure log inner hinner ih =>
    have hcomplete := ih (hvalid.enter hmemo (OrderedMap.mem_keys_of_get? hget)) (h.enter hmemo)
    rwa [hinner] at hcomplete
  | case8 e name hmemo definition hget base href hbase parent log inner hinner result after
      hfinish ih =>
    have henter := hvalid.enter hmemo (OrderedMap.mem_keys_of_get? hget)
    have hcomplete := ih henter (h.enter hmemo)
    have hbases : inner.bases = e.bases := by
      have := (henter.expand_answers base).bases
      rwa [hinner] at this
    have hparent : inner.memo.get? base = some (.done parent) := by
      have hok : ((e.enter name).expand base).1.outcome = .ok parent := by rw [hinner]
      have := get?_memo_of_expand hok
      rwa [hinner] at this
    rw [hinner] at hcomplete
    have hafter : after = (inner.finish name definition parent).2 := by rw [hfinish]
    rw [hafter, snd_finish]
    refine hcomplete.leave _ fun chain hchain ancestor hancestor hne => ?_
    rw [hbases] at hchain
    rcases hchain.root_or_step hget with ⟨-, hnone⟩ | ⟨base', upper, hsome, -, hupper, rfl⟩
    · simp_all
    · obtain rfl : base = base' := by simp_all
      have hmem : ancestor ∈ Entries.keys upper := by simpa [hne] using hancestor
      exact hcomplete base parent upper hparent (hbases ▸ hupper) ancestor hmem
  | case9 e name hmemo definition hget base href hbase => exact h.enter hmemo

/-! ## Two expanders over the same bases -/

/-- Two expanders over the same bases, in the middle of the same chain. -/
structure Alike (e other : Expander) : Prop where
  bases : other.bases = e.bases
  locale : other.locale = e.locale
  chain : other.chain = e.chain

theorem Alike.symm (h : e.Alike other) : other.Alike e :=
  ⟨h.bases.symm, h.locale.symm, h.chain.symm⟩

theorem Alike.enter (h : e.Alike other) (name : String) :
    (e.enter name).Alike (other.enter name) :=
  ⟨h.bases, h.locale, by simp [Expander.enter, h.chain]⟩

/-- What one expander remembers the other one finds out. -/
theorem Alike.expand_of_done (halike : e.Alike other) (h : e.Valid) (hcomplete : e.Complete)
    (hother : other.Valid) {definition : Definition}
    (hdone : e.memo.get? name = some (.done definition)) :
    (other.expand name).1.outcome = .ok definition := by
  obtain ⟨chain, hchain, heq⟩ := h.done name definition hdone
  have hfree : ∀ n ∈ Entries.keys chain, n ∉ other.chain := by
    intro n hn hmarked
    obtain ⟨expanded, hexpanded⟩ := hcomplete name definition chain hdone hchain n hn
    rw [halike.chain, ← h.marked, hexpanded] at hmarked
    cases hmarked
  obtain ⟨found, hfound⟩ :=
    exists_expand_of_baseChain hother (halike.bases.symm ▸ hchain) hfree
  have hexpands := (hother.expand_answers name).expands found hfound
  rw [halike.bases, halike.locale] at hexpands
  rw [hfound, hexpands.unique ⟨chain, hchain, heq⟩]

/-- Two valid expanders in the middle of the same chain answer alike. -/
theorem Alike.outcome_expand_eq (halike : e.Alike other) (h : e.Valid) (hcomplete : e.Complete)
    (hother : other.Valid) (hother' : other.Complete) (name : String) :
    (e.expand name).1.outcome = (other.expand name).1.outcome := by
  induction hn : e.unmarked using Nat.strong_induction_on generalizing e other name with
  | h n ih =>
  subst hn
  cases hmemo : e.memo.get? name with
  | some state =>
    cases state with
    | done definition =>
      rw [halike.expand_of_done h hcomplete hother hmemo, Expander.expand_of_done hmemo]
      rfl
    | inProgress =>
      have hmarked : other.memo.get? name = some .inProgress := by
        rw [hother.marked, halike.chain, ← h.marked, hmemo]
      rw [expand_of_inProgress hmemo, expand_of_inProgress hmarked, cycle, cycle, halike.chain]
  | none =>
    cases hmemo' : other.memo.get? name with
    | some state =>
      cases state with
      | done definition =>
        rw [halike.symm.expand_of_done hother hother' h hmemo', Expander.expand_of_done hmemo']
        rfl
      | inProgress =>
        rw [hother.marked, halike.chain, ← h.marked, hmemo] at hmemo'
        cases hmemo'
    | none =>
      cases hbase : e.bases.get? name with
      | none =>
        rw [expand_of_unknown hmemo hbase,
          expand_of_unknown hmemo' (halike.bases ▸ hbase), halike.chain]
      | some definition =>
        have hmem := OrderedMap.mem_keys_of_get? hbase
        have hbase' : other.bases.get? name = some definition := halike.bases ▸ hbase
        have hinner : ∀ base, ((e.enter name).expand base).1.outcome =
            ((other.enter name).expand base).1.outcome := fun base =>
          ih _ (unmarked_enter_lt hmemo hmem) (halike.enter name) (h.enter hmemo hmem)
            (hcomplete.enter hmemo) (hother.enter hmemo' (halike.bases ▸ hmem))
            (hother'.enter hmemo') base rfl
        rw [outcome_expand_of_unmarked h hmemo hbase,
          outcome_expand_of_unmarked hother hmemo' hbase', halike.bases, halike.locale]
        simp only [hinner]

/-! ## Histories -/

/-- What a new expander returns is what the chain of bases amounts to. -/
theorem outcome_expand_new_eq_ok_iff (bases : Collection) (locale : Option String)
    {name : String} {definition : Definition} :
    ((new bases locale).expand name).1.outcome = .ok definition ↔
      bases.Expands locale name definition := by
  have hvalid := valid_new bases locale
  refine ⟨(hvalid.expand_answers name).expands definition, ?_⟩
  intro hexpands
  obtain ⟨chain, hchain, -⟩ := id hexpands
  obtain ⟨found, hfound⟩ := exists_expand_of_baseChain hvalid hchain (by simp [new])
  rw [hfound, ((hvalid.expand_answers name).expands found hfound).unique hexpands]

/-- What a later call returns a new expander returns as well. -/
theorem Valid.expand_new_of_expand (h : e.Valid) {definition : Definition}
    (hok : (e.expand name).1.outcome = .ok definition) :
    ((new e.bases e.locale).expand name).1.outcome = .ok definition :=
  (outcome_expand_new_eq_ok_iff ..).2 ((h.expand_answers name).expands definition hok)

theorem complete_after (h : e.Valid) (hcomplete : e.Complete) (names : List String) :
    (e.after names).Complete := by
  refine (after_induction (P := fun s => s.Valid ∧ s.Complete) ?_ names ⟨h, hcomplete⟩).2
  rintro s name ⟨hvalid, hcomplete⟩
  exact ⟨(hvalid.expand_answers name).valid, hcomplete.expand hvalid name⟩

/-- After any calls on one expander the marked names are those of its chain, and all it remembers
and returns is what a new expander returns. As long as the calls succeed the chain is empty
between them, and every call answers as on a new expander, failures included. -/
theorem expand_after_calls (bases : Collection) (locale : Option String) (names : List String) :
    let e := (new bases locale).after names
    (∀ name, e.memo.get? name = some .inProgress ↔ name ∈ e.chain) ∧ e.chain.Nodup ∧
    (∀ name ∈ e.chain, name ∈ bases.keys) ∧
    (∀ name definition, e.memo.get? name = some (.done definition) →
      bases.Expands locale name definition) ∧
    (∀ name definition, (e.expand name).1.outcome = .ok definition →
      ((new bases locale).expand name).1.outcome = .ok definition) ∧
    ((new bases locale).Succeeds names → ∀ name,
      (e.expand name).1.outcome = ((new bases locale).expand name).1.outcome ∧
      ∀ definition, (e.expand name).1.outcome = .ok definition →
        (e.expand name).2.chain = []) := by
  intro e
  have hnew := valid_new bases locale
  obtain ⟨hvalid, hbases, hlocale⟩ := bases_locale_after hnew names
  refine ⟨hvalid.marked, hvalid.distinct, ?_, ?_, ?_, ?_⟩
  · intro name hname
    have := hvalid.known name hname
    rwa [hbases] at this
  · intro name definition hdone
    have := hvalid.done name definition hdone
    rwa [hbases, hlocale] at this
  · intro name definition hok
    have := hvalid.expand_new_of_expand hok
    rwa [hbases, hlocale] at this
  · intro hsucceeds name
    have hchain : e.chain = [] := chain_after hnew hsucceeds
    have halike : e.Alike (new bases locale) := ⟨hbases.symm, hlocale.symm, hchain.symm⟩
    have hcomplete := complete_new bases locale
    refine ⟨halike.outcome_expand_eq hvalid (complete_after hnew hcomplete names) hnew
      hcomplete name, ?_⟩
    intro definition hok
    exact ((hvalid.expand_answers name).chain definition hok).trans hchain

end Pedigree.Expander
