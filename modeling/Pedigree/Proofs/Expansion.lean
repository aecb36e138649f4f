import Mathlib.Data.List.Forall2
import Pedigree.Expander
import Pedigree.Proofs.BaseChain

/-!
# What an expander knows

In every state that an expander reaches the marked names are those of its chain, and each
remembered definition is what a chain of bases amounts to (`Expander.Valid`). A call keeps
this, whatever its outcome, and what it returns is the stack of the localized definitions
of a chain (`Valid.expand_answers`). It succeeds if the name has a chain of bases of which
no name is being expanded (`exists_expand_of_baseChain`).

`expandAll_eq_ok_iff` carries this over to the loop over all bases.
-/

namespace Pedigree

/-! ## One entry for each -/

namespace Entries

variable {κ α β : Type} {key : β → κ} {R : β → α → Prop} {things : List β}

/-- One entry for each thing, in order, with its key and a value related to it. -/
def Lists (key : β → κ) (R : β → α → Prop) (things : List β) (entries : Entries κ α) : Prop :=
  List.Forall₂ (fun thing entry => entry.1 = key thing ∧ R thing entry.2) things entries

theorem lists_cons_iff {thing : β} {entries : Entries κ α} :
    Lists key R (thing :: things) entries ↔
      ∃ value rest, R thing value ∧ Lists key R things rest ∧
        entries = (key thing, value) :: rest := by
  unfold Lists
  rw [List.forall₂_cons_left_iff]
  constructor
  · rintro ⟨⟨k, value⟩, rest, ⟨rfl, hR⟩, hrest, rfl⟩
    exact ⟨value, rest, hR, hrest, rfl⟩
  · rintro ⟨value, rest, hR, hrest, rfl⟩
    exact ⟨_, rest, ⟨rfl, hR⟩, hrest, rfl⟩

/-- One more thing adds one entry after the old ones. -/
theorem append_lists_cons_iff {thing : β} {old result : Entries κ α} :
    (∃ new, result = old ++ new ∧ Lists key R (thing :: things) new) ↔
      ∃ value, R thing value ∧
        ∃ new, result = old ++ [(key thing, value)] ++ new ∧ Lists key R things new := by
  constructor
  · rintro ⟨_, hresult, hlists⟩
    obtain ⟨value, new, hR, hnew, rfl⟩ := lists_cons_iff.1 hlists
    exact ⟨value, hR, new, by simp [hresult], hnew⟩
  · rintro ⟨value, hR, new, hresult, hnew⟩
    exact ⟨_, by simp [hresult], lists_cons_iff.2 ⟨value, new, hR, hnew, rfl⟩⟩

theorem Lists.exists_value {entries : Entries κ α} (h : Lists key R things entries) {thing : β}
    (hmem : thing ∈ things) : ∃ value, R thing value ∧ (key thing, value) ∈ entries := by
  induction things generalizing entries with
  | nil => simp at hmem
  | cons first things ih =>
    obtain ⟨value, rest, hR, hrest, rfl⟩ := lists_cons_iff.1 h
    rcases List.mem_cons.1 hmem with rfl | hmem
    · exact ⟨value, hR, List.mem_cons_self ..⟩
    · obtain ⟨value', hR', hmem'⟩ := ih hrest hmem
      exact ⟨value', hR', List.mem_cons_of_mem _ hmem'⟩

theorem Lists.exists_thing {entries : Entries κ α} (h : Lists key R things entries) {k : κ}
    {value : α} (hmem : (k, value) ∈ entries) :
    ∃ thing ∈ things, key thing = k ∧ R thing value := by
  induction things generalizing entries with
  | nil => cases h; simp at hmem
  | cons first things ih =>
    obtain ⟨value', rest, hR, hrest, rfl⟩ := lists_cons_iff.1 h
    rcases List.mem_cons.1 hmem with hmem | hmem
    · cases hmem
      exact ⟨first, List.mem_cons_self .., rfl, hR⟩
    · obtain ⟨thing, hthing, hkey, hR'⟩ := ih hrest hmem
      exact ⟨thing, List.mem_cons_of_mem _ hthing, hkey, hR'⟩

theorem Lists.keys_eq {entries : Entries κ α} (h : Lists key R things entries) :
    keys entries = things.map key := by
  induction h with
  | nil => rfl
  | cons hentry _ ih => exact congrArg₂ List.cons hentry.1 ih

theorem lists_map {f : β → α} (h : ∀ thing ∈ things, R thing (f thing)) :
    Lists key R things (things.map fun thing => (key thing, f thing)) := by
  induction things with
  | nil => exact .nil
  | cons thing things ih =>
    exact .cons ⟨rfl, h thing (by simp)⟩ (ih fun other hother => h other (by simp [hother]))

theorem exists_lists [DecidableEq κ] (hkeys : (things.map key).Nodup)
    (h : ∀ thing ∈ things, ∃ value, R thing value) :
    ∃ m : OrderedMap κ α, Lists key R things m.entries := by
  suffices hentries : ∃ entries : Entries κ α, Lists key R things entries by
    obtain ⟨entries, hlists⟩ := hentries
    exact ⟨⟨entries, hlists.keys_eq ▸ hkeys⟩, hlists⟩
  clear hkeys
  induction things with
  | nil => exact ⟨[], .nil⟩
  | cons thing things ih =>
    obtain ⟨value, hR⟩ := h thing (by simp)
    obtain ⟨rest, hrest⟩ := ih fun other hother => h other (by simp [hother])
    exact ⟨_, lists_cons_iff.2 ⟨value, rest, hR, hrest, rfl⟩⟩

end Entries

/-! ## Single calls -/

namespace Collection

/-- The definition is what the chain of bases of a name amounts to. -/
def Expands (bases : Collection) (locale : Option String) (name : String)
    (definition : Definition) : Prop :=
  ∃ chain, bases.BaseChain name chain ∧ definition = bases.inherited locale chain

@[simp] theorem outcome_localize (collection : Collection) (locale : Option String)
    (name : String) (definition : Definition) :
    (collection.localize locale name definition).outcome =
      .ok (collection.localized locale name definition) := by
  unfold localize
  split <;> rfl

theorem Expands.unique {bases : Collection} {locale : Option String} {name : String}
    {definition other : Definition} (h : bases.Expands locale name definition)
    (h' : bases.Expands locale name other) : definition = other := by
  obtain ⟨chain, hchain, rfl⟩ := h
  obtain ⟨chain', hchain', rfl⟩ := h'
  rw [hchain.unique hchain']

end Collection

namespace Expander

/-- The state of an expander between two calls. -/
structure Valid (e : Expander) : Prop where
  /-- The marked names are those of the chain. -/
  marked : ∀ name, e.memo.get? name = some .inProgress ↔ name ∈ e.chain
  distinct : e.chain.Nodup
  /-- Only bases are expanded. -/
  known : ∀ name ∈ e.chain, name ∈ e.bases.keys
  done : ∀ name definition, e.memo.get? name = some (.done definition) →
    e.bases.Expands e.locale name definition

theorem valid_new (bases : Collection) (locale : Option String) : (new bases locale).Valid where
  marked name := by simp [new, OrderedMap.get?, OrderedMap.empty]
  distinct := List.nodup_nil
  known name h := by simp [new] at h
  done name definition h := by simp [new, OrderedMap.get?, OrderedMap.empty] at h

variable {e : Expander} {name : String}

theorem Valid.enter (h : e.Valid) (hmemo : e.memo.get? name = none)
    (hbase : name ∈ e.bases.keys) : (e.enter name).Valid where
  marked other := by
    by_cases hother : other = name
    · subst hother
      simp [Expander.enter]
    · simp [Expander.enter, OrderedMap.get?_insert_of_ne hother, h.marked, hother]
  distinct := by
    have hnot : name ∉ e.chain := by
      rw [← h.marked, hmemo]
      simp
    simpa [Expander.enter] using List.Nodup.concat hnot h.distinct
  known other hother := by
    rcases List.mem_append.1 hother with hother | hother
    · exact h.known other hother
    · exact List.mem_singleton.1 hother ▸ hbase
  done other definition hdone := by
    by_cases hother : other = name
    · subst hother
      simp [Expander.enter] at hdone
    · exact h.done other definition (by
        simpa [Expander.enter, OrderedMap.get?_insert_of_ne hother] using hdone)

theorem Valid.leave {chain : List String} {definition : Definition} (h : e.Valid)
    (hchain : e.chain = chain ++ [name]) (hdone : e.bases.Expands e.locale name definition) :
    (e.leave name definition).Valid where
  marked other := by
    have hdistinct := h.distinct
    rw [hchain, List.nodup_append] at hdistinct
    by_cases hother : other = name
    · subst hother
      have hnot : other ∉ chain := fun hmem => hdistinct.2.2 other hmem other (by simp) rfl
      simp [Expander.leave, hchain, hnot]
    · have hmarked := h.marked other
      simp [Expander.leave, OrderedMap.get?_insert_of_ne hother, hmarked, hchain, hother]
  distinct := List.Sublist.nodup (List.dropLast_sublist _) h.distinct
  known other hother := h.known other (List.dropLast_subset _ hother)
  done other old hold := by
    by_cases hother : other = name
    · subst hother
      have : definition = old := by simpa [Expander.leave] using hold
      exact this ▸ hdone
    · exact h.done other old (by
        simpa [Expander.leave, OrderedMap.get?_insert_of_ne hother] using hold)

@[simp] theorem outcome_finish (e : Expander) (name : String) (definition parent : Definition) :
    (e.finish name definition parent).1.outcome =
      .ok (parent.merge (e.bases.localized e.locale name definition)) := by
  unfold finish
  simp only [Logged.outcome_bind, Collection.outcome_localize, Logged.outcome_say]
  rfl

@[simp] theorem snd_finish (e : Expander) (name : String) (definition parent : Definition) :
    (e.finish name definition parent).2 =
      e.leave name (parent.merge (e.bases.localized e.locale name definition)) := rfl

/-- The state after a call, and what a result means. -/
structure Answers (e : Expander) (name : String) (answer : Logged Failure Definition × Expander) :
    Prop where
  valid : answer.2.Valid
  bases : answer.2.bases = e.bases
  locale : answer.2.locale = e.locale
  /-- A call that succeeds leaves the chain as it was. -/
  chain : ∀ definition, answer.1.outcome = .ok definition → answer.2.chain = e.chain
  expands : ∀ definition, answer.1.outcome = .ok definition →
    e.bases.Expands e.locale name definition

theorem Answers.of_error {failure : Failure} {log : List LogLine} {after : Expander}
    (hvalid : after.Valid) (hbases : after.bases = e.bases) (hlocale : after.locale = e.locale) :
    e.Answers name (⟨.error failure, log⟩, after) where
  valid := hvalid
  bases := hbases
  locale := hlocale
  chain _ h := by cases h
  expands _ h := by cases h

/-- Finishing a name that was entered, with the expansion of its base at hand. -/
theorem Answers.of_finish {inner : Expander} {definition parent : Definition}
    {log : List LogLine} (hvalid : inner.Valid) (hbases : inner.bases = e.bases)
    (hlocale : inner.locale = e.locale) (hchain : inner.chain = e.chain ++ [name])
    (hexpands : e.bases.Expands e.locale name
      (parent.merge (e.bases.localized e.locale name definition))) :
    e.Answers name
      (⟨(inner.finish name definition parent).1.outcome, log⟩,
        (inner.finish name definition parent).2) where
  valid := by
    rw [← hbases, ← hlocale] at hexpands
    exact hvalid.leave hchain hexpands
  bases := hbases
  locale := hlocale
  chain _ _ := by simp [leave, hchain]
  expands other hother := by
    rw [outcome_finish, hbases, hlocale] at hother
    exact Except.ok.inj hother ▸ hexpands

/-- A call keeps an expander valid, and what it returns is the stack of a chain of bases. -/
theorem Valid.expand_answers (h : e.Valid) (name : String) :
    e.Answers name (e.expand name) := by
  fun_induction expand e name with
  | case1 e name definition hmemo =>
    refine ⟨h, rfl, rfl, fun _ _ => rfl, ?_⟩
    intro other hother
    exact Except.ok.inj hother ▸ h.done name definition hmemo
  | case2 e name hmemo => exact .of_error h rfl rfl
  | case3 e name hmemo hget => exact .of_error h rfl rfl
  | case4 e name hmemo definition hget failure href =>
    exact .of_error (h.enter hmemo (OrderedMap.mem_keys_of_get? hget)) rfl rfl
  | case5 e definition hmemo hget href =>
    refine .of_finish (h.enter hmemo (OrderedMap.mem_keys_of_get? hget)) rfl rfl rfl ?_
    have hroot := Definition.baseReference_eq_none_iff.1 href
    exact ⟨_, .root hget hroot, rfl⟩
  | case6 e name hmemo definition hget href hname =>
    exact .of_error (h.enter hmemo (OrderedMap.mem_keys_of_get? hget)) rfl rfl
  | case7 e name hmemo definition hget base href hbase failure log inner hinner ih =>
    have hanswers := ih (h.enter hmemo (OrderedMap.mem_keys_of_get? hget))
    rw [hinner] at hanswers
    exact .of_error hanswers.valid hanswers.bases hanswers.locale
  | case8 e name hmemo definition hget base href hbase parent log inner hinner result after
      hfinish ih =>
    have hanswers := ih (h.enter hmemo (OrderedMap.mem_keys_of_get? hget))
    rw [hinner] at hanswers
    obtain ⟨chain, hchain, hparent⟩ := hanswers.expands parent rfl
    have hstep : e.bases.BaseChain name (chain ++ [(name, definition)]) :=
      .step hget (Definition.baseReference_eq_some_iff.1 href) (by simp_all) hchain
    have hexpands : e.bases.Expands e.locale name
        (parent.merge (e.bases.localized e.locale name definition)) :=
      ⟨_, hstep, hparent ▸ (Collection.inherited_concat ..).symm⟩
    have hfinal : e.Answers name
        (⟨(inner.finish name definition parent).1.outcome, log ++ result.log⟩,
          (inner.finish name definition parent).2) :=
      .of_finish hanswers.valid hanswers.bases hanswers.locale (hanswers.chain _ rfl) hexpands
    rwa [hfinish] at hfinal
  | case9 e name hmemo definition hget base href hbase =>
    exact .of_error (h.enter hmemo (OrderedMap.mem_keys_of_get? hget)) rfl rfl

/-- A name with a chain of bases expands, unless a name of the chain is being expanded. -/
theorem exists_expand_of_baseChain (h : e.Valid) {chain : Entries String Definition}
    (hchain : e.bases.BaseChain name chain) (hfree : ∀ n ∈ Entries.keys chain, n ∉ e.chain) :
    ∃ definition, (e.expand name).1.outcome = .ok definition := by
  fun_induction expand e name generalizing chain with
  | case1 e name definition hmemo => exact ⟨definition, rfl⟩
  | case2 e name hmemo => exact absurd ((h.marked name).1 hmemo) (hfree name hchain.mem_keys_chain)
  | case3 e name hmemo hget => exact absurd hchain.mem_keys (OrderedMap.get?_eq_none_iff.1 hget)
  | case4 e name hmemo definition hget failure href =>
    rcases hchain.root_or_step hget with ⟨-, hnone⟩ | ⟨base, upper, hsome, -⟩ <;> simp_all
  | case5 e definition hmemo hget href => exact ⟨_, outcome_finish ..⟩
  | case6 e name hmemo definition hget href hname =>
    rcases hchain.root_or_step hget with ⟨hdefault, -⟩ | ⟨base, upper, hsome, -⟩ <;> simp_all
  | case7 e name hmemo definition hget base href hbase failure log inner hinner ih =>
    rcases hchain.root_or_step hget with ⟨-, hnone⟩ | ⟨base', upper, hsome, -, hupper, rfl⟩
    · simp_all
    · obtain rfl : base = base' := by simp_all
      -- Names above `name` are free once `name` is entered : the chain holds no name twice.
      have hfree' : ∀ n ∈ Entries.keys upper, n ∉ (e.enter name).chain := by
        intro n hn hmem
        rcases List.mem_append.1 hmem with hmem | hmem
        · exact hfree n (by simp [hn]) hmem
        · exact hchain.not_mem_of_step hupper (List.mem_singleton.1 hmem ▸ hn)
      obtain ⟨parent, hparent⟩ := ih (h.enter hmemo hchain.mem_keys) hupper hfree'
      simp [hinner] at hparent
  | case8 e name hmemo definition hget base href hbase parent log inner hinner result after
      hfinish ih =>
    have hresult : result = (inner.finish name definition parent).1 := by rw [hfinish]
    exact ⟨_, hresult ▸ outcome_finish ..⟩
  | case9 e name hmemo definition hget base href hbase =>
    rcases hchain.root_or_step hget with ⟨-, hnone⟩ | ⟨base', upper, hsome, hname, hupper, -⟩
    · simp_all
    · obtain rfl : base = base' := by simp_all
      exact absurd hupper.mem_keys (by simp_all [← OrderedMap.contains_iff])

/-! ## The loop over all bases -/

/-- Expanding names one after the other succeeds if all of them that may be bases have a chain,
and adds their expansions in order. -/
theorem expandNames_eq_ok_iff (h : e.Valid) (hchain : e.chain = []) {names : List String}
    (hnames : names.Nodup) {expanded result : Collection} (hnew : ∀ n ∈ names, n ∉ expanded.keys) :
    (e.expandNames expanded names).outcome = .ok result ↔
      ∃ new, result.entries = expanded.entries ++ new ∧
        Entries.Lists id (e.bases.Expands e.locale) (names.filter isBaseName) new := by
  induction names generalizing e expanded with
  | nil => simp [expandNames, Logged.done, Entries.Lists, OrderedMap.ext_iff, eq_comm]
  | cons name rest ih =>
    rw [List.nodup_cons] at hnames
    have hrest : ∀ n ∈ rest, n ∉ expanded.keys := fun n hn => hnew n (List.mem_cons_of_mem _ hn)
    rw [expandNames]
    by_cases hname : isBaseName name = true
    · have hanswers := h.expand_answers name
      have hcomplete := fun chain (hc : e.bases.BaseChain name chain) =>
        exists_expand_of_baseChain h hc (by simp [hchain])
      cases hexpand : e.expand name with
      | mk answer after =>
        rw [hexpand] at hanswers hcomplete
        simp only [Collection.isOverlay_eq_false_of_isBaseName _ hname, hname, if_true,
          Bool.false_eq_true, if_false, Logged.outcome_bind, List.filter_cons_of_pos,
          Entries.append_lists_cons_iff, id]
        cases hanswer : answer.outcome with
        | error failure =>
          refine ⟨fun hok => (by cases hok), ?_⟩
          rintro ⟨_, ⟨chain, hc, -⟩, -⟩
          obtain ⟨definition, hok⟩ := hcomplete chain hc
          exact absurd (hanswer.symm.trans hok) (by simp)
        | ok definition =>
          have hexpands := hanswers.expands definition hanswer
          have hrest' : ∀ n ∈ rest, n ∉ (expanded.insert name definition).keys := fun n hn => by
            have hne : n ≠ name := fun heq => hnames.1 (heq ▸ hn)
            exact (OrderedMap.not_mem_keys_insert_of_ne hne definition).2 (hrest n hn)
          change (after.expandNames (expanded.insert name definition) rest).outcome = _ ↔ _
          rw [ih hanswers.valid ((hanswers.chain _ hanswer).trans hchain) hnames.2 hrest',
            OrderedMap.entries_insert_of_not_mem _ (hnew name (List.mem_cons_self ..)),
            hanswers.bases, hanswers.locale]
          exact ⟨fun hok => ⟨definition, hexpands, hok⟩,
            fun ⟨other, hother, hok⟩ => hother.unique hexpands ▸ hok⟩
    · simp only [hname, if_false, Bool.false_eq_true, not_false_eq_true, List.filter_cons_of_neg]
      split
      · exact ih h hchain hnames.2 hrest
      · rw [Logged.outcome_bind, Logged.outcome_say]
        exact ih h hchain hnames.2 hrest

/-- Expanding all bases succeeds if every name that a base may have has a chain of bases, and
gives the expansions of exactly these names, in source order. -/
theorem expandAll_eq_ok_iff (bases : Collection) (locale : Option String) {expanded : Collection} :
    ((new bases locale).expandAll).outcome = .ok expanded ↔
      Entries.Lists id (bases.Expands locale) (bases.keys.filter isBaseName) expanded.entries := by
  have hempty : ∀ n ∈ bases.keys, n ∉ (OrderedMap.empty : Collection).keys := fun n _ => by
    simp [OrderedMap.keys, OrderedMap.empty]
  refine (expandNames_eq_ok_iff (valid_new bases locale) rfl bases.distinct hempty).trans ?_
  constructor
  · rintro ⟨new, hentries, hnew⟩
    rwa [hentries]
  · exact fun hnew => ⟨_, rfl, hnew⟩

/-- What a look-up among the expanded bases finds. -/
theorem get?_expanded_iff {bases expanded : Collection} {locale : Option String}
    (h : Entries.Lists id (bases.Expands locale) (bases.keys.filter isBaseName) expanded.entries)
    {name : String} {definition : Definition} :
    expanded.get? name = some definition ↔
      isBaseName name = true ∧ bases.Expands locale name definition := by
  constructor
  · intro hget
    obtain ⟨n, hn, rfl, hexpands⟩ := h.exists_thing (Entries.mem_of_get? hget)
    exact ⟨(List.mem_filter.1 hn).2, hexpands⟩
  · rintro ⟨hname, chain, hchain, hdefinition⟩
    obtain ⟨other, hother, hmem⟩ := h.exists_value (List.mem_filter.2 ⟨hchain.mem_keys, hname⟩)
    obtain rfl := hother.unique ⟨chain, hchain, hdefinition⟩
    exact OrderedMap.get?_of_mem hmem

/-- All bases expand if and only if every name that a base may have has a chain of bases. -/
theorem exists_expandAll_iff (bases : Collection) (locale : Option String) :
    (∃ expanded, ((new bases locale).expandAll).outcome = .ok expanded) ↔
      ∀ name ∈ bases.keys, isBaseName name = true → ∃ chain, bases.BaseChain name chain := by
  simp only [expandAll_eq_ok_iff]
  constructor
  · rintro ⟨expanded, h⟩ name hmem hname
    obtain ⟨definition, ⟨chain, hchain, -⟩, -⟩ := h.exists_value (List.mem_filter.2 ⟨hmem, hname⟩)
    exact ⟨chain, hchain⟩
  · intro h
    have hkeys : ((bases.keys.filter isBaseName).map id).Nodup := by
      rw [List.map_id]
      exact List.Nodup.filter _ bases.distinct
    refine Entries.exists_lists hkeys fun name hname => ?_
    obtain ⟨hmem, hbase⟩ := List.mem_filter.1 hname
    obtain ⟨chain, hchain⟩ := h name hmem hbase
    exact ⟨_, chain, hchain, rfl⟩

end Expander

end Pedigree
