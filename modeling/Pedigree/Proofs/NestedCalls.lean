import Pedigree.Proofs.ExpansionHistory

/-!
# Calls under way

`expand` calls itself for the base that a definition names. Here the calls that are under way stand
on a stack, and an execution goes on in single steps (`Execution.next`), so that something can be
said about what happens between the beginning of a call and its end. Such an execution comes to the
answer of `expand` and leaves the same expander behind (`runs_expand`), and one that passes over all
bases comes to the outcome of `expandNames` (`runs_expandNames`).

There are only a few kinds of steps (`Step`). A call nests another one after it has marked a base
that had no memo entry, so the bases without one are a bound for the calls that still find room on
the stack (`Step.room_le`), and for the work that is left at all (`Step.work_lt`). A base is merged
while its mark is there, and its expansion takes the place of the mark, so that it is not merged a
second time (`Tracks.step`).
-/

namespace Pedigree.Expander

/-! ## Executions -/

/-- Who waits for the answer of a call. -/
inductive Caller where
  /-- A call for this base, which is to be merged onto the answer. -/
  | base (name : String) (definition : Definition)
  /-- The pass over the bases, with what is expanded so far and the names that are left. -/
  | pass (expanded : Collection) (name : String) (rest : List String)

namespace Caller

/-- The name that the caller was called for itself. -/
def name? : Caller → Option String
  | .base name _ => some name
  | .pass .. => none

/-- The steps that are left once the caller has its answer. -/
def work : Caller → Nat
  | .base .. => 1
  | .pass _ _ rest => 3 * rest.length + 1

theorem work_pos (caller : Caller) : 0 < caller.work := by
  cases caller <;> simp [work]

end Caller

/-- What an execution does next. -/
inductive Control where
  /-- It begins a call. -/
  | call (name : String)
  /-- It hands an answer to the innermost caller. -/
  | answer (outcome : Except Failure Definition)
  /-- It passes on to the first of the names that are left. -/
  | pass (expanded : Collection) (names : List String)

/-- The steps that are left, the callers apart. -/
def Control.work : Control → Nat
  | .call _ => 1
  | .answer _ => 0
  | .pass _ names => 3 * names.length

/-- The memo holds an expansion of this base. -/
def Remembers (e : Expander) (name : String) : Prop :=
  ∃ definition, e.memo.get? name = some (.done definition)

/-- To leave a base takes no memo entry away. -/
theorem unmarked_leave_le (e : Expander) (name : String) (definition : Definition) :
    (e.leave name definition).unmarked ≤ e.unmarked := by
  refine (List.monotone_filter_right _ fun other hother => ?_).length_le
  simp only [Bool.not_eq_true', Bool.eq_false_iff, ne_eq, OrderedMap.contains_iff] at hother ⊢
  intro hmem
  by_cases hname : other = name
  · subst hname
    exact hother (OrderedMap.mem_keys_of_get? (OrderedMap.get?_insert_self ..))
  · exact (OrderedMap.not_mem_keys_insert_of_ne hname _).1 hother hmem

/-- An expander between two steps of its calls. -/
structure Execution where
  expander : Expander
  /-- Those who wait, innermost first. -/
  callers : List Caller
  control : Control

namespace Execution

/-- Begins a call. The definition that needs no base is merged onto nothing. -/
def begin (e : Expander) (callers : List Caller) (name : String) : Execution :=
  match e.memo.get? name with
  | some (.done definition) => ⟨e, callers, .answer (.ok definition)⟩
  | some .inProgress => ⟨e, callers, .answer (.error (.baseCycle (e.cycle name)))⟩
  | none =>
    match e.bases.get? name with
    | none => ⟨e, callers, .answer (.error (.unknownBase (e.chain.getLast?.getD name) name))⟩
    | some definition =>
      match Definition.baseReference name definition with
      | .error failure => ⟨e.enter name, callers, .answer (.error failure)⟩
      | .ok none =>
        if name = defaultBase then
          ⟨e.enter name, .base name definition :: callers, .answer (.ok [])⟩
        else ⟨e.enter name, callers, .answer (.error (.missingBase name))⟩
      | .ok (some base) =>
        if isBaseName base && e.bases.contains base then
          ⟨e.enter name, .base name definition :: callers, .call base⟩
        else ⟨e.enter name, callers, .answer (.error (.unknownBase name base))⟩

/-- Hands an answer to a caller. A failure goes on to the one behind it. -/
def resume (e : Expander) (callers : List Caller) :
    Caller → Except Failure Definition → Execution
  | _, .error failure => ⟨e, callers, .answer (.error failure)⟩
  | .base name definition, .ok parent =>
    match e.finish name definition parent with
    | (result, after) => ⟨after, callers, .answer result.outcome⟩
  | .pass expanded name rest, .ok definition =>
    ⟨e, callers, .pass (expanded.insert name definition) rest⟩

/-- The next step, if there is one. -/
def next (x : Execution) : Option Execution :=
  match x.control, x.callers with
  | .call name, callers => some (begin x.expander callers name)
  | .answer _, [] => none
  | .answer outcome, caller :: callers => some (resume x.expander callers caller outcome)
  | .pass _ [], _ => none
  | .pass expanded (name :: rest), callers =>
    if x.expander.bases.isOverlay name then some ⟨x.expander, callers, .pass expanded rest⟩
    else if isBaseName name then
      some ⟨x.expander, .pass expanded name rest :: callers, .call name⟩
    else some ⟨x.expander, callers, .pass expanded rest⟩

/-- What a step may change. -/
inductive Step : Execution → Execution → Prop where
  /-- A call is answered from the memo, or its name is no base. -/
  | settle {e : Expander} {callers : List Caller} {name : String}
      {outcome : Except Failure Definition} :
      Step ⟨e, callers, .call name⟩ ⟨e, callers, .answer outcome⟩
  /-- A call marks a base and refuses it. -/
  | refuse {e : Expander} {callers : List Caller} {name : String} {failure : Failure}
      (hmemo : e.memo.get? name = none) (hname : name ∈ e.bases.keys) :
      Step ⟨e, callers, .call name⟩ ⟨e.enter name, callers, .answer (.error failure)⟩
  /-- A call marks the base that goes onto nothing. -/
  | root {e : Expander} {callers : List Caller} {name : String} {definition : Definition}
      (hmemo : e.memo.get? name = none) (hname : name ∈ e.bases.keys) :
      Step ⟨e, callers, .call name⟩
        ⟨e.enter name, .base name definition :: callers, .answer (.ok [])⟩
  /-- A call marks a base and nests a call for the base it names. -/
  | nest {e : Expander} {callers : List Caller} {name base : String} {definition : Definition}
      (hmemo : e.memo.get? name = none) (hname : name ∈ e.bases.keys)
      (hbase : base ∈ e.bases.keys) :
      Step ⟨e, callers, .call name⟩
        ⟨e.enter name, .base name definition :: callers, .call base⟩
  /-- A base is merged onto the answer. -/
  | merge {e : Expander} {callers : List Caller} {name : String}
      {definition parent expanded : Definition} :
      Step ⟨e, .base name definition :: callers, .answer (.ok parent)⟩
        ⟨e.leave name expanded, callers, .answer (.ok expanded)⟩
  /-- A failure goes on to the caller behind. -/
  | fail {e : Expander} {caller : Caller} {callers : List Caller} {failure : Failure} :
      Step ⟨e, caller :: callers, .answer (.error failure)⟩
        ⟨e, callers, .answer (.error failure)⟩
  /-- The pass takes an answer. -/
  | collect {e : Expander} {callers : List Caller} {expanded : Collection} {name : String}
      {rest : List String} {definition : Definition} :
      Step ⟨e, .pass expanded name rest :: callers, .answer (.ok definition)⟩
        ⟨e, callers, .pass (expanded.insert name definition) rest⟩
  /-- The pass leaves a name out. -/
  | skip {e : Expander} {callers : List Caller} {expanded : Collection} {name : String}
      {rest : List String} :
      Step ⟨e, callers, .pass expanded (name :: rest)⟩ ⟨e, callers, .pass expanded rest⟩
  /-- The pass calls for a name. -/
  | ask {e : Expander} {callers : List Caller} {expanded : Collection} {name : String}
      {rest : List String} :
      Step ⟨e, callers, .pass expanded (name :: rest)⟩
        ⟨e, .pass expanded name rest :: callers, .call name⟩

variable {x y z : Execution} {e : Expander} {callers : List Caller} {name : String}

theorem step_begin (e : Expander) (callers : List Caller) (name : String) :
    Step ⟨e, callers, .call name⟩ (begin e callers name) := by
  unfold begin
  split
  · exact .settle
  · exact .settle
  · rename_i hmemo
    split
    · exact .settle
    · rename_i definition hget
      have hname := OrderedMap.mem_keys_of_get? hget
      split
      · exact .refuse hmemo hname
      · split
        · exact .root hmemo hname
        · exact .refuse hmemo hname
      · split
        · rename_i base _ hbase
          exact .nest hmemo hname (OrderedMap.contains_iff.1 ((Bool.and_eq_true ..).mp hbase).2)
        · exact .refuse hmemo hname

theorem step_resume (e : Expander) (callers : List Caller) (caller : Caller)
    (outcome : Except Failure Definition) :
    Step ⟨e, caller :: callers, .answer outcome⟩ (resume e callers caller outcome) := by
  cases outcome with
  | error failure => cases caller <;> exact .fail
  | ok parent =>
    cases caller with
    | base name definition =>
      simp only [resume, outcome_finish, snd_finish]
      exact .merge
    | pass expanded name rest => exact .collect

theorem step_of_next (h : x.next = some y) : Step x y := by
  obtain ⟨e, callers, control⟩ := x
  cases control with
  | call name => exact Option.some.inj h ▸ step_begin e callers name
  | answer outcome =>
    cases callers with
    | nil => cases h
    | cons caller callers => exact Option.some.inj h ▸ step_resume e callers caller outcome
  | pass expanded names =>
    cases names with
    | nil => cases h
    | cons name rest =>
      simp only [next] at h
      split at h
      · exact Option.some.inj h ▸ .skip
      · split at h
        · exact Option.some.inj h ▸ .ask
        · exact Option.some.inj h ▸ .skip

/-! ## Runs -/

/-- An execution goes through these states, one step after the other, and comes to the last one. -/
inductive Runs : Execution → List Execution → Execution → Prop where
  | stop (x : Execution) : Runs x [] x
  | step {x y z : Execution} {passed : List Execution} (hnext : x.next = some y)
      (hrest : Runs y passed z) : Runs x (x :: passed) z

/-- A run that ends where no step is left. -/
def Completes (x : Execution) (passed : List Execution) (last : Execution) : Prop :=
  Runs x passed last ∧ last.next = none

variable {passed more : List Execution}

theorem Runs.trans (h : Runs x passed y) (hmore : Runs y more z) :
    Runs x (passed ++ more) z := by
  induction h with
  | stop => exact hmore
  | step hnext _ ih => exact .step hnext (ih hmore)

/-- A property that each step keeps holds throughout a run. -/
theorem Runs.forall {P : Execution → Prop} (hstep : ∀ x y, Step x y → P x → P y)
    (h : Runs x passed z) (hx : P x) : (∀ y ∈ passed, P y) ∧ P z := by
  induction h with
  | stop => exact ⟨List.forall_mem_nil _, hx⟩
  | step hnext _ ih =>
    obtain ⟨hpassed, hz⟩ := ih (hstep _ _ (step_of_next hnext) hx)
    exact ⟨List.forall_mem_cons.2 ⟨hx, hpassed⟩, hz⟩

/-- A call that is answered at once. -/
theorem exists_runs_of_begin {after : Expander} {outcome : Except Failure Definition}
    (h : begin e callers name = ⟨after, callers, .answer outcome⟩) :
    ∃ passed, Runs ⟨e, callers, .call name⟩ passed ⟨after, callers, .answer outcome⟩ :=
  ⟨_, .step (congrArg some h) (.stop _)⟩

/-- A call that nests one for the base its definition names. -/
theorem begin_of_base (callers : List Caller) {base : String} {definition : Definition}
    (hmemo : e.memo.get? name = none) (hget : e.bases.get? name = some definition)
    (href : Definition.baseReference name definition = .ok (some base))
    (hbase : (isBaseName base && e.bases.contains base) = true) :
    begin e callers name = ⟨e.enter name, .base name definition :: callers, .call base⟩ := by
  simp only [begin, hmemo, hget, href, hbase, if_true]

/-- A call comes to the answer of `expand`, whoever waits for it. -/
theorem runs_expand (e : Expander) (callers : List Caller) (name : String) :
    ∃ passed, Runs ⟨e, callers, .call name⟩ passed
      ⟨(e.expand name).2, callers, .answer (e.expand name).1.outcome⟩ := by
  fun_induction expand e name generalizing callers with
  | case1 e name definition hmemo => exact exists_runs_of_begin (by simp only [begin, hmemo]; rfl)
  | case2 e name hmemo => exact exists_runs_of_begin (by simp only [begin, hmemo]; rfl)
  | case3 e name hmemo hget => exact exists_runs_of_begin (by simp only [begin, hmemo, hget]; rfl)
  | case4 e name hmemo definition hget failure href =>
    exact exists_runs_of_begin (by simp only [begin, hmemo, hget, href]; rfl)
  | case5 e definition hmemo hget href =>
    have hbegin : begin e callers defaultBase =
        ⟨e.enter defaultBase, .base defaultBase definition :: callers, .answer (.ok [])⟩ := by
      simp only [begin, hmemo, hget, href, if_true]
    exact ⟨_, .step (congrArg some hbegin) (.step rfl (.stop _))⟩
  | case6 e name hmemo definition hget href hname =>
    exact exists_runs_of_begin (by simp only [begin, hmemo, hget, href, hname, if_false]; rfl)
  | case7 e name hmemo definition hget base href hbase failure log inner hinner ih =>
    have hbegin := begin_of_base callers hmemo hget href hbase
    obtain ⟨passed, hpassed⟩ := ih (.base name definition :: callers)
    rw [hinner] at hpassed
    exact ⟨_, .step (congrArg some hbegin) (hpassed.trans (.step rfl (.stop _)))⟩
  | case8 e name hmemo definition hget base href hbase parent log inner hinner result after
      hfinish ih =>
    have hbegin := begin_of_base callers hmemo hget href hbase
    obtain ⟨passed, hpassed⟩ := ih (.base name definition :: callers)
    rw [hinner] at hpassed
    have hresume : resume inner callers (.base name definition) (.ok parent) =
        ⟨after, callers, .answer result.outcome⟩ := by
      simp only [resume, hfinish]
    exact ⟨_, .step (congrArg some hbegin)
      (hpassed.trans (.step (congrArg some hresume) (.stop _)))⟩
  | case9 e name hmemo definition hget base href hbase =>
    exact exists_runs_of_begin (by simp only [begin, hmemo, hget, href, hbase]; rfl)

/-- The end of a pass over the bases. -/
def ended (e : Expander) : Except Failure Collection → Execution
  | .ok expanded => ⟨e, [], .pass expanded []⟩
  | .error failure => ⟨e, [], .answer (.error failure)⟩

@[simp] theorem expander_ended (e : Expander) (outcome : Except Failure Collection) :
    (ended e outcome).expander = e := by
  cases outcome <;> rfl

theorem next_ended (e : Expander) (outcome : Except Failure Collection) :
    (ended e outcome).next = none := by
  cases outcome <;> rfl

/-- A pass comes to the outcome of `expandNames`. -/
theorem runs_expandNames (e : Expander) (expanded : Collection) (names : List String) :
    ∃ passed after, Runs ⟨e, [], .pass expanded names⟩ passed
      (ended after (e.expandNames expanded names).outcome) := by
  induction names generalizing e expanded with
  | nil => exact ⟨[], e, .stop _⟩
  | cons name rest ih =>
    rw [expandNames]
    by_cases hoverlay : e.bases.isOverlay name = true
    · obtain ⟨passed, after, hrest⟩ := ih e expanded
      rw [if_pos hoverlay]
      exact ⟨_, after, .step (by simp only [next, hoverlay, if_true]) hrest⟩
    · rw [if_neg hoverlay]
      by_cases hname : isBaseName name = true
      · rw [if_pos hname]
        obtain ⟨called, hcalled⟩ := runs_expand e [.pass expanded name rest] name
        have hask : next ⟨e, [], .pass expanded (name :: rest)⟩ =
            some ⟨e, [.pass expanded name rest], .call name⟩ := by
          simp only [next, hoverlay, hname, if_true, if_false, Bool.false_eq_true]
        rcases hexpand : e.expand name with ⟨⟨failure | definition, log⟩, after⟩
        · rw [hexpand] at hcalled
          exact ⟨_, after, .step hask (hcalled.trans (.step rfl (.stop _)))⟩
        · rw [hexpand] at hcalled
          obtain ⟨passed, last, hrest⟩ := ih after (expanded.insert name definition)
          exact ⟨_, last, .step hask (hcalled.trans (.step rfl hrest))⟩
      · rw [if_neg hname]
        obtain ⟨passed, after, hrest⟩ := ih e expanded
        refine ⟨_, after, .step (y := ⟨e, [], .pass expanded rest⟩) ?_ hrest⟩
        simp only [next, hoverlay, hname, if_false, Bool.false_eq_true]

/-! ## Room on the stack -/

/-- The names whose calls wait for an answer, innermost first. -/
def waiting (callers : List Caller) : List String := callers.filterMap Caller.name?

@[simp] theorem waiting_base (name : String) (definition : Definition) (callers : List Caller) :
    waiting (.base name definition :: callers) = name :: waiting callers := rfl

theorem waiting_sublist (caller : Caller) (callers : List Caller) :
    (waiting callers).Sublist (waiting (caller :: callers)) :=
  (List.sublist_cons_self caller callers).filterMap Caller.name?

/-- The calls of `expand` that are under way. -/
def nesting (x : Execution) : Nat :=
  match x.control with
  | .call _ => (waiting x.callers).length + 1
  | _ => (waiting x.callers).length

theorem nesting_le (x : Execution) : x.nesting ≤ (waiting x.callers).length + 1 := by
  unfold nesting
  split <;> omega

theorem Step.bases_eq (h : Step x y) : y.expander.bases = x.expander.bases := by
  cases h <;> rfl

/-- A call that goes onto the stack takes the room of the base that it marks. -/
theorem Step.room_le (h : Step x y) : (waiting y.callers).length + y.expander.unmarked ≤
    (waiting x.callers).length + x.expander.unmarked := by
  cases h with
  | settle | collect | skip | ask => exact le_rfl
  | refuse hmemo hname =>
    have := unmarked_enter_lt hmemo hname
    dsimp only
    omega
  | root hmemo hname | nest hmemo hname =>
    have := unmarked_enter_lt hmemo hname
    simp only [waiting_base, List.length_cons]
    omega
  | @merge e callers name definition parent expanded =>
    have := unmarked_leave_le e name expanded
    simp only [waiting_base, List.length_cons]
    omega
  | @fail e caller callers failure =>
    have := (waiting_sublist caller callers).length_le
    dsimp only
    omega

/-- The steps that are left for all callers. -/
def callersWork : List Caller → Nat
  | [] => 0
  | caller :: callers => caller.work + callersWork callers

/-- The steps that an execution may still take. -/
def work (x : Execution) : Nat :=
  2 * x.expander.unmarked + callersWork x.callers + x.control.work

theorem Step.work_lt (h : Step x y) : y.work < x.work := by
  cases h with
  | settle | collect | skip | ask =>
    simp only [work, callersWork, Caller.work, Control.work, List.length_cons]
    omega
  | refuse hmemo hname =>
    have := unmarked_enter_lt hmemo hname
    simp only [work, Control.work]
    omega
  | root hmemo hname | nest hmemo hname =>
    have := unmarked_enter_lt hmemo hname
    simp only [work, callersWork, Caller.work, Control.work]
    omega
  | @merge e callers name definition parent expanded =>
    have := unmarked_leave_le e name expanded
    simp only [work, callersWork, Caller.work, Control.work]
    omega
  | @fail e caller callers failure =>
    have := caller.work_pos
    simp only [work, callersWork, Control.work]
    omega

theorem Runs.length_le (h : Runs x passed z) : passed.length ≤ x.work := by
  induction h with
  | stop => exact Nat.zero_le _
  | step hnext _ ih =>
    have := (step_of_next hnext).work_lt
    rw [List.length_cons]
    omega

/-- A call that nests another one. -/
def Nests (x y : Execution) (name base : String) : Prop :=
  x.control = .call name ∧ x.next = some y ∧ y.control = .call base

/-- A nested call is made for a base, once another base has its mark. -/
theorem Nests.marks {base : String} (h : x.Nests y name base) :
    base ∈ x.expander.bases.keys ∧ name ∈ x.expander.bases.keys ∧
      x.expander.memo.get? name = none ∧ y.expander.memo.get? name = some .inProgress := by
  obtain ⟨hx, hnext, hy⟩ := h
  cases step_of_next hnext with
  | nest hmemo hname hbase =>
    cases hx
    cases hy
    exact ⟨hbase, hname, hmemo, OrderedMap.get?_insert_self ..⟩
  | ask => cases hx
  | _ => cases hy

/-! ## Merged once -/

/-- The base that the next step merges. -/
def merging? (x : Execution) : Option String :=
  match x.control, x.callers with
  | .answer (.ok _), .base name _ :: _ => some name
  | _, _ => none

/-- How far an execution has come since it started : these bases have been merged, each once, and
they are what the memo has come to remember. Those that wait have their marks. -/
structure Tracks (start : Expander) (merged : List String) (e : Expander)
    (callers : List Caller) : Prop where
  merged_distinct : merged.Nodup
  remembers_iff : ∀ name, e.Remembers name ↔ name ∈ merged ∨ start.Remembers name
  waiting_distinct : (waiting callers).Nodup
  marked : ∀ name ∈ waiting callers, e.memo.get? name = some .inProgress

variable {start : Expander} {merged : List String} {definition : Definition}

theorem tracks_refl (e : Expander) : Tracks e [] e [] where
  merged_distinct := List.nodup_nil
  remembers_iff _ := by simp
  waiting_distinct := List.nodup_nil
  marked := List.forall_mem_nil _

theorem Tracks.of_sublist {fewer : List Caller} (h : Tracks start merged e callers)
    (hsub : (waiting fewer).Sublist (waiting callers)) : Tracks start merged e fewer where
  merged_distinct := h.merged_distinct
  remembers_iff := h.remembers_iff
  waiting_distinct := hsub.nodup h.waiting_distinct
  marked name hname := h.marked name (hsub.subset hname)

theorem Tracks.enter (h : Tracks start merged e callers) (hmemo : e.memo.get? name = none)
    (definition : Definition) :
    Tracks start merged (e.enter name) (.base name definition :: callers) where
  merged_distinct := h.merged_distinct
  remembers_iff other := by
    rw [← h.remembers_iff]
    by_cases hother : other = name
    · subst hother
      simp [Remembers, Expander.enter, hmemo]
    · simp [Remembers, Expander.enter, OrderedMap.get?_insert_of_ne hother]
  waiting_distinct := by
    refine List.nodup_cons.2 ⟨fun hmem => ?_, h.waiting_distinct⟩
    rw [h.marked name hmem] at hmemo
    cases hmemo
  marked other hmem := by
    by_cases hother : other = name
    · subst hother
      exact OrderedMap.get?_insert_self ..
    · have hwaits := (List.mem_cons.1 hmem).resolve_left hother
      exact (OrderedMap.get?_insert_of_ne hother ..).trans (h.marked other hwaits)

theorem Tracks.leave (h : Tracks start merged e (.base name definition :: callers))
    (expanded : Definition) :
    Tracks start (merged ++ [name]) (e.leave name expanded) callers := by
  have hmark := h.marked name (List.mem_cons_self ..)
  have hforgotten : ¬e.Remembers name := by
    rintro ⟨old, hold⟩
    rw [hmark] at hold
    cases hold
  have hnew : name ∉ merged := fun hmem => hforgotten ((h.remembers_iff name).2 (Or.inl hmem))
  obtain ⟨hname, hdistinct⟩ := List.nodup_cons.1 h.waiting_distinct
  refine ⟨by simpa using h.merged_distinct.concat hnew, fun other => ?_, hdistinct, ?_⟩
  · by_cases hother : other = name
    · subst hother
      simp [Remembers, Expander.leave]
    · have hkept : (e.leave name expanded).Remembers other ↔ e.Remembers other := by
        simp [Remembers, Expander.leave, OrderedMap.get?_insert_of_ne hother]
      rw [hkept, h.remembers_iff]
      simp [hother]
  · intro other hmem
    have hother : other ≠ name := fun heq => hname (heq ▸ hmem)
    exact (OrderedMap.get?_insert_of_ne hother ..).trans
      (h.marked other (List.mem_cons_of_mem _ hmem))

/-- What a step merges it takes down. -/
theorem Tracks.step (hstep : Step x y) (h : Tracks start merged x.expander x.callers) :
    Tracks start (merged ++ x.merging?.toList) y.expander y.callers := by
  cases hstep with
  | merge => exact h.leave _
  | settle | ask | collect | skip =>
    simp only [merging?, Option.toList_none, List.append_nil]
    exact h.of_sublist (List.Sublist.refl _)
  | refuse hmemo hname =>
    simp only [merging?, Option.toList_none, List.append_nil]
    exact (h.enter hmemo []).of_sublist (List.sublist_cons_self ..)
  | root hmemo hname | nest hmemo hname =>
    simp only [merging?, Option.toList_none, List.append_nil]
    exact h.enter hmemo _
  | @fail e caller callers failure =>
    simp only [merging?, Option.toList_none, List.append_nil]
    exact h.of_sublist (waiting_sublist caller callers)

/-- The bases that are merged on the way, in order. -/
def merges (passed : List Execution) : List String := passed.filterMap merging?

theorem Runs.tracks (h : Runs x passed z) (hx : Tracks start merged x.expander x.callers) :
    Tracks start (merged ++ merges passed) z.expander z.callers := by
  induction h generalizing merged with
  | stop x => simpa [merges] using hx
  | @step x y z passed hnext _ ih =>
    have hmerges : merges (x :: passed) = x.merging?.toList ++ merges passed := by
      rw [merges, List.filterMap_cons]
      cases x.merging? <;> rfl
    rw [hmerges, ← List.append_assoc]
    exact ih (hx.step (step_of_next hnext))

/-! ## Runs from the beginning -/

/-- What holds on the way of every call, and of every pass. -/
structure Orderly (bases : Collection) (passed : List Execution) : Prop where
  /-- Besides one call for each base no more than one other is under way. -/
  nesting_le : ∀ x ∈ passed, x.nesting ≤ bases.size + 1
  /-- A nested call is made for a base, by a call that has put its mark on a base of which the memo
  knew nothing. -/
  nests : ∀ x ∈ passed, ∀ y name base, x.Nests y name base → base ∈ bases.keys ∧
    name ∈ bases.keys ∧ x.expander.memo.get? name = none ∧
      y.expander.memo.get? name = some .inProgress
  /-- No base is merged twice. -/
  distinct : (merges passed).Nodup

theorem unmarked_le (e : Expander) : e.unmarked ≤ e.bases.size := by
  refine (List.length_filter_le _ _).trans_eq ?_
  rw [OrderedMap.keys, Entries.keys, List.length_map, OrderedMap.size]

theorem Runs.orderly {control : Control} (h : Runs ⟨e, [], control⟩ passed z) :
    Orderly e.bases passed := by
  have hkeeps := h.forall (P := fun y => y.expander.bases = e.bases ∧
    (waiting y.callers).length + y.expander.unmarked ≤ e.bases.size) ?_ ⟨rfl, ?_⟩
  · refine ⟨fun x hx => ?_, fun x hx y name base hnests => ?_, ?_⟩
    · have hroom := (hkeeps.1 x hx).2
      have := x.nesting_le
      omega
    · rw [← (hkeeps.1 x hx).1]
      exact hnests.marks
    · simpa using (h.tracks (tracks_refl e)).merged_distinct
  · rintro x y hstep ⟨hbases, hroom⟩
    exact ⟨hstep.bases_eq.trans hbases, hstep.room_le.trans hroom⟩
  · simpa [waiting] using unmarked_le e

end Execution

open Execution

/-- Whatever calls an expander has answered before, the next call comes to an end, and so does a
pass over all bases : within a number of steps that the number of bases decides, and with no more
calls under way than one for each base and the first one. Each nested call is made for a base, by a
call that has just marked one, and what a pass merges it merges once and remembers. -/
theorem expand_terminates (bases : Collection) (locale : Option String) (names : List String) :
    let e := (new bases locale).after names
    (∀ name, ∃ passed,
      Completes ⟨e, [], .call name⟩ passed
        ⟨(e.expand name).2, [], .answer (e.expand name).1.outcome⟩ ∧
      passed.length ≤ 2 * bases.size + 1 ∧ Orderly bases passed) ∧
    ∃ passed after,
      Completes ⟨e, [], .pass .empty bases.keys⟩ passed (ended after e.expandAll.outcome) ∧
      passed.length ≤ 5 * bases.size ∧ Orderly bases passed ∧
      ∀ name, after.Remembers name ↔ name ∈ merges passed ∨ e.Remembers name := by
  intro e
  obtain ⟨-, hbases, -⟩ := bases_locale_after (valid_new bases locale) names
  change e.bases = bases at hbases
  have hunmarked : e.unmarked ≤ bases.size := hbases ▸ unmarked_le e
  constructor
  · intro name
    obtain ⟨passed, hruns⟩ := runs_expand e [] name
    have hlength := hruns.length_le
    simp only [work, callersWork, Control.work] at hlength
    exact ⟨passed, ⟨hruns, rfl⟩, by omega, hbases ▸ hruns.orderly⟩
  · obtain ⟨passed, after, hruns⟩ := runs_expandNames e .empty bases.keys
    have hlength := hruns.length_le
    have hkeys : bases.keys.length = bases.size := List.length_map _
    simp only [work, callersWork, Control.work, hkeys] at hlength
    have htracks := hruns.tracks (tracks_refl e)
    rw [expander_ended] at htracks
    rw [expandAll, hbases]
    exact ⟨passed, after, ⟨hruns, next_ended ..⟩, by omega, hbases ▸ hruns.orderly,
      by simpa using htracks.remembers_iff⟩

end Pedigree.Expander
