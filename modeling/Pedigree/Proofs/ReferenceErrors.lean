import Mathlib.Data.List.Chain
import Pedigree.Proofs.ExpansionHistory

/-!
# What reference errors say

A cycle that is reported lists names each of which names the next one as its base
(`Collection.Loops`), and an unknown base is one that the reported definition names
(`Collection.Refers`). This holds of every call whose error does not start at a name that an
earlier failure left in the chain (`Valid.genuine`), so of all calls as long as none has failed.

A name left behind looks like one that is still being expanded. A later chain that reaches it is
reported as a cycle even if it has no base at all, and a later name that is no base is blamed on
it (`not_forall_genuine`).
-/

namespace Pedigree

namespace Collection

/-- The definition of a name, as it was written, names a base. -/
def Refers (bases : Collection) (name base : String) : Prop :=
  ∃ definition, bases.get? name = some definition ∧
    Entries.get? baseKey definition = some (.string base)

/-- The references lead from the first name through all others back to it. -/
def Loops (bases : Collection) (chain : List String) : Prop :=
  chain.IsChain bases.Refers ∧ ∃ name between, chain = name :: (between ++ [name])

/-- What a failure says about references is true, or it starts at one of the names left behind. An
unknown base that is blamed on itself is the name that was asked for. -/
def Genuine (bases : Collection) (left : List String) : Failure → Prop
  | .baseCycle chain => bases.Loops chain ∨ ∃ name ∈ left, chain.head? = some name
  | .unknownBase name base => name ≠ base → bases.Refers name base ∨ name ∈ left
  | .missingBase name =>
    name ≠ defaultBase ∧ ∃ definition, bases.get? name = some definition ∧ definition.Rootless
  | .invalidBaseReference name found =>
    ∃ definition value, bases.get? name = some definition ∧
      Entries.get? baseKey definition = some value ∧ value.kind = found
  | _ => False

end Collection

theorem Definition.baseReference_eq_error_iff {name : String} {definition : Definition}
    {failure : Failure} : baseReference name definition = .error failure ↔
      ∃ value, Entries.get? baseKey definition = some value ∧ value.kind ≠ .null ∧
        value.kind ≠ .string ∧ failure = .invalidBaseReference name value.kind := by
  unfold baseReference
  rcases Entries.get? baseKey definition with _ | _ | _ | _ | _ | _ | _ <;>
    simp [Value.kind, eq_comm]

namespace Expander

variable {e : Expander} {name : String}

/-- The cycle at a name runs from its first place in the chain to the end. -/
theorem cycle_eq {before after : List String} (hchain : e.chain = before ++ name :: after)
    (hfirst : name ∉ before) : e.cycle name = name :: (after ++ [name]) := by
  have hdrop : e.chain.dropWhile (· != name) = name :: after := by
    rw [hchain, List.dropWhile_append_of_pos]
    · simp
    · intro other hother
      simpa using fun heq : other = name => hfirst (heq ▸ hother)
  rw [cycle, hdrop]
  rfl

/-- The cycle at a name of the chain starts at that name. -/
theorem cycle_of_mem {left path : List String} (hchain : e.chain = left ++ path)
    (hmem : name ∈ path) (hleft : name ∉ left) :
    ∃ before after, path = before ++ name :: after ∧ e.cycle name = name :: (after ++ [name]) := by
  obtain ⟨before, after, rfl, hbefore⟩ := List.eq_append_cons_of_mem hmem
  rw [← List.append_assoc] at hchain
  exact ⟨before, after, rfl, cycle_eq hchain (by simp [hleft, hbefore])⟩

theorem head?_cycle (hmem : name ∈ e.chain) : (e.cycle name).head? = some name := by
  obtain ⟨before, after, -, hcycle⟩ := cycle_of_mem (List.nil_append _).symm hmem (by simp)
  rw [hcycle]
  rfl

/-- A path of references is what a call has put on the chain, above the names left behind. -/
theorem Valid.genuine_of_path (h : e.Valid) {left path : List String}
    (hchain : e.chain = left ++ path) (hpath : (path ++ [name]).IsChain e.bases.Refers)
    {failure : Failure} (herror : (e.expand name).1.outcome = .error failure) :
    e.bases.Genuine left failure := by
  revert herror
  fun_induction expand e name generalizing path with
  | case1 e name definition hmemo => exact fun herror => (by cases herror)
  | case2 e name hmemo =>
    intro herror
    obtain rfl := Except.error.inj herror
    have hmem := (h.marked name).1 hmemo
    by_cases hleft : name ∈ left
    · exact Or.inr ⟨name, hleft, head?_cycle hmem⟩
    · rw [hchain, List.mem_append] at hmem
      obtain ⟨before, after, rfl, hcycle⟩ :=
        cycle_of_mem hchain (hmem.resolve_left hleft) hleft
      refine Or.inl ⟨?_, name, after, hcycle⟩
      rw [hcycle]
      rw [List.append_assoc] at hpath
      exact hpath.right_of_append
  | case3 e name hmemo hget =>
    intro herror
    obtain rfl := Except.error.inj herror
    intro hne
    cases path using List.reverseRec with
    | nil =>
      rw [List.append_nil] at hchain
      rw [hchain] at hne ⊢
      cases hlast : left.getLast? with
      | none => simp [hlast] at hne
      | some last => exact Or.inr (List.mem_of_getLast? hlast)
    | append_singleton before last =>
      have hlast : e.chain.getLast? = some last := by simp [hchain]
      rw [hlast]
      rw [List.append_assoc] at hpath
      exact Or.inl (List.isChain_cons_cons.1 hpath.right_of_append).1
  | case4 e name hmemo definition hget failure href =>
    intro herror
    obtain rfl := Except.error.inj herror
    obtain ⟨value, hvalue, -, -, rfl⟩ := Definition.baseReference_eq_error_iff.1 href
    exact ⟨definition, value, hget, hvalue, rfl⟩
  | case5 e definition hmemo hget href =>
    intro herror
    rw [outcome_finish] at herror
    cases herror
  | case6 e name hmemo definition hget href hname =>
    intro herror
    obtain rfl := Except.error.inj herror
    exact ⟨hname, definition, hget, Definition.baseReference_eq_none_iff.1 href⟩
  | case7 e name hmemo definition hget base href hbase failure log inner hinner ih =>
    intro herror
    have hrefers : e.bases.Refers name base :=
      ⟨definition, hget, Definition.baseReference_eq_some_iff.1 href⟩
    have hchain' : (e.enter name).chain = left ++ (path ++ [name]) := by
      simp [Expander.enter, hchain]
    refine ih (h.enter hmemo (OrderedMap.mem_keys_of_get? hget)) hchain' ?_ ?_
    · exact hpath.append (List.isChain_singleton _) (by simpa using hrefers)
    · rw [hinner]
      exact herror
  | case8 e name hmemo definition hget base href hbase parent log inner hinner result after
      hfinish ih =>
    intro herror
    have hresult : result = (inner.finish name definition parent).1 := by rw [hfinish]
    rw [hresult, outcome_finish] at herror
    cases herror
  | case9 e name hmemo definition hget base href hbase =>
    intro herror
    obtain rfl := Except.error.inj herror
    exact fun _ => Or.inl ⟨definition, hget, Definition.baseReference_eq_some_iff.1 href⟩

/-- A failure of a call is genuine, but for names that were on the chain before. -/
theorem Valid.genuine (h : e.Valid) {failure : Failure}
    (herror : (e.expand name).1.outcome = .error failure) : e.bases.Genuine e.chain failure :=
  h.genuine_of_path (List.append_nil _).symm (List.isChain_singleton _) herror

/-- After any calls on one expander a failure is genuine, but for names that earlier failures left
in the chain. As long as the calls succeed, every failure is genuine. -/
theorem genuine_after_calls (bases : Collection) (locale : Option String) (names : List String)
    (name : String) :
    let e := (new bases locale).after names
    (∀ failure, (e.expand name).1.outcome = .error failure → bases.Genuine e.chain failure) ∧
    ((new bases locale).Succeeds names →
      ∀ failure, (e.expand name).1.outcome = .error failure → bases.Genuine [] failure) := by
  intro e
  obtain ⟨hvalid, hbases, -⟩ := bases_locale_after (valid_new bases locale) names
  have hgenuine : ∀ failure, (e.expand name).1.outcome = .error failure →
      bases.Genuine e.chain failure := by
    intro failure herror
    have := hvalid.genuine herror
    rwa [hbases] at this
  refine ⟨hgenuine, fun hsucceeds => ?_⟩
  have hchain : e.chain = [] := chain_after (valid_new bases locale) hsucceeds
  exact hchain ▸ hgenuine

/-! ## A chain that is no cycle -/

/-- The base of one name does not exist, and that name is the base of another one. -/
def danglingBases : Collection :=
  ⟨[("default", [("base", .null)]), ("sensor", [("base", .string "gone")]),
    ("probe", [("base", .string "sensor")])], by decide⟩

theorem eq_gone_of_refers {base : String} (h : danglingBases.Refers "sensor" base) :
    base = "gone" := by
  obtain ⟨definition, hget, hbase⟩ := h
  obtain rfl : [("base", Value.string "gone")] = definition := Option.some.inj hget
  simpa [Entries.get?, baseKey, eq_comm] using hbase

theorem after_sensor : (new danglingBases none).after ["sensor"] =
    (new danglingBases none).enter "sensor" := by
  change ((new danglingBases none).expand "sensor").2 = _
  rw [expand]
  rfl

/-- The chain of the second call comes to the name that the first one has left. -/
theorem outcome_expand_probe :
    (((new danglingBases none).after ["sensor"]).expand "probe").1.outcome =
      .error (.baseCycle ["sensor", "probe", "sensor"]) := by
  rw [after_sensor]
  let e := (new danglingBases none).enter "sensor"
  have hvalid : e.Valid := (valid_new ..).enter rfl (by decide)
  rw [outcome_expand_of_unmarked hvalid rfl rfl]
  change Except.map _ ((e.enter "probe").expand "sensor").1.outcome = _
  rw [expand_of_inProgress rfl]
  rfl

/-- Once a base was found missing, a call may report a cycle of names that lead nowhere, and blame
an unknown base on a name that does not refer to it. -/
theorem not_forall_genuine :
    ¬ ∀ (bases : Collection) (locale : Option String) (names : List String) (name : String),
      (∀ chain, (((new bases locale).after names).expand name).1.outcome =
        .error (.baseCycle chain) → bases.Loops chain) ∧
      (∀ referrer base, (((new bases locale).after names).expand name).1.outcome =
        .error (.unknownBase referrer base) → referrer ≠ base → bases.Refers referrer base) := by
  intro h
  obtain ⟨hchain, -⟩ := (h danglingBases none ["sensor"] "probe").1 _ outcome_expand_probe
  have hrefers : danglingBases.Refers "sensor" "probe" := (List.isChain_cons_cons.1 hchain).1
  exact absurd (eq_gone_of_refers hrefers) (by decide)

end Expander

end Pedigree
