import Pedigree.Compilation
import Pedigree.Proofs.JsonReading
import Pedigree.Proofs.SourceOrder

/-!
# The stages of a compilation

A compilation loads and resolves the properties, loads and resolves the objects, and prints both.
It goes through all of that (`Compilation.Prints`) exactly if both scopes load, resolve together
and print, although it resolves the properties before it loads the objects. If not, it fails with
the first of the five stages that does (`Compilation.Stops`).

The sink comes last. It is called once with the two documents, or not at all
(`Compilation.compile_calls_sink_once`), which is seen by a sink that keeps a list of its calls
(`Sink.recorded`). What a compilation counts is what a reader finds in the two documents
(`Documents.Count`).
-/

namespace Pedigree

/-- The sink, with a list of the documents that it was given. -/
def Sink.recorded {σ : Type} (sink : Sink σ) : Sink (σ × List Documents) := fun documents s =>
  match sink documents s.1 with
  | (written, after) => (written, (after, s.2 ++ [documents]))

theorem Sink.recorded_runs {σ : Type} {sink : Sink σ} {documents : Documents} {s s' : σ}
    {outcome : Except Failure (List Path)} (h : (sink documents).Runs s outcome s')
    (calls : List Documents) :
    (sink.recorded documents).Runs (s, calls) outcome (s', calls ++ [documents]) :=
  ⟨h.1, Prod.ext h.2 rfl⟩

/-- The documents are the texts of the resolved properties and of the sorted objects. A reader of
these texts finds the names of both, in this order, and as many as are counted. -/
structure Documents.Count (documents : Documents) (resolved : Resolved)
    (indent properties objects : Nat) : Prop where
  properties : documents.properties = Json.pretty indent resolved.properties.toValue ∧
    Json.Lists documents.properties resolved.properties.keys ∧
      resolved.properties.keys.length = properties
  objects : ∃ sorted, resolved.objects.sortByOrder = .ok sorted ∧
    documents.objects = Json.pretty indent sorted.toValue ∧
      Json.Lists documents.objects sorted.keys ∧ sorted.keys.length = objects

theorem Resolved.count_render {resolved : Resolved} {indent : Nat} {documents : Documents}
    (h : resolved.render indent = .ok documents) :
    documents.Count resolved indent resolved.properties.size resolved.objects.size := by
  obtain ⟨sorted, hsorted, rfl⟩ := render_eq_ok_iff.1 h
  exact ⟨⟨rfl, resolved.properties.lists_pretty indent, List.length_map ..⟩, sorted, hsorted, rfl,
    sorted.lists_pretty indent,
    (List.length_map ..).trans (Collection.perm_sortByOrder hsorted).length_eq⟩

namespace Compilation

variable {source : Source} {locale : Option String} {indent : Nat}

/-- Both scopes load, they resolve together, and what they resolve to is printed. -/
structure Prints (source : Source) (locale : Option String) (indent : Nat) (resolved : Resolved)
    (documents : Documents) : Prop where
  resolve : ∃ properties objects, (source .properties).outcome = .ok properties ∧
    (source .objects).outcome = .ok objects ∧
      (Scope.resolveBoth properties objects locale).outcome = .ok resolved
  render : resolved.render indent = .ok documents

/-- The failure of the first stage that fails. -/
inductive Stops (source : Source) (locale : Option String) (indent : Nat) (failure : Failure) :
    Prop
  | loadingProperties (h : (source .properties).outcome = .error failure)
  | resolvingProperties {properties : Scope}
    (hproperties : (source .properties).outcome = .ok properties)
    (h : (properties.resolve locale).outcome = .error failure)
  | loadingObjects {properties : Scope} {globals : Collection}
    (hproperties : (source .properties).outcome = .ok properties)
    (hglobals : (properties.resolve locale).outcome = .ok globals)
    (h : (source .objects).outcome = .error failure)
  | resolvingObjects {properties objects : Scope} {globals : Collection}
    (hproperties : (source .properties).outcome = .ok properties)
    (hglobals : (properties.resolve locale).outcome = .ok globals)
    (hobjects : (source .objects).outcome = .ok objects)
    (h : (Scope.resolveObjects globals objects locale).outcome = .error failure)
  | printing {properties objects : Scope} {resolved : Resolved}
    (hproperties : (source .properties).outcome = .ok properties)
    (hglobals : (properties.resolve locale).outcome = .ok resolved.properties)
    (hobjects : (source .objects).outcome = .ok objects)
    (hlinked : (Scope.resolveObjects resolved.properties objects locale).outcome =
      .ok resolved.objects)
    (h : resolved.render indent = .error failure)

/-! ## Resolving and printing -/

/-- What is resolved stage by stage is what the loaded scopes resolve to together. -/
theorem resolve_eq_ok_iff {resolved : Resolved} :
    (resolve source locale).outcome = .ok resolved ↔
      ∃ properties objects, (source .properties).outcome = .ok properties ∧
        (source .objects).outcome = .ok objects ∧
          (Scope.resolveBoth properties objects locale).outcome = .ok resolved := by
  unfold resolve
  simp only [Scope.resolveBoth_eq_ok_iff]
  constructor
  · intro h
    obtain ⟨properties, hproperties, h⟩ := Logged.bind_eq_ok_iff.1 h
    obtain ⟨globals, hglobals, h⟩ := Logged.bind_eq_ok_iff.1 h
    obtain ⟨objects, hobjects, h⟩ := Logged.bind_eq_ok_iff.1 h
    obtain ⟨linked, hlinked, h⟩ := Logged.bind_eq_ok_iff.1 h
    obtain rfl : ⟨globals, linked⟩ = resolved := Except.ok.inj h
    exact ⟨properties, objects, hproperties, hobjects, hglobals, hlinked⟩
  · rintro ⟨properties, objects, hproperties, hobjects, hglobals, hlinked⟩
    exact Logged.bind_eq_ok_iff.2 ⟨properties, hproperties, Logged.bind_eq_ok_iff.2
      ⟨_, hglobals, Logged.bind_eq_ok_iff.2 ⟨objects, hobjects, Logged.bind_eq_ok_iff.2
        ⟨_, hlinked, rfl⟩⟩⟩⟩

theorem render_eq_ok_iff {counts : Summary} {documents : Documents} :
    (render source locale indent).outcome = .ok (counts, documents) ↔
      ∃ resolved, Prints source locale indent resolved documents ∧
        counts = ⟨resolved.properties.size, resolved.objects.size, []⟩ := by
  unfold render
  constructor
  · intro h
    obtain ⟨resolved, hresolved, h⟩ := Logged.bind_eq_ok_iff.1 h
    obtain ⟨printed, hprinted, h⟩ := Logged.bind_eq_ok_iff.1 h
    obtain ⟨rfl, rfl⟩ := Prod.mk.inj (Except.ok.inj h)
    exact ⟨resolved, ⟨resolve_eq_ok_iff.1 hresolved, hprinted⟩, rfl⟩
  · rintro ⟨resolved, hprints, rfl⟩
    exact Logged.bind_eq_ok_iff.2 ⟨resolved, resolve_eq_ok_iff.2 hprints.resolve,
      Logged.bind_eq_ok_iff.2 ⟨documents, hprints.render, rfl⟩⟩

/-- A compilation that is not printed stops at the first stage that fails. -/
theorem stops_of_render {failure : Failure}
    (h : (render source locale indent).outcome = .error failure) :
    Stops source locale indent failure := by
  unfold render resolve at h
  rcases Logged.bind_eq_error_iff.1 h with h | ⟨resolved, hresolved, h⟩
  · rcases Logged.bind_eq_error_iff.1 h with h | ⟨properties, hproperties, h⟩
    · exact .loadingProperties h
    rcases Logged.bind_eq_error_iff.1 h with h | ⟨globals, hglobals, h⟩
    · exact .resolvingProperties hproperties h
    rcases Logged.bind_eq_error_iff.1 h with h | ⟨objects, hobjects, h⟩
    · exact .loadingObjects hproperties hglobals h
    rcases Logged.bind_eq_error_iff.1 h with h | ⟨linked, hlinked, h⟩
    · exact .resolvingObjects hproperties hglobals hobjects h
    · cases h
  · obtain ⟨properties, objects, hproperties, hobjects, hboth⟩ := resolve_eq_ok_iff.1 hresolved
    obtain ⟨hglobals, hlinked⟩ := Scope.resolveBoth_eq_ok_iff.1 hboth
    rcases Logged.bind_eq_error_iff.1 h with h | ⟨documents, hdocuments, h⟩
    · exact .printing hproperties hglobals hobjects hlinked h
    · cases h

/-- The objects are not looked at before the properties have resolved. -/
theorem render_eq_error_of_properties {failure : Failure}
    (h : (source .properties >>= fun properties => properties.resolve locale).outcome =
      .error failure) : (render source locale indent).outcome = .error failure := by
  refine Logged.bind_eq_error_iff.2 (Or.inl ?_)
  rcases Logged.bind_eq_error_iff.1 h with h | ⟨properties, hproperties, h⟩
  · exact Logged.bind_eq_error_iff.2 (Or.inl h)
  · exact Logged.bind_eq_error_iff.2
      (Or.inr ⟨properties, hproperties, Logged.bind_eq_error_iff.2 (Or.inl h)⟩)

/-! ## Publishing -/

variable {σ : Type} {sink : Sink σ} {s s' : σ}

theorem compile_runs_of_render {failure : Failure}
    (h : (render source locale indent).outcome = .error failure) :
    (compile source sink locale indent).Runs s (.error failure) s := by
  have hlift : (Action.lift (render source locale indent)).Runs s (.error failure) s :=
    h ▸ .lift _ s
  exact .bind_error hlift

/-- A compilation that is printed comes to what the sink makes of the documents. -/
theorem compile_runs {counts : Summary} {documents : Documents}
    {outcome : Except Failure (List Path)}
    (hrender : (render source locale indent).outcome = .ok (counts, documents))
    (hsink : (sink documents).Runs s outcome s') :
    (compile source sink locale indent).Runs s
      (outcome.map fun written => { counts with written }) s' := by
  have hlift : (Action.lift (render source locale indent)).Runs s (.ok (counts, documents)) s :=
    hrender ▸ .lift _ s
  refine .bind hlift ?_
  dsimp only
  cases outcome with
  | error failure => exact .bind_error hsink
  | ok written => exact .bind hsink (.bind (.say ..) (.pure ..))

/-- A compilation calls its sink once if both scopes load, resolve and print, with the documents
that are printed, and counts their entries. If not, it does not call the sink and fails with the
first stage that fails. Where the properties fail, the objects do not matter. -/
theorem compile_calls_sink_once (source : Source) (sink : Sink σ) (locale : Option String)
    (indent : Nat) (s : σ) :
    (∀ resolved documents, Prints source locale indent resolved documents →
      (compile source sink.recorded locale indent (s, [])).2.2 = [documents] ∧
      (compile source sink locale indent s).2 = (sink documents s).2 ∧
      (compile source sink locale indent s).1.outcome =
        (sink documents s).1.outcome.map (fun written =>
          ⟨resolved.properties.size, resolved.objects.size, written⟩) ∧
      documents.Count resolved indent resolved.properties.size resolved.objects.size) ∧
    ((¬∃ resolved documents, Prints source locale indent resolved documents) →
      (compile source sink.recorded locale indent (s, [])).2.2 = [] ∧
      (compile source sink locale indent s).2 = s ∧
      ∃ failure, Stops source locale indent failure ∧
        (compile source sink locale indent s).1.outcome = .error failure) ∧
    ∀ failure, (source .properties >>= fun properties => properties.resolve locale).outcome =
        .error failure →
      ∀ other : Source, other .properties = source .properties →
        (compile other sink locale indent s).1.outcome = .error failure := by
  refine ⟨fun resolved documents hprints => ?_, fun hnone => ?_, fun failure h other hother => ?_⟩
  · have hrender := render_eq_ok_iff.2 ⟨resolved, hprints, rfl⟩
    have hsink : (sink documents).Runs s (sink documents s).1.outcome (sink documents s).2 :=
      ⟨rfl, rfl⟩
    obtain ⟨-, hcalls⟩ := compile_runs hrender (Sink.recorded_runs hsink [])
    obtain ⟨houtcome, hafter⟩ := compile_runs hrender hsink
    exact ⟨congrArg Prod.snd hcalls, hafter, houtcome, Resolved.count_render hprints.render⟩
  · cases hrender : (render source locale indent).outcome with
    | ok printed =>
      obtain ⟨resolved, hprints, -⟩ := render_eq_ok_iff.1 hrender
      exact absurd ⟨resolved, _, hprints⟩ hnone
    | error failure =>
      have hruns : (compile source sink locale indent).Runs s (.error failure) s :=
        compile_runs_of_render hrender
      have hrecorded : (compile source sink.recorded locale indent).Runs (s, []) (.error failure)
          (s, []) := compile_runs_of_render hrender
      exact ⟨congrArg Prod.snd hrecorded.2, hruns.2, failure, stops_of_render hrender, hruns.1⟩
  · rw [← hother] at h
    exact (compile_runs_of_render (render_eq_error_of_properties h)).1

end Compilation

end Pedigree
