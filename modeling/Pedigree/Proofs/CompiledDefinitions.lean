import Pedigree.Proofs.JsonReading
import Pedigree.Proofs.Stages

/-!
# Compiled definitions are well formed

No mapping of a definition that comes from a file holds a key twice. Each stage of a compilation
keeps it so : layers (`Definition.wellFormed_merge`) and with them a whole scope
(`Scope.WellFormed.resolve`), written out shorthands (`Collection.WellFormed.normalize`) and links
(`Collection.WellFormed.link`). So whatever is compiled from directories is well formed
(`FileTree.wellFormed_resolve`), and what is proved of printing well formed definitions holds of
every compilation.
-/

namespace Pedigree

/-! ## Layers -/

theorem Definition.wellFormed_merge {base layer : Definition}
    (hbase : (Value.mapping base).WellFormed) (hlayer : (Value.mapping layer).WellFormed) :
    (Value.mapping (base.merge layer)).WellFormed := by
  rw [Definition.merge, ← Value.merge_mapping]
  exact hbase.merge hlayer

/-- A well formed scope resolves to well formed definitions. -/
theorem Scope.WellFormed.resolve {scope : Scope} {locale : Option String} {resolved : Collection}
    (hscope : scope.WellFormed) (h : (scope.resolve locale).outcome = .ok resolved) :
    resolved.WellFormed :=
  forall_of_resolve (P := fun definition => (Value.mapping definition).WellFormed) (by simp)
    Definition.wellFormed_merge hscope.bases hscope.items h

/-! ## Shorthands and links -/

/-- What every visit keeps of its value, a sweep keeps of all values, also where it stops. -/
theorem Entries.forall_sweep {κ α : Type} {visit : κ → α → Logged Failure Unit × α}
    {P : α → Prop} (hvisit : ∀ key value, P value → P (visit key value).2)
    {entries : Entries κ α} (h : ∀ entry ∈ entries, P entry.2) :
    ∀ entry ∈ (sweep visit entries).2, P entry.2 := by
  induction entries with
  | nil => exact h
  | cons entry rest ih =>
    obtain ⟨key, value⟩ := entry
    obtain ⟨hvalue, hrest⟩ := List.forall_mem_cons.1 h
    have hvisited := hvisit key value hvalue
    cases houtcome : (visit key value).1.outcome with
    | ok =>
      rw [(sweep_cons_of_ok houtcome rest).2]
      exact List.forall_mem_cons.2 ⟨hvisited, ih hrest⟩
    | error failure =>
      rw [(sweep_cons_of_error houtcome rest).2]
      exact List.forall_mem_cons.2 ⟨hvisited, hrest⟩

theorem Value.WellFormed.writtenOut {value : Value} (h : value.WellFormed) :
    value.writtenOut.WellFormed := by
  unfold Value.writtenOut
  split
  · exact .mapping (List.nodup_singleton _) (by simpa using h)
  · exact h

namespace Definition

variable {definition : Definition}

theorem wellFormed_normalize (name : String) (h : (Value.mapping definition).WellFormed) :
    (Value.mapping (normalize name definition).2).WellFormed := by
  unfold normalize
  split
  · exact h
  · exact h
  · rename_i properties hget
    have hproperties : (Value.mapping properties).WellFormed :=
      (Value.wellFormed_mapping_iff.1 h).2 _ (Entries.mem_of_get? hget)
    obtain ⟨hdistinct, hvalues⟩ := Value.wellFormed_mapping_iff.1 hproperties
    refine h.insert _ (.mapping ?_ (List.forall_mem_map.2 fun entry hentry => ?_))
    · rwa [Entries.keys_map]
    · exact (hvalues entry hentry).writtenOut
  · exact h

variable {globals : Collection}

theorem wellFormed_linkProperty (hglobals : globals.WellFormed) (object property : String)
    {override : Value} (h : override.WellFormed) :
    (link.linkProperty globals object property override).2.WellFormed := by
  unfold link.linkProperty
  cases hget : globals.get? property with
  | none => exact h
  | some entries => exact (hglobals _ (Entries.mem_of_get? hget)).merge h

theorem wellFormed_link (hglobals : globals.WellFormed) (name : String)
    (h : (Value.mapping definition).WellFormed) :
    (Value.mapping (link globals name definition).2).WellFormed := by
  unfold link
  split
  · exact h
  · exact h
  · rename_i overrides hget
    have hoverrides : (Value.mapping overrides).WellFormed :=
      (Value.wellFormed_mapping_iff.1 h).2 _ (Entries.mem_of_get? hget)
    obtain ⟨hdistinct, hvalues⟩ := Value.wellFormed_mapping_iff.1 hoverrides
    refine h.insert _ (.mapping ?_ (Entries.forall_sweep (fun property value hvalue => ?_) hvalues))
    · rwa [Entries.keys_sweep]
    · exact wellFormed_linkProperty hglobals name property hvalue
  · exact h

end Definition

namespace Collection.WellFormed

variable {collection globals : Collection}

theorem normalize (h : collection.WellFormed) : Collection.WellFormed collection.normalize.2 :=
  Entries.forall_sweep (P := fun definition => (Value.mapping definition).WellFormed)
    (fun name _ => Definition.wellFormed_normalize name) h

theorem link (h : collection.WellFormed) (hglobals : globals.WellFormed) :
    Collection.WellFormed (Collection.link globals collection).2 :=
  Entries.forall_sweep (P := fun object => (Value.mapping object).WellFormed)
    (fun name _ => Definition.wellFormed_link hglobals name) h

end Collection.WellFormed

/-! ## Compilations -/

namespace Scope.WellFormed

variable {properties objects : Scope} {locale : Option String}

theorem resolveObjects {globals linked : Collection} (hobjects : objects.WellFormed)
    (hglobals : globals.WellFormed)
    (h : (Scope.resolveObjects globals objects locale).outcome = .ok linked) :
    linked.WellFormed := by
  obtain ⟨-, -, merged, hmerged, -, rfl⟩ := resolveObjects_eq_ok_iff.1 h
  have hwritten : objects.writtenOut.WellFormed :=
    ⟨hobjects.bases.normalize, hobjects.items.normalize⟩
  exact (hwritten.resolve hmerged).link hglobals

/-- Two well formed scopes resolve to well formed definitions. -/
theorem resolveBoth {resolved : Resolved} (hproperties : properties.WellFormed)
    (hobjects : objects.WellFormed)
    (h : (Scope.resolveBoth properties objects locale).outcome = .ok resolved) :
    resolved.WellFormed := by
  obtain ⟨hglobals, hlinked⟩ := resolveBoth_eq_ok_iff.1 h
  have hformed := hproperties.resolve hglobals
  exact ⟨hformed, hobjects.resolveObjects hformed hlinked⟩

end Scope.WellFormed

/-- Whatever is compiled from directories is well formed. -/
theorem FileTree.wellFormed_resolve {t : FileTree} {extensions : List String} {root : Path}
    {locale : Option String} {resolved : Resolved}
    (h : (Compilation.resolve (t.source extensions root) locale).outcome = .ok resolved) :
    resolved.WellFormed := by
  obtain ⟨properties, objects, hproperties, hobjects, hboth⟩ := Compilation.resolve_eq_ok_iff.1 h
  exact (wellFormed_loadDirectory hproperties).resolveBoth (wellFormed_loadDirectory hobjects) hboth

end Pedigree
