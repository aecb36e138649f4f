import Pedigree.Link
import Pedigree.Proofs.Layers
import Pedigree.Proofs.ScopeResolution

/-!
# The shape of properties

Once shorthands are written out, the properties of every definition are absent, null or a
mapping of mappings and sequences (`Definition.Structured`). A layer decides the kind of
every value that it touches, so a layer keeps the shape (`Definition.Shaped.merge`), and with
it any chain of bases and any overlay : `Scope.shaped_of_resolve` is the shape of every
resolved object.
-/

namespace Pedigree

/-- Absent, null or a mapping that holds mappings and sequences only. -/
def Value.StructuredProperties : Option Value → Prop
  | none | some .null => True
  | some (.mapping properties) =>
    ∀ property ∈ properties, property.2.kind = .mapping ∨ property.2.kind = .sequence
  | some _ => False

/-- The properties of a definition are absent, null or a mapping that holds mappings and sequences
only. -/
def Definition.Structured (definition : Definition) : Prop :=
  Value.StructuredProperties (Entries.get? propertiesKey definition)

/-- What holds of the kinds of all values of two mappings holds of their merge. -/
theorem forall_kind_mergeEntries {P : Value.Kind → Prop} {base layer : List (String × Value)}
    (hbase : ∀ entry ∈ base, P entry.2.kind) (hlayer : ∀ entry ∈ layer, P entry.2.kind) :
    ∀ entry ∈ mergeEntries base layer, P entry.2.kind := by
  induction layer generalizing base with
  | nil => simpa using hbase
  | cons first rest ih =>
    obtain ⟨key, value⟩ := first
    rw [mergeEntries_cons]
    refine ih ?_ fun entry hentry => hlayer entry (List.mem_cons_of_mem _ hentry)
    intro entry hentry
    rcases Entries.eq_or_mem_of_mem_insert hentry with rfl | hentry
    · have hkind : (Value.onTop (Entries.get? key base) value).kind = value.kind := by
        cases Entries.get? key base <;> simp
      exact hkind ▸ hlayer (key, value) (List.mem_cons_self ..)
    · exact hbase entry hentry

theorem Value.StructuredProperties.onTop {below : Option Value} {value : Value}
    (hbelow : StructuredProperties below) (hvalue : StructuredProperties (some value)) :
    StructuredProperties (some (Value.onTop below value)) := by
  cases value with
  | null => cases below <;> simp [Value.onTop, merge, StructuredProperties]
  | mapping properties =>
    rcases below with _ | old
    · exact hvalue
    · cases old with
      | mapping entries =>
        rw [onTop_some, merge_mapping]
        exact forall_kind_mergeEntries (P := fun k => k = .mapping ∨ k = .sequence) hbelow hvalue
      | _ =>
        rw [onTop_some, merge_of_kind_ne (by simp [kind])]
        exact hvalue
  | _ => exact absurd hvalue id

namespace Definition

/-- A layer keeps the shape of properties. -/
theorem Structured.merge {base layer : Definition} (hbase : base.Structured)
    (hlayer : layer.Structured) (hnodup : (Entries.keys layer).Nodup) :
    (base.merge layer).Structured := by
  unfold Structured at hbase hlayer ⊢
  rw [Definition.merge, get?_mergeEntries base hnodup]
  cases hget : Entries.get? propertiesKey layer with
  | none => exact hbase
  | some value =>
    rw [hget] at hlayer
    exact hbase.onTop hlayer

/-- The properties are in shape, and no key comes twice. -/
structure Shaped (definition : Definition) : Prop where
  structured : definition.Structured
  distinct : (Entries.keys definition).Nodup

theorem Shaped.merge {base layer : Definition} (hbase : base.Shaped) (hlayer : layer.Shaped) :
    (base.merge layer).Shaped where
  structured := hbase.structured.merge hlayer.structured hlayer.distinct
  distinct := nodup_keys_mergeEntries hbase.distinct hlayer.distinct

/-- Writing out the shorthands of a definition brings its properties into shape. -/
theorem shaped_normalize {name : String} {definition : Definition}
    (hdistinct : (Entries.keys definition).Nodup)
    (h : (normalize name definition).1.outcome = .ok ()) :
    (normalize name definition).2.Shaped := by
  unfold normalize at h ⊢
  split at h
  · rename_i hget
    exact ⟨by rw [Structured, hget]; trivial, hdistinct⟩
  · rename_i hget
    exact ⟨by rw [Structured, hget]; trivial, hdistinct⟩
  · rename_i properties hget
    refine ⟨?_, Entries.nodup_keys_insert _ _ hdistinct⟩
    rw [Structured, Entries.get?_insert_self]
    intro property hproperty
    obtain ⟨⟨key, value⟩, -, rfl⟩ := List.mem_map.1 hproperty
    cases value <;> simp [Value.writtenOut, Value.isScalar, Value.kind]
  · cases h

end Definition

namespace Collection

/-- All definitions of a collection are in shape. -/
def Shaped (collection : Collection) : Prop :=
  ∀ entry ∈ collection.entries, Definition.Shaped entry.2

end Collection

/-- What a scope in shape resolves to is in shape. -/
theorem Scope.shaped_of_resolve {scope : Scope} {locale : Option String} {resolved : Collection}
    (hbases : scope.bases.Shaped) (hitems : scope.items.Shaped)
    (h : (scope.resolve locale).outcome = .ok resolved) : resolved.Shaped :=
  forall_of_resolve ⟨trivial, List.nodup_nil⟩ (fun hbase hlayer => hbase.merge hlayer) hbases hitems
    h

end Pedigree
