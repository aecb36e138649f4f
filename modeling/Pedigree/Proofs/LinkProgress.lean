import Pedigree.Proofs.PropertyLinks

/-!
# How far linking gets

Linking works in place, so a failure leaves objects behind that are linked in part. What a sweep has
done when it ends is the same at both levels (`Entries.Advances`) : if no visit fails every value
is what its visit makes of it, and if one fails this holds of the values before it, the value at
this place is what the failed visit leaves, and all that follows is untouched.

Linking one property (`Collection.LinksProperty`), one object (`Definition.LinksTo`) and all objects
(`Collection.link_advances`) are described with it. An override is put on top of its global
definition once, the first property without a global definition and the first object whose
properties are no mapping stop everything, and only values of property mappings change
(`Definition.ChangesOverrides`).
-/

namespace Pedigree

/-! ## Sweeps -/

namespace Entries

variable {κ α : Type} {visit : κ → α → Logged Failure Unit × α} {entries other : Entries κ α}
  {V : κ × α → Except Failure Unit → α → Prop}

/-- The values are replaced in order, as far as the first one that fails, which ends it. -/
inductive Advances (V : κ × α → Except Failure Unit → α → Prop) :
    Entries κ α → Except Failure Unit → Entries κ α → Prop
  | all {entries swept : Entries κ α} (h : Lists Prod.fst (V · (.ok ())) entries swept) :
    Advances V entries (.ok ()) swept
  | upTo {before swept rest : Entries κ α} {key : κ} {value left : α} {failure : Failure}
    (h : Lists Prod.fst (V · (.ok ())) before swept)
    (hstop : V (key, value) (.error failure) left) :
    Advances V (before ++ (key, value) :: rest) (.error failure) (swept ++ (key, left) :: rest)

theorem Advances.cons {key : κ} {value value' : α} {outcome : Except Failure Unit}
    (hfirst : V (key, value) (.ok ()) value') (h : Advances V entries outcome other) :
    Advances V ((key, value) :: entries) outcome ((key, value') :: other) := by
  cases h with
  | all h => exact .all (.cons ⟨rfl, hfirst⟩ h)
  | upTo h hstop =>
    rw [← List.cons_append, ← List.cons_append]
    exact .upTo (.cons ⟨rfl, hfirst⟩ h) hstop

/-- A sweep advances as its visits say. -/
theorem advances_sweep (entries : Entries κ α)
    (h : ∀ key value, V (key, value) (visit key value).1.outcome (visit key value).2) :
    Advances V entries (sweep visit entries).1.outcome (sweep visit entries).2 := by
  induction entries with
  | nil => exact .all .nil
  | cons entry rest ih =>
    obtain ⟨key, value⟩ := entry
    have hvisit := h key value
    cases houtcome : (visit key value).1.outcome with
    | ok =>
      rw [houtcome] at hvisit
      rw [(sweep_cons_of_ok houtcome rest).1, (sweep_cons_of_ok houtcome rest).2]
      exact ih.cons hvisit
    | error failure =>
      rw [houtcome] at hvisit
      rw [(sweep_cons_of_error houtcome rest).1, (sweep_cons_of_error houtcome rest).2]
      have hnone : Lists Prod.fst (V · (.ok ())) [] [] := .nil
      exact Advances.upTo hnone hvisit

/-- What holds between a value and what any visit leaves of it holds of all values, if it holds
between a value and itself. -/
theorem Advances.lists {R : κ × α → α → Prop} {outcome : Except Failure Unit}
    (h : Advances V entries outcome other)
    (hvisit : ∀ entry outcome value, V entry outcome value → R entry value)
    (hsame : ∀ entry, R entry entry.2) : Lists Prod.fst R entries other := by
  have hrest : ∀ rest : Entries κ α, Lists Prod.fst R rest rest := fun rest =>
    List.forall₂_same.2 fun entry _ => ⟨rfl, hsame entry⟩
  have hdone {before swept : Entries κ α} (hlists : Lists Prod.fst (V · (.ok ())) before swept) :
      Lists Prod.fst R before swept :=
    List.Forall₂.imp (fun _ _ hentry => ⟨hentry.1, hvisit _ _ _ hentry.2⟩) hlists
  cases h with
  | all h => exact hdone h
  | upTo h hstop => exact List.rel_append (hdone h) (.cons ⟨rfl, hvisit _ _ _ hstop⟩ (hrest _))

theorem Advances.keys_eq {outcome : Except Failure Unit} (h : Advances V entries outcome other) :
    keys other = keys entries :=
  (h.lists (R := fun _ _ => True) (fun _ _ _ _ => trivial) fun _ => trivial).keys_eq

/-- The other entries are the same, but for the value of the first entry with the key. -/
def Replaces (key : κ) (old new : α) (entries other : Entries κ α) : Prop :=
  ∃ front back, key ∉ keys front ∧ entries = front ++ (key, old) :: back ∧
    other = front ++ (key, new) :: back

theorem replaces_insert [DecidableEq κ] {key : κ} {old : α} (h : get? key entries = some old)
    (new : α) : Replaces key old new entries (insert key new entries) := by
  induction entries with
  | nil => cases h
  | cons entry rest ih =>
    obtain ⟨k, v⟩ := entry
    rw [get?_cons] at h
    by_cases hk : k = key
    · rw [if_pos hk] at h
      obtain rfl := Option.some.inj h
      exact ⟨[], rest, by simp, by rw [hk]; rfl, by rw [insert, if_pos hk]; rfl⟩
    · rw [if_neg hk] at h
      obtain ⟨front, back, hfront, hrest, hother⟩ := ih h
      refine ⟨(k, v) :: front, back, ?_, by rw [hrest]; rfl, ?_⟩
      · simpa [Ne.symm hk] using hfront
      · rw [insert, if_neg hk, hother]
        rfl

end Entries

/-! ## Links -/

namespace Collection

/-- Linking a property of an object: an override is put on top of the global definition of its
name. One without a global definition is refused and left as it is. -/
inductive LinksProperty (globals : Collection) (object : String) (override : String × Value) :
    Except Failure Unit → Value → Prop
  | linked {definition : Definition} (h : globals.get? override.1 = some definition) :
    LinksProperty globals object override (.ok ()) ((Value.mapping definition).merge override.2)
  | undefined (h : override.1 ∉ globals.keys) :
    LinksProperty globals object override (.error (.undefinedProperty object override.1)) override.2

end Collection

namespace Definition

/-- Linking an object: missing and null properties are left alone, and so are properties of
another kind, which are refused. In a mapping the overrides are linked in order. -/
inductive LinksTo (globals : Collection) (name : String) (object : Definition) :
    Except Failure Unit → Definition → Prop
  | missing (h : Entries.get? propertiesKey object = none) :
    LinksTo globals name object (.ok ()) object
  | null (h : Entries.get? propertiesKey object = some .null) :
    LinksTo globals name object (.ok ()) object
  | refused {value : Value} (h : Entries.get? propertiesKey object = some value)
    (hnull : value.kind ≠ .null) (hmapping : value.kind ≠ .mapping) :
    LinksTo globals name object (.error (.invalidProperties name value.kind)) object
  | overrides {old new : Entries String Value} {linked : Definition} {outcome : Except Failure Unit}
    (hlinked : Entries.Replaces propertiesKey (.mapping old) (.mapping new) object linked)
    (h : Entries.Advances (globals.LinksProperty name) old outcome new) :
    LinksTo globals name object outcome linked

/-- The other object is the same but for values within its mapping of properties. -/
def ChangesOverrides (object other : Definition) : Prop :=
  other = object ∨ ∃ old new, Entries.keys new = Entries.keys old ∧
    Entries.Replaces propertiesKey (.mapping old) (.mapping new) object other

variable {globals : Collection} {name : String} {object linked : Definition}

theorem linksProperty_linkProperty (globals : Collection) (name property : String)
    (override : Value) :
    globals.LinksProperty name (property, override)
      (link.linkProperty globals name property override).1.outcome
      (link.linkProperty globals name property override).2 := by
  unfold link.linkProperty
  cases hget : globals.get? property with
  | none => exact .undefined (OrderedMap.get?_eq_none_iff.1 hget)
  | some definition => exact .linked hget

theorem linksTo_link (globals : Collection) (name : String) (object : Definition) :
    LinksTo globals name object (link globals name object).1.outcome
      (link globals name object).2 := by
  unfold link
  split
  · rename_i hget
    exact .missing hget
  · rename_i hget
    exact .null hget
  · rename_i overrides hget
    exact .overrides (Entries.replaces_insert hget _)
      (Entries.advances_sweep overrides (linksProperty_linkProperty globals name))
  · rename_i _ value hnull hmapping hget
    have hkind : value.kind ≠ .null ∧ value.kind ≠ .mapping := by
      cases value <;> simp_all [Value.kind]
    exact .refused hget hkind.1 hkind.2

theorem LinksTo.changesOverrides {outcome : Except Failure Unit}
    (h : LinksTo globals name object outcome linked) : object.ChangesOverrides linked := by
  cases h with
  | missing | null | refused => exact Or.inl rfl
  | overrides hlinked h => exact Or.inr ⟨_, _, h.keys_eq, hlinked⟩

end Definition

/-- Linking changes nothing but values within the property mappings of objects, whether it
succeeds or not. It links object by object, and property by property, up to the first that it
refuses, whose failure it reports. -/
theorem Collection.link_advances (globals objects : Collection) :
    Entries.Lists Prod.fst (fun object => Definition.ChangesOverrides object.2) objects.entries
      (link globals objects).2.entries ∧
    Entries.Advances (fun object => Definition.LinksTo globals object.1 object.2) objects.entries
      (link globals objects).1.outcome (link globals objects).2.entries := by
  have hadvances : Entries.Advances (fun object => Definition.LinksTo globals object.1 object.2)
      objects.entries (link globals objects).1.outcome (link globals objects).2.entries :=
    Entries.advances_sweep objects.entries (Definition.linksTo_link globals)
  exact ⟨hadvances.lists (fun _ _ _ hobject => hobject.changesOverrides) fun _ => Or.inl rfl,
    hadvances⟩

end Pedigree
