import Pedigree.Definition
import Pedigree.Proofs.Paths

/-!
# Grouping three layers

A layer may be merged with the one above it first, or with the one below it, as long as it nowhere
forgets what stands below : a value of another kind between two mappings, or between two sequences,
hides the lower one in one grouping and not in the other (`Value.ResetAt`). Without such a path
both groupings have the same keys in the same order, and at each key the question is that of the
values there (`Value.merge_assoc`). So an overlay may be merged into a definition before or after
the definition goes onto its base (`Definition.regroup_without_reset`).
-/

namespace Pedigree

namespace Value

variable {a b c : Value}

/-- At this path a value of another kind stands between two mappings or two sequences. -/
def ResetAt (a b c : Value) (path : List String) : Prop :=
  ∃ below between above, a.lookup path = some below ∧ b.lookup path = some between ∧
    c.lookup path = some above ∧ between.kind ≠ below.kind ∧
      (below.kind = .mapping ∧ above.kind = .mapping ∨
        below.kind = .sequence ∧ above.kind = .sequence)

/-- A path into the values of a key is a path into the mappings. -/
theorem ResetAt.cons {key : String} {path : List String} {x y z : List (String × Value)}
    (h : a.ResetAt b c path) (ha : Entries.get? key x = some a) (hb : Entries.get? key y = some b)
    (hc : Entries.get? key z = some c) :
    (mapping x).ResetAt (mapping y) (mapping z) (key :: path) := by
  obtain ⟨below, between, above, hbelow, hbetween, habove, hkinds⟩ := h
  refine ⟨below, between, above, ?_, ?_, ?_, hkinds⟩
  · rw [lookup_mapping_cons, ha, Option.bind_some, hbelow]
  · rw [lookup_mapping_cons, hb, Option.bind_some, hbetween]
  · rw [lookup_mapping_cons, hc, Option.bind_some, habove]

/-- Mappings reset nothing themselves, only the values of a key that all three of them have. -/
theorem not_resetAt_mapping {x y z : List (String × Value)}
    (h : ∀ key a b c, Entries.get? key x = some a → Entries.get? key y = some b →
      Entries.get? key z = some c → ∀ path, ¬a.ResetAt b c path) (path : List String) :
    ¬(mapping x).ResetAt (mapping y) (mapping z) path := by
  rintro ⟨below, between, above, hbelow, hbetween, habove, hne, hkinds⟩
  cases path with
  | nil =>
    obtain rfl := Option.some.inj hbelow
    obtain rfl := Option.some.inj hbetween
    exact hne rfl
  | cons key path =>
    rw [lookup_mapping_cons, Option.bind_eq_some_iff] at hbelow hbetween habove
    obtain ⟨a, ha, hbelow⟩ := hbelow
    obtain ⟨b, hb, hbetween⟩ := hbetween
    obtain ⟨c, hc, habove⟩ := habove
    exact h key a b c ha hb hc path
      ⟨below, between, above, hbelow, hbetween, habove, hne, hkinds⟩

/-- Neither do values of which the lower two are sequences. -/
theorem not_resetAt_sequence (items layer : List Value) (path : List String) :
    ¬(sequence items).ResetAt (sequence layer) c path := by
  rintro ⟨below, between, above, hbelow, hbetween, -, hne, -⟩
  cases path with
  | nil =>
    obtain rfl := Option.some.inj hbelow
    obtain rfl := Option.some.inj hbetween
    exact hne rfl
  | cons key path =>
    rw [lookup_cons_of_kind_ne key path (by simp [kind])] at hbelow
    cases hbelow

/-- The keys of three layers come in the same order in both groupings. -/
theorem keys_mergeEntries_assoc (x : List (String × Value)) {y z : List (String × Value)}
    (hy : (Entries.keys y).Nodup) (hz : (Entries.keys z).Nodup) :
    Entries.keys (mergeEntries (mergeEntries x y) z) =
      Entries.keys (mergeEntries x (mergeEntries y z)) := by
  rw [keys_mergeEntries _ hz, keys_mergeEntries _ hy,
    keys_mergeEntries _ (nodup_keys_mergeEntries hy hz), keys_mergeEntries _ hz,
    List.filter_append, List.filter_filter, List.append_assoc]
  congr 3
  funext key
  by_cases hkey : key ∈ Entries.keys x <;> simp [hkey]

/-- The values of a key are the same in both groupings if they may be grouped either way. -/
theorem get?_mergeEntries_assoc (x : List (String × Value)) {y z : List (String × Value)}
    (hy : (Entries.keys y).Nodup) (hz : (Entries.keys z).Nodup) {key : String}
    (h : ∀ a b c, Entries.get? key x = some a → Entries.get? key y = some b →
      Entries.get? key z = some c → (a.merge b).merge c = a.merge (b.merge c)) :
    Entries.get? key (mergeEntries (mergeEntries x y) z) =
      Entries.get? key (mergeEntries x (mergeEntries y z)) := by
  rw [get?_mergeEntries _ hz, get?_mergeEntries _ hy,
    get?_mergeEntries _ (nodup_keys_mergeEntries hy hz), get?_mergeEntries _ hz]
  cases hc : Entries.get? key z with
  | none => rfl
  | some c =>
    cases hb : Entries.get? key y with
    | none => rfl
    | some b =>
      cases ha : Entries.get? key x with
      | none => rfl
      | some a => exact congrArg some (h a b c ha hb hc)

/-- A middle value of another kind than the upper one hides what stands below. -/
theorem merge_assoc_of_hidden (hkind : b.kind ≠ c.kind) (h : ¬a.ResetAt b c []) :
    (a.merge b).merge c = a.merge (b.merge c) := by
  have habove : (a.merge b).kind ≠ c.kind := by rwa [kind_merge]
  rw [merge_of_kind_ne habove, merge_of_kind_ne hkind]
  by_cases hsame : a.kind = c.kind
  · have hscalar : c.isScalar = true := by
      by_contra hscalar
      refine h ⟨a, b, c, rfl, rfl, rfl, hsame ▸ hkind, ?_⟩
      rw [hsame]
      cases c <;> simp_all [isScalar, kind]
    exact (merge_of_isScalar a hscalar).symm
  · exact (merge_of_kind_ne hsame).symm

/-- Both layers hide a lowest value of another kind. -/
theorem merge_assoc_of_covered (hkind : a.kind ≠ b.kind) (hsame : b.kind = c.kind) :
    (a.merge b).merge c = a.merge (b.merge c) := by
  have habove : a.kind ≠ (b.merge c).kind := by rwa [kind_merge, ← hsame]
  rw [merge_of_kind_ne hkind, merge_of_kind_ne habove]

/-- Three layers without a reset may be grouped either way. -/
theorem merge_assoc (ha : a.WellFormed) (hb : b.WellFormed) (hc : c.WellFormed)
    (h : ∀ path, ¬a.ResetAt b c path) : (a.merge b).merge c = a.merge (b.merge c) := by
  induction hc generalizing a b with
  | @scalar c hscalar =>
    have habove : (b.merge c).isScalar = true := by rwa [merge_of_isScalar b hscalar]
    rw [merge_of_isScalar _ hscalar, merge_of_isScalar _ habove, merge_of_isScalar _ hscalar]
  | @sequence items hitems ih =>
    by_cases hbetween : b.kind = .sequence
    · by_cases hbelow : a.kind = .sequence
      · cases a <;> simp only [kind, reduceCtorEq] at hbelow
        cases b <;> simp only [kind, reduceCtorEq] at hbetween
        simp only [merge_sequence, List.append_assoc]
      · exact merge_assoc_of_covered (hbetween ▸ hbelow) hbetween
    · exact merge_assoc_of_hidden hbetween (h [])
  | @mapping z hz hvalues ih =>
    by_cases hbetween : b.kind = .mapping
    · by_cases hbelow : a.kind = .mapping
      · cases a <;> simp only [kind, reduceCtorEq] at hbelow
        cases b <;> simp only [kind, reduceCtorEq] at hbetween
        rename_i x y
        obtain ⟨hx, hbelow⟩ := wellFormed_mapping_iff.1 ha
        obtain ⟨hy, hbetween⟩ := wellFormed_mapping_iff.1 hb
        have hdistinct := nodup_keys_mergeEntries (nodup_keys_mergeEntries hx hy) hz
        simp only [merge_mapping]
        refine congrArg mapping (Entries.ext_get? hdistinct (keys_mergeEntries_assoc x hy hz) ?_)
        intro key
        refine get?_mergeEntries_assoc x hy hz fun a b c ha hb hc => ?_
        exact ih (key, c) (Entries.mem_of_get? hc) (hbelow _ (Entries.mem_of_get? ha))
          (hbetween _ (Entries.mem_of_get? hb)) fun path hreset => h _ (hreset.cons ha hb hc)
      · exact merge_assoc_of_covered (hbetween ▸ hbelow) hbetween
    · exact merge_assoc_of_hidden hbetween (h [])

end Value

namespace Definition

open Value

/-- Three layers that reset nothing between them may be grouped either way. So an overlay may be
merged into a definition before or after the definition is merged onto its base. -/
theorem regroup_without_reset :
    (∀ a b c : Value, a.WellFormed → b.WellFormed → c.WellFormed →
      (∀ path, ¬a.ResetAt b c path) → (a.merge b).merge c = a.merge (b.merge c)) ∧
    ∀ (collection : Collection) (locale : Option String) (name : String)
      (parent definition overlay : Definition),
      collection.overlay? locale name = some overlay → (mapping parent).WellFormed →
      (mapping definition).WellFormed → (mapping overlay).WellFormed →
      (∀ path, ¬(mapping parent).ResetAt (mapping definition) (mapping overlay) path) →
      parent.merge (collection.localized locale name definition) =
        (parent.merge definition).merge overlay := by
  refine ⟨fun a b c ha hb hc h => merge_assoc ha hb hc h, ?_⟩
  intro collection locale name parent definition overlay hoverlay ha hb hc h
  have hvalues := merge_assoc ha hb hc h
  simp only [merge_mapping] at hvalues
  rw [Collection.localized, hoverlay]
  exact (mapping.inj hvalues).symm

/-- A base, a definition that resets one of its entries and adds to another, and an overlay that
adds to that one as well. -/
theorem regroup_without_reset_tags :
    let parent : Definition := [("tags", .sequence [.string "a"]), ("unit", .mapping [])]
    let definition : Definition := [("unit", .null), ("tags", .sequence [.string "b"])]
    let overlay : Definition := [("name", .null), ("tags", .sequence [.string "c"])]
    let items : Collection := ⟨[("sensor", definition), ("sensor.de", overlay)], by decide⟩
    items.overlay? (some "de") "sensor" = some overlay ∧ (mapping parent).WellFormed ∧
      (mapping definition).WellFormed ∧ (mapping overlay).WellFormed ∧
      (∀ path, ¬(mapping parent).ResetAt (mapping definition) (mapping overlay) path) ∧
      parent.merge (items.localized (some "de") "sensor" definition) =
        (parent.merge definition).merge overlay ∧
      ((mapping parent).merge (mapping definition)).merge (mapping overlay) =
        (mapping parent).merge ((mapping definition).merge (mapping overlay)) := by
  intro parent definition overlay items
  have hoverlay : items.overlay? (some "de") "sensor" = some overlay := by rfl
  have hparent : (mapping parent).WellFormed := by simp [parent]
  have hdefinition : (mapping definition).WellFormed := by simp [definition]
  have hvalue : (mapping overlay).WellFormed := by simp [overlay]
  have hreset : ∀ path, ¬(mapping parent).ResetAt (mapping definition) (mapping overlay) path := by
    refine not_resetAt_mapping fun key a b c ha hb hc => ?_
    have hkey : key = "tags" ∨ key = "unit" := by
      simpa [parent] using List.mem_map_of_mem (f := Prod.fst) (Entries.mem_of_get? ha)
    rcases hkey with rfl | rfl
    · obtain rfl : Value.sequence [.string "a"] = a := Option.some.inj ha
      obtain rfl : Value.sequence [.string "b"] = b := Option.some.inj hb
      exact not_resetAt_sequence _ _
    · cases (hc : none = some c)
  obtain ⟨hvalues, hlayers⟩ := regroup_without_reset
  exact ⟨hoverlay, hparent, hdefinition, hvalue, hreset,
    hlayers _ _ _ _ _ _ hoverlay hparent hdefinition hvalue hreset,
    hvalues _ _ _ hparent hdefinition hvalue hreset⟩

end Definition

end Pedigree
