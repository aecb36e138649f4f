import Pedigree.Proofs.ByteOrder
import Pedigree.Proofs.ObjectOrder

/-!
# Objects sorted by their order

What sorting promises, read off the attribute `order` of each object and nothing else. An object
has a kind of order (`Definition.orderKind?`), and of two objects of one kind either may precede
the other (`Definition.Precedes`): numbers by their nearest binary64, strings by their bytes. An
entry that cannot be sorted together with the first one of its collection has a fault
(`orderFault?`).

`Collection.sortByOrder_outcome` : a collection is sorted if all its objects have one kind of
order, else the first fault in source order is the failure. The sorted collection has the same
entries, none of them behind one that it precedes, with ties as they were (`Collection.Sorts`).
-/

namespace Pedigree

/-! ## Orders -/

namespace OrderKey

theorem number_le_eq_false_iff {x y : Binary64} :
    (number y).le (number x) = false ↔ x.scaled < y.scaled := by
  rw [← Bool.not_eq_true, le_number, Int.not_le]

theorem text_le_eq_false_iff {s t : String} : (text t).le (text s) = false ↔
    List.Lex (· < ·) s.toUTF8.data.toList t.toUTF8.data.toList := by
  rw [← Bool.not_eq_true, le_text, String.not_le, Text.lt_iff_lex_bytes]

end OrderKey

namespace Definition

/-- The order of an object as it is written. Absent and null both mean none. -/
def orderValue (object : Definition) : Value := (Entries.get? orderKey object).getD .null

/-- The kind of an object's order, none for a value that nothing is sorted by. -/
def orderKind? (object : Definition) : Option OrderKind :=
  match orderValue object with
  | .null => some .missing
  | .number _ => some .number
  | .string _ => some .text
  | .bool _ | .sequence _ | .mapping _ => none

/-- Whether the order of an object stands before that of another one: of two numbers the one with
the lesser nearest binary64, of two strings the one with the lesser bytes. -/
def Precedes (object other : Definition) : Prop :=
  match orderValue object, orderValue other with
  | .number m, .number n => m.toBinary64.scaled < n.toBinary64.scaled
  | .string s, .string t => List.Lex (· < ·) s.toUTF8.data.toList t.toUTF8.data.toList
  | _, _ => False

variable {name name' : String} {object object' : Definition} {key key' : OrderKey}

theorem order_eq (name : String) (object : Definition) :
    order name object = match orderValue object with
      | .null => .ok .missing
      | .number n => .ok (.number n.toBinary64)
      | .string s => .ok (.text s)
      | other => .error (.invalidOrder name other.kind) := by
  unfold order orderValue
  cases Entries.get? orderKey object with
  | none => rfl
  | some value => cases value <;> rfl

theorem exists_order (name : String) {kind : OrderKind} (h : orderKind? object = some kind) :
    ∃ key, order name object = .ok key ∧ key.kind = kind := by
  rw [orderKind?] at h
  rw [order_eq]
  cases hvalue : orderValue object <;> rw [hvalue] at h <;> cases h <;> exact ⟨_, rfl, rfl⟩

theorem order_eq_error (name : String) (h : orderKind? object = none) :
    order name object = .error (.invalidOrder name (orderValue object).kind) := by
  rw [orderKind?] at h
  rw [order_eq]
  cases hvalue : orderValue object <;> rw [hvalue] at h <;> cases h

/-- An object precedes another one if the keys they are sorted by say so. -/
theorem precedes_iff (h : order name object = .ok key) (h' : order name' object' = .ok key') :
    Precedes object object' ↔ key'.le key = false := by
  rw [order_eq] at h h'
  rw [Precedes]
  cases hvalue : orderValue object <;> rw [hvalue] at h <;> cases h <;>
    cases hvalue' : orderValue object' <;> rw [hvalue'] at h' <;> cases h' <;>
    simp only [OrderKey.number_le_eq_false_iff, OrderKey.text_le_eq_false_iff] <;>
    simp [OrderKey.le]

end Definition

/-! ## The first fault -/

/-- Why an entry cannot be sorted together with the first one of its collection, if it cannot. -/
def orderFault? (first entry : String × Definition) : Option Failure :=
  match first.2.orderKind?, entry.2.orderKind? with
  | _, none => some (.invalidOrder entry.1 entry.2.orderValue.kind)
  | some kind, some kind' =>
    if kind = kind' then none else some (.mixedOrder first.1 kind entry.1 kind')
  | none, some _ => none

section OrderFault

variable {first entry : String × Definition} {kind kind' : OrderKind}

theorem orderFault?_of_none (first : String × Definition) (h : entry.2.orderKind? = none) :
    orderFault? first entry = some (.invalidOrder entry.1 entry.2.orderValue.kind) := by
  simp [orderFault?, h]

theorem orderFault?_of_some (hfirst : first.2.orderKind? = some kind)
    (h : entry.2.orderKind? = some kind') : orderFault? first entry =
      if kind = kind' then none else some (.mixedOrder first.1 kind entry.1 kind') := by
  simp [orderFault?, hfirst, h]

theorem orderFault?_eq_none_iff (hfirst : first.2.orderKind? = some kind) :
    orderFault? first entry = none ↔ entry.2.orderKind? = some kind := by
  cases hkind : entry.2.orderKind? with
  | none => simp [orderFault?_of_none first hkind]
  | some kind' => simp [orderFault?_of_some hfirst hkind, eq_comm]

end OrderFault

namespace Ranked

variable {first : String × Definition} {entries : Entries String Definition} {failure : Failure}

/-- Of entries that are ranked after a first one, the first fault is the failure. -/
theorem ofEntries_some_eq_error_iff {kind : OrderKind} (hfirst : first.2.orderKind? = some kind) :
    ofEntries (some (first.1, kind)) entries = .error failure ↔
      entries.findSome? (orderFault? first) = some failure := by
  induction entries with
  | nil => simp [ofEntries]
  | cons entry rest ih =>
    rw [ofEntries, List.findSome?_cons]
    cases hkind : entry.2.orderKind? with
    | none =>
      rw [orderFault?_of_none first hkind, entry.2.order_eq_error entry.1 hkind]
      change Except.error _ = _ ↔ some _ = _
      rw [Except.error.injEq, Option.some.injEq]
    | some kind' =>
      obtain ⟨key, hkey, rfl⟩ := Definition.exists_order entry.1 hkind
      rw [hkey, orderFault?_of_some hfirst hkind]
      change (if kind = key.kind then ofEntries (some (first.1, kind)) rest >>= fun tail =>
        .ok (⟨key, entry⟩ :: tail) else .error _) = _ ↔ _
      by_cases hsame : kind = key.kind
      · rw [if_pos hsame, if_pos hsame, bind_eq_error_iff, ih, or_iff_left (by simp)]
      · rw [if_neg hsame, if_neg hsame, Except.error.injEq]
        exact Iff.symm (iff_of_eq (Option.some.injEq ..))

/-- The first entry is of its own kind. -/
theorem ofEntries_none_cons {kind : OrderKind} (hfirst : first.2.orderKind? = some kind) :
    ofEntries none (first :: entries) = ofEntries (some (first.1, kind)) (first :: entries) := by
  obtain ⟨key, hkey, rfl⟩ := Definition.exists_order first.1 hfirst
  rw [ofEntries, ofEntries, hkey]
  change _ = if key.kind = key.kind then _ else _
  rw [if_pos rfl]
  rfl

/-- The first fault is the failure. -/
theorem ofEntries_none_eq_error_iff :
    ofEntries none (first :: entries) = .error failure ↔
      (first :: entries).findSome? (orderFault? first) = some failure := by
  cases hfirst : first.2.orderKind? with
  | none =>
    rw [ofEntries, List.findSome?_cons, orderFault?_of_none first hfirst,
      first.2.order_eq_error first.1 hfirst]
    change Except.error _ = _ ↔ some _ = _
    rw [Except.error.injEq, Option.some.injEq]
  | some kind => rw [ofEntries_none_cons hfirst, ofEntries_some_eq_error_iff hfirst]

end Ranked

namespace Collection

/-- The first fault in source order. -/
def firstOrderFault? (objects : Collection) : Option Failure :=
  objects.entries.head?.bind fun first => objects.entries.findSome? (orderFault? first)

/-- All objects have one kind of order. -/
def HasOneOrderKind (objects : Collection) : Prop :=
  ∃ kind, ∀ entry ∈ objects.entries, entry.2.orderKind? = some kind

variable {objects sorted : Collection}

theorem sortByOrder_eq_error_iff {failure : Failure} :
    objects.sortByOrder = .error failure ↔ objects.firstOrderFault? = some failure := by
  have hranked : objects.sortByOrder = .error failure ↔
      Ranked.ofEntries none objects.entries = .error failure := by
    unfold sortByOrder
    split <;> simp [*]
  rw [hranked, firstOrderFault?]
  cases objects.entries with
  | nil => simp [Ranked.ofEntries]
  | cons first rest => exact Ranked.ofEntries_none_eq_error_iff

/-- There is no fault if all objects have one kind of order. -/
theorem firstOrderFault?_eq_none_iff :
    objects.firstOrderFault? = none ↔ objects.HasOneOrderKind := by
  unfold firstOrderFault? HasOneOrderKind
  cases objects.entries with
  | nil => exact iff_of_true rfl ⟨.missing, List.forall_mem_nil _⟩
  | cons first rest =>
    rw [List.head?_cons, Option.bind_some, List.findSome?_eq_none_iff]
    cases hfirst : first.2.orderKind? with
    | none =>
      have hfault := orderFault?_of_none first hfirst
      refine iff_of_false (fun h => ?_) ?_
      · rw [h first (List.mem_cons_self ..)] at hfault
        cases hfault
      · rintro ⟨kind, h⟩
        rw [h first (List.mem_cons_self ..)] at hfirst
        cases hfirst
    | some kind =>
      simp only [orderFault?_eq_none_iff hfirst]
      refine ⟨fun h => ⟨kind, h⟩, ?_⟩
      rintro ⟨kind', h⟩
      obtain rfl := Option.some.inj (hfirst.symm.trans (h first (List.mem_cons_self ..)))
      exact h

theorem exists_sortByOrder_iff :
    (∃ sorted, objects.sortByOrder = .ok sorted) ↔ objects.HasOneOrderKind := by
  rw [← firstOrderFault?_eq_none_iff]
  cases h : objects.sortByOrder with
  | error failure => simp [sortByOrder_eq_error_iff.1 h]
  | ok sorted =>
    refine iff_of_true ⟨sorted, rfl⟩ ?_
    cases hfault : objects.firstOrderFault? with
    | none => rfl
    | some failure =>
      rw [sortByOrder_eq_error_iff.2 hfault] at h
      cases h

/-! ## The sorted collection -/

/-- The second collection is the first one sorted. -/
structure Sorts (objects sorted : Collection) : Prop where
  /-- The entries are the same, each as often as before. -/
  perm : sorted.entries.Perm objects.entries
  /-- No entry stands behind one that it precedes. -/
  ascending : sorted.entries.Pairwise fun earlier later => ¬later.2.Precedes earlier.2
  /-- Of two entries that do not precede each other, the earlier one stays before the later one. -/
  stable : ∀ earlier later, [earlier, later].Sublist objects.entries →
    ¬earlier.2.Precedes later.2 → ¬later.2.Precedes earlier.2 →
    [earlier, later].Sublist sorted.entries
  /-- Sorting once more changes nothing. -/
  again : sorted.sortByOrder = .ok sorted

theorem exists_pair_sublist_of_map {α β : Type} {f : α → β} {l : List α} {x y : β}
    (h : [x, y].Sublist (l.map f)) : ∃ a b, f a = x ∧ f b = y ∧ [a, b].Sublist l := by
  obtain ⟨pair, hpair, hmap⟩ := List.sublist_map_iff.1 h
  obtain ⟨a, rest, rfl, rfl, hrest⟩ := List.map_eq_cons_iff.1 hmap.symm
  obtain ⟨b, none, rfl, rfl, hnone⟩ := List.map_eq_cons_iff.1 hrest
  obtain rfl := List.map_eq_nil_iff.1 hnone
  exact ⟨a, b, rfl, rfl, hpair⟩

theorem sorts_of_sortByOrder (h : objects.sortByOrder = .ok sorted) : objects.Sorts sorted := by
  obtain ⟨ranked, hranks, hkind, hsorted⟩ := sortByOrder_eq_ok_iff.1 h
  have hentries := Ranked.map_entry_ofEntries (Ranked.ofEntries_eq_ok_iff.2 ⟨hranks, hkind⟩)
  have horder : ∀ r ∈ ranked, Definition.order r.entry.1 r.entry.2 = .ok r.key :=
    fun r hr => (Ranked.of_mem_ranked hranks hr).2
  have hprecedes : ∀ r ∈ ranked, ∀ r' ∈ ranked,
      Definition.Precedes r.entry.2 r'.entry.2 ↔ Ranked.le r' r = false :=
    fun r hr r' hr' => Definition.precedes_iff (horder r hr) (horder r' hr')
  have hperm := List.mergeSort_perm ranked Ranked.le
  refine ⟨perm_sortByOrder h, ?_, fun earlier later hsub _ hnot => ?_, ?_⟩
  · rw [hsorted, List.pairwise_map]
    refine (Ranked.pairwise_sort hkind).imp_of_mem fun {r r'} hr hr' hle => ?_
    rw [hprecedes r' (hperm.mem_iff.1 hr') r (hperm.mem_iff.1 hr), hle]
    decide
  · rw [← hentries] at hsub
    obtain ⟨r, r', rfl, rfl, hpair⟩ := exists_pair_sublist_of_map hsub
    rw [hprecedes r' (hpair.subset (by simp)) r (hpair.subset (by simp)), Bool.not_eq_false] at hnot
    rw [hsorted]
    exact (Ranked.pair_sublist_sort hkind hnot hpair).map Ranked.entry
  · refine sortByOrder_eq_ok_iff.2 ⟨ranked.mergeSort Ranked.le, ?_, ?_, ?_⟩
    · rw [hsorted, List.forall₂_map_left_iff, List.forall₂_same]
      exact fun r hr => ⟨rfl, horder r (hperm.mem_iff.1 hr)⟩
    · exact fun r hr r' hr' => hkind r (hperm.mem_iff.1 hr) r' (hperm.mem_iff.1 hr')
    · rw [hsorted, List.mergeSort_of_pairwise (Ranked.pairwise_sort hkind)]

/-- Objects are sorted if all of them have one kind of order, and are then the same entries,
ascending, with ties in source order. If not, the failure is the first fault in source order: an
order that nothing is sorted by, or one of another kind than the first entry's. -/
theorem sortByOrder_outcome (objects : Collection) :
    ((∃ sorted, objects.sortByOrder = .ok sorted) ↔ objects.HasOneOrderKind) ∧
    (∀ sorted, objects.sortByOrder = .ok sorted → objects.Sorts sorted) ∧
    ∀ failure, objects.sortByOrder = .error failure ↔ objects.firstOrderFault? = some failure :=
  ⟨exists_sortByOrder_iff, fun _ h => sorts_of_sortByOrder h, fun _ => sortByOrder_eq_error_iff⟩

end Collection

end Pedigree
