import Mathlib.Data.List.Perm.Basic
import Pedigree.Order

/-!
# Objects by their order

Objects can be sorted if each of them has an order and all orders are of one kind
(`Ranked.ofEntries_eq_ok_iff`). Among keys of one kind `OrderKey.le` is a total preorder. It is
none among keys of several kinds, where a number and another one can both stand beside a missing
order, so a sorted list is known to ascend only because its kinds are the same
(`Ranked.pairwise_sort`).

Where no two orders tie, the sorted list is the only ascending one with these objects. So it does
not depend on the order they came in (`Collection.sortByOrder_of_perm`).
-/

namespace Pedigree

/-! ## Keys -/

namespace OrderKey

theorem le_number (a b : Binary64) :
    (number a).le (number b) = true ↔ a.scaled ≤ b.scaled :=
  decide_eq_true_iff

theorem le_text (s t : String) : (text s).le (text t) = true ↔ s ≤ t := by
  rw [le, decide_eq_true_iff, String.not_lt]

theorem le_total (x y : OrderKey) : (x.le y || y.le x) = true := by
  rw [Bool.or_eq_true]
  cases x with
  | missing => exact Or.inl rfl
  | number a =>
    cases y with
    | number b => simpa only [le_number] using Int.le_total a.scaled b.scaled
    | _ => exact Or.inl rfl
  | text s =>
    cases y with
    | text t => simpa only [le_text] using String.le_total s t
    | _ => exact Or.inl rfl

/-- Among keys of one kind the comparison is transitive. -/
theorem le_trans {x y z : OrderKey} (hxy : x.kind = y.kind) (hyz : y.kind = z.kind)
    (h : x.le y = true) (h' : y.le z = true) : x.le z = true := by
  cases x <;> cases y <;> simp only [kind, reduceCtorEq] at hxy <;>
    cases z <;> simp only [kind, reduceCtorEq] at hyz
  · rfl
  · rw [le_number] at h h' ⊢
    exact Int.le_trans h h'
  · rw [le_text] at h h' ⊢
    exact String.le_trans h h'

/-- Neither key comes after the other. -/
def Tied (x y : OrderKey) : Prop := x.le y = true ∧ y.le x = true

end OrderKey

section MergeSort

variable {α : Type} {le : α → α → Bool} {l : List α}

/-- Sorted with the proofs that they are members, a list has nothing but members to compare. -/
theorem map_val_mergeSort_attach (le : α → α → Bool) (l : List α) :
    (l.attach.mergeSort fun a b => le a.1 b.1).map Subtype.val = l.mergeSort le := by
  have hmap : (l.attach.mergeSort fun a b => le a.1 b.1).map Subtype.val =
      (l.attach.map Subtype.val).mergeSort le :=
    List.map_mergeSort fun _ _ _ _ => rfl
  rwa [List.attach_map_subtype_val] at hmap

/-- A sorted list ascends if the comparison is a total preorder among its members. -/
theorem pairwise_mergeSort_of_mem
    (trans : ∀ a ∈ l, ∀ b ∈ l, ∀ c ∈ l, le a b = true → le b c = true → le a c = true)
    (total : ∀ a ∈ l, ∀ b ∈ l, (le a b || le b a) = true) :
    (l.mergeSort le).Pairwise fun a b => le a b = true := by
  rw [← map_val_mergeSort_attach, List.pairwise_map]
  exact List.pairwise_mergeSort (fun a b c => trans a.1 a.2 b.1 b.2 c.1 c.2)
    (fun a b => total a.1 a.2 b.1 b.2) l.attach

/-- Members that are in order stay in it, if the comparison is a total preorder among all. -/
theorem sublist_mergeSort_of_mem
    (trans : ∀ a ∈ l, ∀ b ∈ l, ∀ c ∈ l, le a b = true → le b c = true → le a c = true)
    (total : ∀ a ∈ l, ∀ b ∈ l, (le a b || le b a) = true) {kept : List α}
    (hpairwise : kept.Pairwise fun a b => le a b = true) (hsub : kept.Sublist l) :
    kept.Sublist (l.mergeSort le) := by
  rw [← l.attach_map_subtype_val] at hsub
  obtain ⟨attached, hattached, rfl⟩ := List.sublist_map_iff.1 hsub
  rw [List.pairwise_map] at hpairwise
  rw [← map_val_mergeSort_attach]
  exact (List.sublist_mergeSort (fun a b c => trans a.1 a.2 b.1 b.2 c.1 c.2)
    (fun a b => total a.1 a.2 b.1 b.2) hpairwise hattached).map Subtype.val

end MergeSort

/-! ## Objects and their keys -/

namespace Ranked

/-- The entry with its order. -/
def Ranks (entry : String × Definition) (ranked : Ranked) : Prop :=
  ranked.entry = entry ∧ Definition.order entry.1 entry.2 = .ok ranked.key

/-- All orders are of one kind. -/
def OneKind (ranked : List Ranked) : Prop :=
  ∀ a ∈ ranked, ∀ b ∈ ranked, a.key.kind = b.key.kind

/-- The comparison that objects are sorted by. -/
def le (a b : Ranked) : Bool := a.key.le b.key

variable {entries : Entries String Definition} {ranked : List Ranked}

theorem ofEntries_some_eq_ok_iff {first : String} {kind : OrderKind} :
    ofEntries (some (first, kind)) entries = .ok ranked ↔
      List.Forall₂ Ranks entries ranked ∧ ∀ r ∈ ranked, r.key.kind = kind := by
  induction entries generalizing ranked with
  | nil =>
    rw [ofEntries, Except.ok.injEq, List.forall₂_nil_left_iff]
    refine ⟨?_, fun h => h.1.symm⟩
    rintro rfl
    exact ⟨rfl, by simp⟩
  | cons entry rest ih =>
    obtain ⟨name, object⟩ := entry
    rw [ofEntries, bind_eq_ok_iff, List.forall₂_cons_left_iff]
    constructor
    · rintro ⟨key, hkey, h⟩
      dsimp only at h
      split at h
      · rename_i hkind
        obtain ⟨tail, htail, h⟩ := bind_eq_ok_iff.1 h
        obtain rfl := Except.ok.inj h
        obtain ⟨hranks, hkinds⟩ := ih.1 htail
        exact ⟨⟨_, tail, ⟨rfl, hkey⟩, hranks, rfl⟩, List.forall_mem_cons.2 ⟨hkind.symm, hkinds⟩⟩
      · cases h
    · rintro ⟨⟨⟨key, _⟩, tail, ⟨rfl, hkey⟩, hranks, rfl⟩, hkinds⟩
      obtain ⟨hkind, hkinds⟩ := List.forall_mem_cons.1 hkinds
      refine ⟨key, hkey, ?_⟩
      dsimp only
      rw [if_pos hkind.symm]
      exact bind_eq_ok_iff.2 ⟨tail, ih.2 ⟨hranks, hkinds⟩, rfl⟩

/-- Entries are ranked if each has an order and all orders are of one kind. -/
theorem ofEntries_eq_ok_iff :
    ofEntries none entries = .ok ranked ↔ List.Forall₂ Ranks entries ranked ∧ OneKind ranked := by
  cases entries with
  | nil =>
    rw [ofEntries, Except.ok.injEq, List.forall₂_nil_left_iff]
    refine ⟨?_, fun h => h.1.symm⟩
    rintro rfl
    exact ⟨rfl, by simp [OneKind]⟩
  | cons entry rest =>
    obtain ⟨name, object⟩ := entry
    rw [ofEntries, bind_eq_ok_iff, List.forall₂_cons_left_iff]
    constructor
    · rintro ⟨key, hkey, h⟩
      obtain ⟨tail, htail, h⟩ := bind_eq_ok_iff.1 h
      obtain rfl := Except.ok.inj h
      obtain ⟨hranks, hkinds⟩ := ofEntries_some_eq_ok_iff.1 htail
      have hall : ∀ r ∈ (⟨key, (name, object)⟩ :: tail : List Ranked), r.key.kind = key.kind :=
        List.forall_mem_cons.2 ⟨rfl, hkinds⟩
      exact ⟨⟨_, tail, ⟨rfl, hkey⟩, hranks, rfl⟩,
        fun a ha b hb => (hall a ha).trans (hall b hb).symm⟩
    · rintro ⟨⟨⟨key, _⟩, tail, ⟨rfl, hkey⟩, hranks, rfl⟩, hkinds⟩
      have htail : ∀ r ∈ tail, r.key.kind = key.kind := fun r hr =>
        hkinds r (List.mem_cons_of_mem _ hr) _ (List.mem_cons_self ..)
      exact ⟨key, hkey, bind_eq_ok_iff.2
        ⟨tail, ofEntries_some_eq_ok_iff.2 ⟨hranks, htail⟩, rfl⟩⟩

theorem of_mem_ranked (h : List.Forall₂ Ranks entries ranked) {r : Ranked} (hr : r ∈ ranked) :
    r.entry ∈ entries ∧ Definition.order r.entry.1 r.entry.2 = .ok r.key := by
  induction h with
  | nil => cases hr
  | cons hranks _ ih =>
    rcases List.mem_cons.1 hr with rfl | hr
    · rw [hranks.1]
      exact ⟨List.mem_cons_self .., hranks.2⟩
    · exact (ih hr).imp_left (List.mem_cons_of_mem _)

theorem OneKind.le_trans (h : OneKind ranked) : ∀ a ∈ ranked, ∀ b ∈ ranked, ∀ c ∈ ranked,
    le a b = true → le b c = true → le a c = true :=
  fun a ha b hb c hc => OrderKey.le_trans (h a ha b hb) (h b hb c hc)

theorem le_total (a b : Ranked) : (le a b || le b a) = true := OrderKey.le_total a.key b.key

/-- Sorted objects of one kind of order ascend. -/
theorem pairwise_sort (h : OneKind ranked) :
    (ranked.mergeSort le).Pairwise fun a b => le a b = true :=
  pairwise_mergeSort_of_mem h.le_trans fun a _ b _ => le_total a b

/-- Of objects of one kind of order, two that are in order stay in it. -/
theorem pair_sublist_sort (h : OneKind ranked) {a b : Ranked} (hle : le a b = true)
    (hsub : [a, b].Sublist ranked) : [a, b].Sublist (ranked.mergeSort le) :=
  sublist_mergeSort_of_mem h.le_trans (fun a _ b _ => le_total a b) (List.pairwise_pair.2 hle) hsub

/-- A sorted list without ties does not depend on the order it was in. -/
theorem sort_eq_of_perm {ranked' : List Ranked} (hperm : ranked'.Perm ranked) (h : OneKind ranked)
    (hties : ∀ a ∈ ranked, ∀ b ∈ ranked, a.key.Tied b.key → a = b) :
    ranked'.mergeSort le = ranked.mergeSort le := by
  have h' : OneKind ranked' := fun a ha b hb => h a (hperm.mem_iff.1 ha) b (hperm.mem_iff.1 hb)
  refine List.Perm.eq_of_pairwise ?_ (pairwise_sort h') (pairwise_sort h) ?_
  · intro a b ha hb hab hba
    rw [List.mem_mergeSort] at ha hb
    exact hties a (hperm.mem_iff.1 ha) b hb ⟨hab, hba⟩
  · exact (List.mergeSort_perm ranked' le).trans
      (hperm.trans (List.mergeSort_perm ranked le).symm)

end Ranked

/-! ## Sorted collections -/

namespace Collection

/-- Objects are sorted if each has an order and all orders are of one kind. -/
theorem sortByOrder_eq_ok_iff {objects sorted : Collection} :
    objects.sortByOrder = .ok sorted ↔
      ∃ ranked, List.Forall₂ Ranked.Ranks objects.entries ranked ∧ Ranked.OneKind ranked ∧
        sorted.entries = (ranked.mergeSort Ranked.le).map Ranked.entry := by
  unfold sortByOrder
  split
  · rename_i failure hfailure
    refine ⟨fun h => (by cases h), ?_⟩
    rintro ⟨ranked, hranks, hkind, -⟩
    rw [Ranked.ofEntries_eq_ok_iff.2 ⟨hranks, hkind⟩] at hfailure
    cases hfailure
  · rename_i ranked hranked
    have hranks := Ranked.ofEntries_eq_ok_iff.1 hranked
    rw [Except.ok.injEq, OrderedMap.ext_iff]
    constructor
    · exact fun h => ⟨ranked, hranks.1, hranks.2, h.symm⟩
    · rintro ⟨other, hother, hkind, hsorted⟩
      rw [Ranked.ofEntries_eq_ok_iff.2 ⟨hother, hkind⟩] at hranked
      obtain rfl := Except.ok.inj hranked
      exact hsorted.symm

/-- Sorting gives the same objects in another order. -/
theorem perm_sortByOrder {objects sorted : Collection} (h : objects.sortByOrder = .ok sorted) :
    sorted.entries.Perm objects.entries := by
  obtain ⟨ranked, hranks, hkind, hsorted⟩ := sortByOrder_eq_ok_iff.1 h
  rw [hsorted, ← Ranked.map_entry_ofEntries (Ranked.ofEntries_eq_ok_iff.2 ⟨hranks, hkind⟩)]
  exact (List.mergeSort_perm ranked _).map Ranked.entry

/-- No two objects have orders that tie. -/
def OrdersDiffer (objects : Collection) : Prop :=
  ∀ a ∈ objects.entries, ∀ b ∈ objects.entries, a.1 ≠ b.1 →
    ∀ x y, Definition.order a.1 a.2 = .ok x → Definition.order b.1 b.2 = .ok y → ¬x.Tied y

/-- Objects without ties are sorted alike, in whatever order they come. -/
theorem sortByOrder_of_perm {objects objects' sorted : Collection}
    (hperm : objects'.entries.Perm objects.entries) (hdiffer : objects.OrdersDiffer)
    (h : objects.sortByOrder = .ok sorted) : objects'.sortByOrder = .ok sorted := by
  obtain ⟨ranked, hranks, hkind, hsorted⟩ := sortByOrder_eq_ok_iff.1 h
  obtain ⟨ranked', hranks', hperm'⟩ := List.perm_comp_forall₂ hperm hranks
  have hties : ∀ a ∈ ranked, ∀ b ∈ ranked, a.key.Tied b.key → a = b := by
    intro a ha b hb htied
    obtain ⟨hmem, horder⟩ := Ranked.of_mem_ranked hranks ha
    obtain ⟨hmem', horder'⟩ := Ranked.of_mem_ranked hranks hb
    obtain ⟨x, name, object⟩ := a
    obtain ⟨y, name', object'⟩ := b
    obtain rfl : name = name' := by
      by_contra hne
      exact hdiffer _ hmem _ hmem' hne x y horder horder' htied
    obtain rfl : object = object' :=
      Option.some.inj ((OrderedMap.get?_of_mem hmem).symm.trans (OrderedMap.get?_of_mem hmem'))
    obtain rfl : x = y := Except.ok.inj (horder.symm.trans horder')
    rfl
  have hkind' : Ranked.OneKind ranked' := fun a ha b hb =>
    hkind a (hperm'.mem_iff.1 ha) b (hperm'.mem_iff.1 hb)
  exact sortByOrder_eq_ok_iff.2
    ⟨ranked', hranks', hkind', by rw [hsorted, Ranked.sort_eq_of_perm hperm' hkind hties]⟩

end Collection

end Pedigree
