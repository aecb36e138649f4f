import Pedigree.Proofs.Rounding
import Pedigree.Proofs.SortedObjects

/-!
# Integer orders

Objects with integers for orders can always be sorted. They are compared by the nearest binary64 of
their orders, which ascends with the integers but does not tell all of them apart. So an object
comes before one with a greater order, unless both orders are rounded to the same number
(`Integer64.Ties`) and the source has them the other way round
(`Collection.sortByOrder_integers`). This concerns orders beyond `2 ^ 53` at a distance of at most
`2 ^ 11`, and the integers need not ascend there (`Collection.not_forall_ascend_exactly`).
-/

namespace Pedigree

/-! ## Pairs in a list -/

section Pairs

variable {α : Type} {l : List α} {a b : α}

theorem pair_sublist_or (ha : a ∈ l) (hb : b ∈ l) (hne : a ≠ b) :
    [a, b].Sublist l ∨ [b, a].Sublist l := by
  obtain ⟨before, after, rfl⟩ := List.append_of_mem ha
  rcases List.mem_append.1 hb with hb | hb
  · exact .inr ((List.singleton_sublist.2 hb).append
      (List.singleton_sublist.2 (List.mem_cons_self ..)))
  · have hb : b ∈ after := (List.mem_cons.1 hb).resolve_left hne.symm
    exact .inl (((List.singleton_sublist.2 hb).cons_cons a).trans (List.sublist_append_right ..))

/-- Without repetition two members stand in one order only. -/
theorem not_pair_sublist_of_nodup (hnodup : l.Nodup) (h : [a, b].Sublist l) :
    ¬[b, a].Sublist l := by
  intro hswap
  induction l with
  | nil => cases h
  | cons c rest ih =>
    obtain ⟨hc, hrest⟩ := List.nodup_cons.1 hnodup
    cases h with
    | cons _ hab =>
      cases hswap with
      | cons _ hba => exact ih hrest hab hba
      | cons_cons _ ha => exact hc (hab.subset (List.mem_cons_of_mem a (List.mem_singleton_self b)))
    | cons_cons _ hb =>
      cases hswap with
      | cons _ hba => exact hc (hba.subset (List.mem_cons_of_mem b (List.mem_singleton_self a)))
      | cons_cons _ ha => exact hc (List.singleton_sublist.1 hb)

end Pairs

/-! ## Objects with integer orders -/

namespace Integer64

variable {m n : Integer64}

theorem natAbs_lt (n : Integer64) : n.toInt.natAbs < 2 ^ 64 := by
  have hrange := n.inRange
  rw [Nat.pow_eq, Nat.pow_eq] at hrange
  omega

/-- Integers that are one number once they are rounded to binary64. -/
def Ties (m n : Integer64) : Prop :=
  (Binary64.ofInt m.toInt).scaled = (Binary64.ofInt n.toInt).scaled

instance (m n : Integer64) : Decidable (m.Ties n) :=
  inferInstanceAs (Decidable ((Binary64.ofInt m.toInt).scaled = (Binary64.ofInt n.toInt).scaled))

/-- Different integers of one rounded number are beyond `2 ^ 53` on one side of zero, and not far
apart. -/
theorem Ties.bounds (h : m.Ties n) (hlt : m.toInt < n.toInt) :
    (2 ^ 53 ≤ m.toInt ∨ n.toInt ≤ -2 ^ 53) ∧ n.toInt - m.toInt ≤ 2 ^ 11 := by
  refine ⟨?_, Binary64.sub_le_of_scaled_ofInt_eq m.natAbs_lt n.natAbs_lt h⟩
  by_contra hexact
  obtain ⟨hm, hn⟩ := not_or.1 hexact
  have hapart := Binary64.scaled_ofInt_lt m.natAbs_lt n.natAbs_lt hlt
    (Int.not_le.1 hm) (Int.not_le.1 hn)
  exact Int.ne_of_lt hapart h

end Integer64

namespace Definition

/-- The order of an object, if it is an integer. -/
def integerOrder? (object : Definition) : Option Integer64 :=
  match orderValue object with
  | .number (.integer n) => some n
  | _ => none

variable {object other : Definition} {m n : Integer64}

theorem orderValue_of_integerOrder? (h : integerOrder? object = some n) :
    orderValue object = .number (.integer n) := by
  unfold integerOrder? at h
  split at h
  · rename_i hvalue
    rw [hvalue, Option.some.inj h]
  · cases h

theorem orderKind?_of_integerOrder? (h : integerOrder? object = some n) :
    orderKind? object = some .number := by
  rw [orderKind?, orderValue_of_integerOrder? h]

theorem precedes_iff_of_integerOrder? (h : integerOrder? object = some m)
    (h' : integerOrder? other = some n) : Precedes object other ↔
      (Binary64.ofInt m.toInt).scaled < (Binary64.ofInt n.toInt).scaled := by
  rw [Precedes, orderValue_of_integerOrder? h, orderValue_of_integerOrder? h']
  rfl

/-- Of objects with different integers the lesser one precedes the greater one unless they tie, and
the greater one never precedes the lesser one. -/
theorem precedes_of_integer_lt (h : integerOrder? object = some m)
    (h' : integerOrder? other = some n) (hlt : m.toInt < n.toInt) :
    (Precedes object other ↔ ¬m.Ties n) ∧ ¬Precedes other object := by
  have hle := Binary64.scaled_ofInt_mono m.natAbs_lt n.natAbs_lt (Int.le_of_lt hlt)
  rw [precedes_iff_of_integerOrder? h h', precedes_iff_of_integerOrder? h' h]
  exact ⟨lt_iff_le_and_ne.trans (and_iff_right hle), Int.not_lt.2 hle⟩

end Definition

namespace Collection

/-- The order of every object is an integer. -/
def HasIntegerOrders (objects : Collection) : Prop :=
  ∀ entry ∈ objects.entries, ∃ n, Definition.integerOrder? entry.2 = some n

variable {objects sorted : Collection} {a b : String × Definition} {m n : Integer64}

theorem nodup_entries (objects : Collection) : objects.entries.Nodup :=
  List.Pairwise.of_map Prod.fst (fun _ _ hne heq => hne (congrArg Prod.fst heq)) objects.distinct

theorem HasIntegerOrders.hasOneOrderKind (h : objects.HasIntegerOrders) :
    objects.HasOneOrderKind :=
  ⟨.number, fun entry hentry =>
    let ⟨_, hn⟩ := h entry hentry
    Definition.orderKind?_of_integerOrder? hn⟩

/-- In a sorted collection an object stands before one with a greater integer, if the source has
them in this order or if they do not tie. -/
theorem Sorts.pair_sublist_iff (h : objects.Sorts sorted) (ha : a ∈ objects.entries)
    (hb : b ∈ objects.entries) (hm : Definition.integerOrder? a.2 = some m)
    (hn : Definition.integerOrder? b.2 = some n) (hlt : m.toInt < n.toInt) :
    [a, b].Sublist sorted.entries ↔ [a, b].Sublist objects.entries ∨ ¬m.Ties n := by
  obtain ⟨hab, hba⟩ := Definition.precedes_of_integer_lt hm hn hlt
  have hne : a ≠ b := by
    rintro rfl
    rw [hm] at hn
    cases hn
    exact Int.lt_irrefl _ hlt
  by_cases htie : m.Ties n
  · rw [or_iff_left (not_not_intro htie)]
    have hab' : ¬a.2.Precedes b.2 := fun hprecedes => hab.1 hprecedes htie
    refine ⟨fun hsub => ?_, fun hsub => h.stable a b hsub hab' hba⟩
    refine (pair_sublist_or ha hb hne).resolve_right fun hswap => ?_
    exact not_pair_sublist_of_nodup (nodup_entries sorted) hsub (h.stable b a hswap hba hab')
  · refine iff_of_true ?_ (.inr htie)
    have ha' := h.perm.mem_iff.2 ha
    have hb' := h.perm.mem_iff.2 hb
    refine (pair_sublist_or ha' hb' hne).resolve_right fun hswap => ?_
    exact List.pairwise_iff_forall_sublist.1 h.ascending hswap (hab.2 htie)

/-- Objects with integer orders are sorted. One with a lesser order comes before one with a greater
order unless the orders tie, and then if the source has it first. Orders that tie are beyond
`2 ^ 53` on one side of zero, and not far apart. -/
theorem sortByOrder_integers (h : objects.HasIntegerOrders) :
    ∃ sorted, objects.sortByOrder = .ok sorted ∧ sorted.entries.Perm objects.entries ∧
      ∀ a ∈ objects.entries, ∀ b ∈ objects.entries, ∀ m n,
        Definition.integerOrder? a.2 = some m → Definition.integerOrder? b.2 = some n →
        m.toInt < n.toInt →
        ([a, b].Sublist sorted.entries ↔ [a, b].Sublist objects.entries ∨ ¬m.Ties n) ∧
        (m.Ties n →
          (2 ^ 53 ≤ m.toInt ∨ n.toInt ≤ -2 ^ 53) ∧ n.toInt - m.toInt ≤ 2 ^ 11) := by
  obtain ⟨sorted, hsort⟩ := exists_sortByOrder_iff.2 h.hasOneOrderKind
  have hsorts := sorts_of_sortByOrder hsort
  refine ⟨sorted, hsort, hsorts.perm, fun a ha b hb m n hm hn hlt => ?_⟩
  exact ⟨hsorts.pair_sublist_iff ha hb hm hn hlt, fun htie => htie.bounds hlt⟩

/-! ### Two orders that are rounded to one number -/

/-- An object with the order `2 ^ 53 + 1`, which is rounded to `2 ^ 53`. -/
def oddOrder : String × Definition :=
  ("odd", [(orderKey, .number (.integer ⟨9007199254740993, by decide⟩))])

/-- An object with the order `2 ^ 53`. -/
def evenOrder : String × Definition :=
  ("even", [(orderKey, .number (.integer ⟨9007199254740992, by decide⟩))])

/-- An object with an order next to the least one of 64 bits. -/
def lowOrder : String × Definition :=
  ("low", [(orderKey, .number (.integer ⟨-9223372036854775807, by decide⟩))])

/-- Objects with integer orders, the greatest one first. -/
def edgeOrders : Collection := ⟨[oddOrder, evenOrder, lowOrder], by decide⟩

theorem hasIntegerOrders_edgeOrders : edgeOrders.HasIntegerOrders := by
  rintro entry (_ | ⟨_, _ | ⟨_, _ | ⟨_, h⟩⟩⟩)
  · exact ⟨_, rfl⟩
  · exact ⟨_, rfl⟩
  · exact ⟨_, rfl⟩
  · cases h

theorem oddOrder_mem : oddOrder ∈ edgeOrders.entries := List.mem_of_getElem? (i := 0) rfl

theorem evenOrder_mem : evenOrder ∈ edgeOrders.entries := List.mem_of_getElem? (i := 1) rfl

theorem lowOrder_mem : lowOrder ∈ edgeOrders.entries := List.mem_of_getElem? (i := 2) rfl

theorem not_evenOrder_first : ¬[evenOrder, oddOrder].Sublist edgeOrders.entries :=
  not_pair_sublist_of_nodup (nodup_entries edgeOrders)
    (List.sublist_append_left [oddOrder, evenOrder] [lowOrder])

theorem sortByOrder_edgeOrders : edgeOrders.HasIntegerOrders ∧
    ∃ sorted, edgeOrders.sortByOrder = .ok sorted ∧
      [lowOrder, oddOrder].Sublist sorted.entries ∧
      ¬[evenOrder, oddOrder].Sublist sorted.entries := by
  obtain ⟨sorted, hsort, -, hpairs⟩ := sortByOrder_integers hasIntegerOrders_edgeOrders
  refine ⟨hasIntegerOrders_edgeOrders, sorted, hsort, ?_, ?_⟩
  · refine (hpairs _ lowOrder_mem _ oddOrder_mem _ _ rfl rfl (by decide)).1.2 (.inr ?_)
    decide +kernel
  · rw [(hpairs _ evenOrder_mem _ oddOrder_mem _ _ rfl rfl (by decide)).1, not_or, not_not]
    exact ⟨not_evenOrder_first, by decide +kernel⟩

/-- Objects with integer orders do not always ascend by their integers. -/
theorem not_forall_ascend_exactly :
    ¬ ∀ objects sorted : Collection, objects.HasIntegerOrders → objects.sortByOrder = .ok sorted →
      ∀ a ∈ objects.entries, ∀ b ∈ objects.entries, ∀ m n,
        Definition.integerOrder? a.2 = some m → Definition.integerOrder? b.2 = some n →
        m.toInt < n.toInt → [a, b].Sublist sorted.entries := by
  intro h
  have hinteger := hasIntegerOrders_edgeOrders
  obtain ⟨sorted, hsort⟩ := exists_sortByOrder_iff.2 hinteger.hasOneOrderKind
  have hsub := h edgeOrders sorted hinteger hsort _ evenOrder_mem _ oddOrder_mem _ _ rfl rfl
    (by decide)
  rw [(sorts_of_sortByOrder hsort).pair_sublist_iff evenOrder_mem oddOrder_mem rfl rfl
    (by decide)] at hsub
  rcases hsub with hfirst | hties
  · exact not_evenOrder_first hfirst
  · exact hties (by decide +kernel)

end Collection

end Pedigree
