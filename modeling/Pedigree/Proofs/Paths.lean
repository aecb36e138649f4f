import Mathlib.Data.List.DropRight
import Pedigree.Proofs.Layers

/-!
# Paths through a stack of layers

A path of keys leads to a value, or it meets a value that is no mapping on its way, or a
key is missing (`Value.touch?`). `lookup_onTop` says what a path finds after one more
layer : a layer without the key changes nothing there, a blocked path finds nothing, and
a value at the path goes over what stood there. `lookup_stack` folds this over the layers
that touch the path, so the last of them decides, together with the run of its kind it
ends : sequences are concatenated over that run (`items_foldl`), and the keys of
mappings collect in the order of their first appearance (`keys_foldl`).
-/

namespace Pedigree

namespace Value

/-- The items of a sequence. -/
def items : Value → List Value
  | .sequence items => items
  | _ => []

/-- The keys of a mapping. -/
def keys : Value → List String
  | .mapping entries => Entries.keys entries
  | _ => []

/-- What a path meets in a layer. -/
inductive Touch where
  /-- A value at its end. -/
  | value (v : Value)
  /-- A value before its end that is no mapping. -/
  | blocked

/-- Follows a path of keys. None if a mapping on the way lacks the next key. -/
def touch? : List String → Value → Option Touch
  | [], v => some (.value v)
  | key :: path, .mapping entries => (Entries.get? key entries).bind (touch? path)
  | _ :: _, _ => some .blocked

namespace Touch

/-- The value met at the end of a path. -/
def value? : Touch → Option Value
  | .value v => some v
  | .blocked => none

/-- What stands at a path once a layer that touches it lies over the old value there. -/
def onTop (below : Option Value) : Touch → Option Value
  | .value v => some (Value.onTop below v)
  | .blocked => none

/-- The kind of the value at the end of a path. -/
def kind? (touch : Touch) : Option Kind := touch.value?.map kind

end Touch

/-- The value at the end of a path. -/
def lookup (path : List String) (v : Value) : Option Value :=
  (touch? path v).bind Touch.value?

theorem lookup_mapping_cons (key : String) (path : List String)
    (entries : List (String × Value)) :
    lookup (key :: path) (.mapping entries) = (Entries.get? key entries).bind (lookup path) := by
  unfold lookup
  rw [touch?]
  cases Entries.get? key entries <;> rfl

theorem lookup_cons_of_kind_ne (key : String) (path : List String) {v : Value}
    (h : v.kind ≠ .mapping) : lookup (key :: path) v = none := by
  cases v <;> simp_all [lookup, touch?, kind, Touch.value?]

theorem touch?_cons_of_kind_ne (key : String) (path : List String) {v : Value}
    (h : v.kind ≠ .mapping) : touch? (key :: path) v = some .blocked := by
  cases v <;> simp_all [touch?, kind]

/-- With nothing below, a path finds what it touches. -/
theorem lookup_eq_onTop_none (path : List String) (v : Value) :
    lookup path v = (touch? path v).bind (Touch.onTop none) := by
  have hvalue : Touch.value? = Touch.onTop none := by
    funext touch
    cases touch <;> rfl
  rw [lookup, hvalue]

/-- A value met in a well formed layer is well formed. -/
theorem WellFormed.touch? {path : List String} {v w : Value} (hv : v.WellFormed)
    (h : Value.touch? path v = some (.value w)) : w.WellFormed := by
  induction path generalizing v with
  | nil =>
    simp only [Value.touch?, Option.some.injEq, Touch.value.injEq] at h
    exact h ▸ hv
  | cons key path ih =>
    cases v with
    | mapping entries =>
      rw [Value.touch?] at h
      obtain ⟨u, hu, hw⟩ := Option.bind_eq_some_iff.1 h
      exact ih ((wellFormed_mapping_iff.1 hv).2 _ (Entries.mem_of_get? hu)) hw
    | _ => simp [Value.touch?] at h

/-- One more layer at a path. -/
theorem lookup_onTop (path : List String) (below : Option Value) {layer : Value}
    (h : layer.WellFormed) :
    lookup path (onTop below layer) =
      match touch? path layer with
      | none => below.bind (lookup path)
      | some touch => touch.onTop (below.bind (lookup path)) := by
  induction path generalizing below layer with
  | nil => cases below <;> rfl
  | cons key path ih =>
    by_cases hlayer : layer.kind = .mapping
    · cases layer <;> simp only [kind, reduceCtorEq] at hlayer
      rename_i layer
      rw [wellFormed_mapping_iff] at h
      by_cases hbelow : ∃ entries, below = some (.mapping entries)
      · obtain ⟨entries, rfl⟩ := hbelow
        rw [onTop_some, merge_mapping, lookup_mapping_cons, get?_mergeEntries entries h.1, touch?,
          Option.bind_some, lookup_mapping_cons]
        cases hget : Entries.get? key layer with
        | none => rfl
        | some v => exact ih _ (h.2 _ (Entries.mem_of_get? hget))
      · have hnone : below.bind (lookup (key :: path)) = none := by
          cases below with
          | none => rfl
          | some old =>
            refine lookup_cons_of_kind_ne key path fun hkind => hbelow ?_
            cases old <;> simp_all [kind]
        have honTop : onTop below (.mapping layer) = .mapping layer := by
          cases below with
          | none => rfl
          | some old =>
            refine merge_of_kind_ne fun hkind => hbelow ?_
            cases old <;> simp_all [kind]
        rw [honTop, hnone, lookup_eq_onTop_none]
        cases touch? (key :: path) (.mapping layer) <;> rfl
    · have hkind : (onTop below layer).kind ≠ .mapping := by
        cases below <;> simpa using hlayer
      rw [lookup_cons_of_kind_ne key path hkind, touch?_cons_of_kind_ne key path hlayer]
      rfl

/-! ## Runs of one kind -/

namespace Touch

/-- The values of the longest run of touches at the end that all hold this kind. -/
def trailing (k : Kind) (touches : List Touch) : List Value :=
  (touches.rtakeWhile fun touch => touch.kind? = some k).filterMap value?

theorem trailing_concat_value {k : Kind} (touches : List Touch) {v : Value} (h : v.kind = k) :
    trailing k (touches ++ [.value v]) = trailing k touches ++ [v] := by
  unfold trailing
  rw [List.rtakeWhile_concat_pos _ _ _ (by simp [kind?, value?, h]), List.filterMap_append]
  rfl

theorem trailing_concat_of_ne {k : Kind} (touches : List Touch) {touch : Touch}
    (h : touch.kind? ≠ some k) : trailing k (touches ++ [touch]) = [] := by
  unfold trailing
  rw [List.rtakeWhile_concat_neg _ _ _ (by simpa using h), List.filterMap_nil]

/-- A layer decides the kind of what stands at a path it touches. -/
theorem map_kind_onTop (below : Option Value) (touch : Touch) :
    (touch.onTop below).map kind = touch.kind? := by
  cases touch <;> cases below <;> simp [onTop, kind?, value?]

/-- What only values of one kind have is absent after a layer of another kind. -/
theorem flatMap_onTop_of_kind_ne {β : Type} {k : Kind} {read : Value → List β}
    (hread : ∀ v, v.kind ≠ k → read v = []) (below : Option Value) {touch : Touch}
    (h : touch.kind? ≠ some k) : (touch.onTop below).toList.flatMap read = [] := by
  rw [← map_kind_onTop below] at h
  cases honTop : touch.onTop below with
  | none => rfl
  | some v =>
    rw [honTop] at h
    simpa using hread v fun hk => h (by simp [hk])

theorem items_of_kind_ne {v : Value} (h : v.kind ≠ .sequence) : v.items = [] := by
  cases v <;> simp_all [kind, items]

theorem keys_of_kind_ne {v : Value} (h : v.kind ≠ .mapping) : v.keys = [] := by
  cases v <;> simp_all [kind, keys]

theorem onTop_of_isScalar (below : Option Value) {v : Value} (h : v.isScalar = true) :
    onTop below (.value v) = some v := by
  cases below <;> simp [onTop, merge_of_isScalar _ h]

theorem onTop_sequence (below : Option Value) (items : List Value) :
    onTop below (.value (.sequence items)) =
      some (.sequence (below.toList.flatMap Value.items ++ items)) := by
  rcases below with _ | old
  · rfl
  · cases old <;> simp [onTop, Value.items, merge]

theorem onTop_mapping (below : Option Value) {entries : List (String × Value)}
    (h : (Entries.keys entries).Nodup) :
    ∃ merged, onTop below (.value (.mapping entries)) = some (.mapping merged) ∧
      Entries.keys merged = below.toList.flatMap Value.keys ++
        (Entries.keys entries).filter (· ∉ below.toList.flatMap Value.keys) := by
  by_cases hbelow : ∃ old, below = some (.mapping old)
  · obtain ⟨old, rfl⟩ := hbelow
    refine ⟨mergeEntries old entries, by simp [onTop], ?_⟩
    simpa [Value.keys] using keys_mergeEntries old h
  · refine ⟨entries, ?_⟩
    rcases below with _ | old
    · simp [onTop]
    · cases old <;> simp_all [onTop, merge, Value.keys]

variable {start : Option Value} (touches : List Touch)

/-- The sequence at a path has the items of the last run of sequences. -/
theorem items_foldl (hstart : start.toList.flatMap Value.items = []) :
    (touches.foldl onTop start).toList.flatMap Value.items =
      (trailing .sequence touches).flatMap Value.items := by
  induction touches using List.reverseRecOn with
  | nil => exact hstart
  | append_singleton touches touch ih =>
    rw [List.foldl_concat]
    by_cases hkind : touch.kind? = some .sequence
    · obtain ⟨v, rfl, hv⟩ : ∃ v, touch = .value v ∧ v.kind = .sequence := by
        cases touch <;> simp_all [kind?, value?]
      rw [trailing_concat_value _ hv]
      cases v <;> simp only [kind, reduceCtorEq] at hv
      rw [onTop_sequence, ih]
      simp [Value.items]
    · rw [trailing_concat_of_ne _ hkind]
      exact flatMap_onTop_of_kind_ne (fun _ => items_of_kind_ne) _ hkind

theorem eraseDups_of_nodup {names : List String} (h : names.Nodup) : names.eraseDups = names := by
  induction names with
  | nil => rfl
  | cons name rest ih =>
    rw [List.nodup_cons] at h
    have hrest : rest.filter (fun other => !other == name) = rest := by
      refine List.filter_eq_self.2 fun other hother => ?_
      simpa using fun heq : other = name => h.1 (heq ▸ hother)
    rw [List.eraseDups_cons, hrest, ih h.2]

theorem eraseDups_append_of_nodup {old new : List String} (h : new.Nodup) :
    (old ++ new).eraseDups = old.eraseDups ++ new.filter (· ∉ old.eraseDups) := by
  have hremove : new.removeAll old = new.filter (· ∉ old.eraseDups) := by
    refine List.filter_congr fun name _ => ?_
    simp [List.mem_eraseDups]
  rw [List.eraseDups_append, hremove, eraseDups_of_nodup (h.filter _)]

/-- The mapping at a path has the keys of the last run of mappings, each at its first place. -/
theorem keys_foldl (hstart : start.toList.flatMap Value.keys = [])
    (h : ∀ entries, .value (.mapping entries) ∈ touches → (Entries.keys entries).Nodup) :
    (touches.foldl onTop start).toList.flatMap Value.keys =
      ((trailing .mapping touches).flatMap Value.keys).eraseDups := by
  induction touches using List.reverseRecOn with
  | nil => exact hstart
  | append_singleton touches touch ih =>
    rw [List.foldl_concat]
    by_cases hkind : touch.kind? = some .mapping
    · obtain ⟨v, rfl, hv⟩ : ∃ v, touch = .value v ∧ v.kind = .mapping := by
        cases touch <;> simp_all [kind?, value?]
      rw [trailing_concat_value _ hv]
      cases v <;> simp only [kind, reduceCtorEq] at hv
      rename_i entries
      have hnodup := h entries (by simp)
      obtain ⟨merged, hmerged, hkeys⟩ := onTop_mapping (touches.foldl onTop start) hnodup
      rw [ih fun entries hmem => h entries (by simp [hmem])] at hkeys
      rw [hmerged, List.flatMap_append]
      simp [Value.keys, hkeys, eraseDups_append_of_nodup hnodup]
    · rw [trailing_concat_of_ne _ hkind]
      exact flatMap_onTop_of_kind_ne (fun _ => keys_of_kind_ne) _ hkind

end Touch

end Value

namespace Definition

open Value

/-- What the layers that touch a path hold there, lowest first. -/
def touching (path : List String) (layers : List Definition) : List Touch :=
  layers.filterMap fun layer => touch? path (.mapping layer)

variable {layers : List Definition}

/-- A stack of layers at a path is the fold of the layers that touch it. -/
theorem lookup_stack (h : ∀ layer ∈ layers, (Value.mapping layer).WellFormed)
    (path : List String) :
    lookup path (.mapping (stack layers)) =
      (touching path layers).foldl Touch.onTop (lookup path (.mapping [])) := by
  suffices hfold : ∀ base : Definition, lookup path (.mapping (layers.foldl merge base)) =
      (touching path layers).foldl Touch.onTop (lookup path (.mapping base)) from hfold []
  induction layers with
  | nil => exact fun _ => rfl
  | cons layer rest ih =>
    intro base
    have honTop := lookup_onTop path (some (.mapping base)) (h layer (by simp))
    rw [onTop_some, merge_mapping, Option.bind_some] at honTop
    rw [List.foldl_cons, ih fun other hother => h other (by simp [hother])]
    change _ = ((layer :: rest).filterMap _).foldl _ _
    rw [List.filterMap_cons, merge, honTop]
    cases touch? path (.mapping layer) <;> rfl

theorem nodup_keys_of_mem_touching (h : ∀ layer ∈ layers, (Value.mapping layer).WellFormed)
    {path : List String} {entries : List (String × Value)}
    (hmem : .value (.mapping entries) ∈ touching path layers) :
    (Entries.keys entries).Nodup := by
  obtain ⟨layer, hlayer, htouch⟩ := List.mem_filterMap.1 hmem
  exact (wellFormed_mapping_iff.1 ((h layer hlayer).touch? htouch)).1

/-- The layers that touch a path decide what a stack of layers holds there. If there are none,
or if the last of them is blocked, nothing stands there, save that an empty stack is the empty
mapping. Otherwise the last one decides the kind : a scalar stands as it is, a sequence follows
the sequences of the run it ends, a mapping has the keys of the run of mappings it ends. -/
theorem lookup_stack_by_last_touch (h : ∀ layer ∈ layers, (Value.mapping layer).WellFormed)
    (path : List String) :
    match (touching path layers).getLast? with
    | none =>
      lookup path (.mapping (stack layers)) =
        if layers.isEmpty && path.isEmpty then some (.mapping []) else none
    | some .blocked => lookup path (.mapping (stack layers)) = none
    | some (.value (.sequence _)) =>
      lookup path (.mapping (stack layers)) =
        some (.sequence ((Touch.trailing .sequence (touching path layers)).flatMap Value.items))
    | some (.value (.mapping _)) =>
      ∃ entries, lookup path (.mapping (stack layers)) = some (.mapping entries) ∧
        Entries.keys entries =
          ((Touch.trailing .mapping (touching path layers)).flatMap Value.keys).eraseDups
    | some (.value scalar) => lookup path (.mapping (stack layers)) = some scalar := by
  have hitems : (lookup path (.mapping [])).toList.flatMap Value.items = [] := by
    cases path <;> rfl
  have hkeys : (lookup path (.mapping [])).toList.flatMap Value.keys = [] := by
    cases path <;> rfl
  have hnodup : ∀ entries, .value (.mapping entries) ∈ touching path layers →
      (Entries.keys entries).Nodup := fun _ => nodup_keys_of_mem_touching h
  rw [lookup_stack h]
  rcases List.eq_nil_or_concat (touching path layers) with hnil | ⟨touches, touch, hlast⟩
  · rw [hnil]
    change lookup path (.mapping []) = _
    cases path with
    | nil =>
      cases layers with
      | nil => rfl
      | cons layer rest => simp [touching, touch?] at hnil
    | cons key path => simp [lookup, touch?]
  · rw [List.concat_eq_append] at hlast
    rw [hlast] at hnodup ⊢
    rw [List.getLast?_concat]
    rcases touch with v | _
    · cases v with
      | sequence items =>
        have hfold := Touch.items_foldl (touches ++ [.value (.sequence items)]) hitems
        rw [List.foldl_concat, Touch.onTop_sequence] at hfold ⊢
        refine congrArg (some ∘ Value.sequence) ?_
        simpa [Value.items] using hfold
      | mapping entries =>
        have hfold := Touch.keys_foldl _ hkeys hnodup
        obtain ⟨merged, hmerged, -⟩ :=
          Touch.onTop_mapping (touches.foldl Touch.onTop (lookup path (.mapping [])))
            (hnodup entries (by simp))
        rw [List.foldl_concat, hmerged] at hfold
        refine ⟨merged, by rw [List.foldl_concat, hmerged], ?_⟩
        simpa [Value.keys] using hfold
      | _ =>
        rw [List.foldl_concat]
        exact Touch.onTop_of_isScalar _ rfl
    · rw [List.foldl_concat]
      rfl

/-- A sequence that a later layer resets to null starts again with the layers above. -/
theorem lookup_stack_of_reset :
    let layers : List Definition :=
      [[("a", .mapping [("list", .sequence [.bool true])])], [("a", .null)],
        [("a", .mapping [("list", .sequence [.null])])], [("b", .null)],
        [("a", .mapping [("x", .null), ("list", .sequence [.bool false])])]]
    (∀ layer ∈ layers, (Value.mapping layer).WellFormed) ∧
      lookup ["a", "list"] (.mapping (stack layers)) =
        some (.sequence [.null, .bool false]) := by
  intro layers
  have h : ∀ layer ∈ layers, (Value.mapping layer).WellFormed := by
    simp [layers]
  exact ⟨h, lookup_stack_by_last_touch h ["a", "list"]⟩

end Definition

end Pedigree
