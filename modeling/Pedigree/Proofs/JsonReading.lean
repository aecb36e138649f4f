import Pedigree.Json.Reader
import Pedigree.Proofs.JsonTokens
import Pedigree.Proofs.ReadDefinitions
import Pedigree.Proofs.SourceOrder

/-!
# Reading printed values back

The reader goes through the tokens of a value and hands the value to the container that is open
there (`Reading.reads_ofValue`). A container collects its members in their order, items last first
and entries by insertion, which appends an entry as long as no key occurs twice. So a printed value
is read as it is, but for its numbers, which are what the reader takes them for, and for keys that
occur again (`readWith_write`).

However its numbers are read, a mapping keeps its keys (`Lists`). A well formed value of integers
that is printed in any layout is read back as it was (`read?_write`), and so are both documents of
resolved definitions (`Resolved.documents_read_back`).
-/

namespace Pedigree

/-! ## Values -/

namespace Value

mutual

/-- What a value is read as, where `f` is what its numbers are read as. -/
def seen (f : Number → Number) : Value → Value
  | .null => .null
  | .bool b => .bool b
  | .number n => .number (f n)
  | .string s => .string s
  | .sequence items => .sequence (seenItems f items)
  | .mapping entries => .mapping (seenEntries f [] entries)

/-- What the items of a sequence are read as. -/
def seenItems (f : Number → Number) : List Value → List Value
  | [] => []
  | item :: rest => seen f item :: seenItems f rest

/-- What entries are read as after others. A key that occurs again has the value that comes
last. -/
def seenEntries (f : Number → Number) (read : List (String × Value)) :
    List (String × Value) → List (String × Value)
  | [] => read
  | (key, value) :: rest => seenEntries f (Entries.insert key (seen f value) read) rest

end

/-- Entries are read in order, unless a key occurs again. -/
theorem seenEntries_of_nodup (f : Number → Number) (read : List (String × Value))
    {entries : List (String × Value)} (h : (Entries.keys (read ++ entries)).Nodup) :
    seenEntries f read entries = read ++ entries.map fun entry => (entry.1, seen f entry.2) := by
  induction entries generalizing read with
  | nil => rw [seenEntries, List.map_nil, List.append_nil]
  | cons entry entries ih =>
    obtain ⟨key, value⟩ := entry
    have hnew : key ∉ Entries.keys read := by
      rw [Entries.keys_append, Entries.keys_cons, List.nodup_append] at h
      exact fun hmem => h.2.2 key hmem key (List.mem_cons_self ..) rfl
    have hkeys : Entries.keys (read ++ [(key, seen f value)] ++ entries) =
        Entries.keys (read ++ (key, value) :: entries) := by
      simp only [Entries.keys_append, Entries.keys_cons, List.append_assoc, List.singleton_append]
    rw [seenEntries, Entries.insert_of_not_mem _ hnew, ih _ (hkeys ▸ h), List.map_cons,
      List.append_assoc, List.singleton_append]

mutual

/-- A well formed value is read as it is, if its numbers are. -/
theorem seen_of_wellFormed : ∀ {v : Value}, v.WellFormed → v.seen id = v
  | .null, _ | .bool _, _ | .number _, _ | .string _, _ => rfl
  | .sequence items, hv =>
    congrArg sequence (seenItems_of_wellFormed (Value.wellFormed_sequence_iff.1 hv))
  | .mapping entries, hv => by
    obtain ⟨hdistinct, hformed⟩ := Value.wellFormed_mapping_iff.1 hv
    have hentries : seenEntries id [] entries = entries :=
      (seenEntries_of_nodup id [] hdistinct).trans (map_seen_of_wellFormed hformed)
    exact congrArg mapping hentries

theorem seenItems_of_wellFormed : ∀ {items : List Value}, (∀ item ∈ items, item.WellFormed) →
    seenItems id items = items
  | [], _ => rfl
  | item :: items, hv => by
    obtain ⟨hitem, hitems⟩ := List.forall_mem_cons.1 hv
    rw [seenItems, seen_of_wellFormed hitem, seenItems_of_wellFormed hitems]

theorem map_seen_of_wellFormed : ∀ {entries : List (String × Value)},
    (∀ entry ∈ entries, entry.2.WellFormed) →
      entries.map (fun entry => (entry.1, seen id entry.2)) = entries
  | [], _ => rfl
  | (key, value) :: entries, hv => by
    obtain ⟨hvalue, hentries⟩ := List.forall_mem_cons.1 hv
    rw [List.map_cons, seen_of_wellFormed hvalue, map_seen_of_wellFormed hentries]

end

end Value

namespace Json

namespace Reading

/-- The tokens take one reading to another. -/
abbrev Reads (reading : Reading) (tokens : List Token) (after : Reading) : Prop :=
  Steps step reading tokens after

variable {f : Number → Number}

/-- In an open sequence a value may stand where its end may stand. -/
theorem Reads.of_value {v : Value} {items : List Value} {frames : List Frame} {after : Reading}
    (h : Reads ⟨.sequence items :: frames, .value⟩ (Token.ofValue f v) after) :
    Reads ⟨.sequence items :: frames, .first⟩ (Token.ofValue f v) after := by
  rcases v with _ | b | n | s | items | entries
  · exact h
  · exact h
  · exact h
  · exact h
  · cases items <;> exact h
  · cases entries <;> exact h

mutual

/-- A value is handed to the innermost container. -/
theorem reads_ofValue : ∀ (v : Value) {frames : List Frame} {after : Reading},
    deliver (v.seen f) frames = some after → Reads ⟨frames, .value⟩ (Token.ofValue f v) after
  | .null, _, _, h => .cons h (.nil _)
  | .bool _, _, _, h => .cons h (.nil _)
  | .number _, _, _, h => .cons h (.nil _)
  | .string _, _, _, h => .cons h (.nil _)
  | .sequence [], _, _, h => .cons rfl (.cons h (.nil _))
  | .sequence (item :: items), frames, after, h => by
    have hfirst : Reads ⟨.sequence [] :: frames, .value⟩ (Token.ofValue f item)
      ⟨.sequence [item.seen f] :: frames, .next⟩ := reads_ofValue item rfl
    have hend : step ⟨.sequence ((Value.seenItems f items).reverse ++ [item.seen f]) :: frames,
        .next⟩ .endSequence = some after := by
      rw [← List.reverse_cons, ← h]
      exact congrArg (fun items => deliver (.sequence items) frames) (List.reverse_reverse _)
    rw [Token.ofValue]
    exact .cons rfl (((hfirst.of_value).append (reads_ofItems items)).append
      (.cons hend (.nil _)))
  | .mapping [], _, _, h => .cons rfl (.cons h (.nil _))
  | .mapping ((key, value) :: entries), frames, after, h => by
    have hfirst : Reads ⟨.entry [] key :: frames, .value⟩ (Token.ofValue f value)
      ⟨.mapping [(key, value.seen f)] :: frames, .next⟩ := reads_ofValue value rfl
    rw [Token.ofValue]
    exact .cons rfl (.cons rfl (.cons rfl ((hfirst.append
      (reads_ofEntries entries)).append (.cons h (.nil _)))))

theorem reads_ofItems : ∀ (items : List Value) {read : List Value} {frames : List Frame},
    Reads ⟨.sequence read :: frames, .next⟩ (Token.ofItems f items)
      ⟨.sequence ((Value.seenItems f items).reverse ++ read) :: frames, .next⟩
  | [], _, _ => .nil _
  | item :: items, read, frames => by
    have hnext : Reads ⟨.sequence read :: frames, .value⟩ (Token.ofValue f item)
      ⟨.sequence (item.seen f :: read) :: frames, .next⟩ := reads_ofValue item rfl
    rw [Token.ofItems, Value.seenItems, List.reverse_cons, List.append_assoc]
    exact .cons rfl (hnext.append (reads_ofItems items))

theorem reads_ofEntries : ∀ (entries : List (String × Value)) {read : List (String × Value)}
    {frames : List Frame},
      Reads ⟨.mapping read :: frames, .next⟩ (Token.ofEntries f entries)
        ⟨.mapping (Value.seenEntries f read entries) :: frames, .next⟩
  | [], read, _ => .nil _
  | (key, value) :: entries, read, frames => by
    have hnext : Reads ⟨.entry read key :: frames, .value⟩ (Token.ofValue f value)
        ⟨.mapping (Entries.insert key (value.seen f) read) :: frames, .next⟩ :=
      reads_ofValue value rfl
    rw [Token.ofEntries]
    exact .cons rfl (.cons rfl (.cons rfl (hnext.append (reads_ofEntries entries))))

end

end Reading

theorem ofTokens?_ofValue (f : Number → Number) (v : Value) :
    ofTokens? (Token.ofValue f v) = some (v.seen f) := by
  have hreads : Reading.Reads ⟨[], .value⟩ (Token.ofValue f v) ⟨[], .done (v.seen f)⟩ :=
    Reading.reads_ofValue v rfl
  rw [ofTokens?, hreads]
  rfl

variable {numbers : List Char → Option Number} {layout : Layout} {v : Value}

/-- What is printed in any layout is read, by every reader that can read its numbers. -/
theorem readWith_write (h : layout.Blank) {f : Number → Number}
    (hnumbers : ∀ n ∈ v.numbers, numbers n.text.toList = some (f n)) :
    readWith numbers (String.ofList (write layout 0 v)) = some (v.seen f) := by
  rw [readWith, String.toList_ofList, Scan.lex_write h hnumbers]
  exact ofTokens?_ofValue f v

/-- What is printed in any layout is read back as it was. -/
theorem read?_write (h : layout.Blank) (hv : v.WellFormed) (hnumbers : v.Integral) :
    read? (String.ofList (write layout 0 v)) = some v := by
  have hread : ∀ n ∈ v.numbers, number? n.text.toList = some (id n) := by
    intro n hn
    obtain ⟨i, rfl⟩ := hnumbers.exists_integer n hn
    exact number?_text i
  rw [read?, readWith_write h hread, Value.seen_of_wellFormed hv]

/-- The text is a mapping with these keys in this order, to every reader that can read the texts of
numbers, whatever it makes of them. -/
def Lists (text : String) (keys : List String) : Prop :=
  ∀ numbers : List Char → Option Number, (∀ n : Number, ∃ m, numbers n.text.toList = some m) →
    ∃ entries, readWith numbers text = some (.mapping entries) ∧ Entries.keys entries = keys

/-- A text lists its keys in one way only : there are such readers. -/
theorem Lists.unique {text : String} {keys keys' : List String} (h : Lists text keys)
    (h' : Lists text keys') : keys = keys' := by
  obtain ⟨entries, hread, rfl⟩ := h (fun _ => Number.ofNat? 0) fun _ => ⟨_, rfl⟩
  obtain ⟨entries', hread', rfl⟩ := h' (fun _ => Number.ofNat? 0) fun _ => ⟨_, rfl⟩
  cases hread.symm.trans hread'
  rfl

/-- A printed mapping lists its keys. -/
theorem lists_write (h : layout.Blank) {entries : List (String × Value)}
    (hdistinct : (Entries.keys entries).Nodup) :
    Lists (String.ofList (write layout 0 (.mapping entries))) (Entries.keys entries) := by
  intro numbers hnumbers
  choose f hf using hnumbers
  have hseen : Value.seenEntries f [] entries =
      entries.map fun entry => (entry.1, entry.2.seen f) :=
    Value.seenEntries_of_nodup f [] hdistinct
  refine ⟨_, readWith_write h fun n _ => hf n, ?_⟩
  rw [hseen, Entries.keys_map]

end Json

/-! ## Documents -/

/-- All numbers in the definitions of a collection are integers. -/
def Collection.Integral (collection : Collection) : Prop :=
  ∀ entry ∈ collection.entries, (Value.mapping entry.2).Integral

namespace Collection

variable {collection : Collection}

theorem WellFormed.toValue (h : collection.WellFormed) : collection.toValue.WellFormed := by
  refine .mapping ?_ (List.forall_mem_map.2 h)
  rw [Entries.keys_map]
  exact collection.distinct

theorem Integral.toValue (h : collection.Integral) : collection.toValue.Integral :=
  .mapping (List.forall_mem_map.2 h)

/-- The document of a collection lists its names. -/
theorem lists_pretty (collection : Collection) (indent : Nat) :
    Json.Lists (Json.pretty indent collection.toValue) collection.keys := by
  have hkeys : Entries.keys (collection.entries.map fun entry => (entry.1, Value.mapping entry.2)) =
      collection.keys := Entries.keys_map ..
  rw [← hkeys]
  exact Json.lists_write (Json.Layout.blank_indented indent) (hkeys ▸ collection.distinct)

/-- The document of a collection is read back as the collection. -/
theorem read?_pretty (hformed : collection.WellFormed) (hnumbers : collection.Integral)
    (indent : Nat) :
    Json.read? (Json.pretty indent collection.toValue) = some collection.toValue :=
  Json.read?_write (Json.Layout.blank_indented indent) hformed.toValue hnumbers.toValue

end Collection

/-- Every mapping inside the resolved definitions has distinct keys. -/
structure Resolved.WellFormed (resolved : Resolved) : Prop where
  properties : resolved.properties.WellFormed
  objects : resolved.objects.WellFormed

/-- All numbers in the resolved definitions are integers. -/
structure Resolved.Integral (resolved : Resolved) : Prop where
  properties : resolved.properties.Integral
  objects : resolved.objects.Integral

namespace Resolved

/-- Both documents are read back, the properties as they were resolved and the objects as they
were sorted. -/
theorem documents_read_back {resolved : Resolved} {indent : Nat} {documents : Documents}
    (hformed : resolved.WellFormed) (hnumbers : resolved.Integral)
    (h : resolved.render indent = .ok documents) :
    Json.read? documents.properties = some resolved.properties.toValue ∧
    ∃ sorted, resolved.objects.sortByOrder = .ok sorted ∧
      Json.read? documents.objects = some sorted.toValue := by
  obtain ⟨sorted, hsorted, rfl⟩ := render_eq_ok_iff.1 h
  have hmem : ∀ {entry}, entry ∈ sorted.entries → entry ∈ resolved.objects.entries :=
    (Collection.perm_sortByOrder hsorted).mem_iff.1
  exact ⟨Collection.read?_pretty hformed.properties hnumbers.properties indent, sorted, hsorted,
    Collection.read?_pretty (fun _ hentry => hformed.objects _ (hmem hentry))
      (fun _ hentry => hnumbers.objects _ (hmem hentry)) indent⟩

/-- A property with values of all kinds, among them the least and the greatest integer and
characters that are escaped, and two objects that their order exchanges. -/
def gauges : Resolved where
  properties := ⟨[("depth\n", [("base", .null), ("signed", .bool true),
    ("unit", .string "\"m\\\x01"),
    ("range", .sequence [.number (.integer ⟨-9223372036854775808, by decide⟩),
      .number (.integer ⟨18446744073709551615, by decide⟩)]),
    ("limits", .mapping [("above", .sequence []), ("below", .mapping [])])])], by decide⟩
  objects := ⟨[("deep", [("order", .string "b")]), ("shallow", [("order", .string "a")])],
    by decide⟩

/-- The objects as they are listed in their document. -/
def gaugesSorted : Collection :=
  ⟨[("shallow", [("order", .string "a")]), ("deep", [("order", .string "b")])], by decide⟩

theorem sortByOrder_gauges : gauges.objects.sortByOrder = .ok gaugesSorted := by
  refine Collection.sortByOrder_eq_ok_iff.2 ⟨[⟨.text "b", _⟩, ⟨.text "a", _⟩],
    .cons ⟨rfl, rfl⟩ (.cons ⟨rfl, rfl⟩ .nil), by simp [Ranked.OneKind, OrderKey.kind], ?_⟩
  have hle : OrderKey.le (.text "b") (.text "a") = false := by decide
  rw [List.mergeSort]
  simp [Ranked.le, hle, gaugesSorted]

theorem documents_read_back_gauges :
    gauges.WellFormed ∧ gauges.Integral ∧ ∃ documents, gauges.render 0 = .ok documents ∧
      Json.read? documents.properties = some gauges.properties.toValue ∧
      Json.read? documents.objects = some gaugesSorted.toValue := by
  have hformed : gauges.WellFormed := by
    constructor <;> simp [gauges, Collection.WellFormed, or_imp, forall_and]
  have hnumbers : gauges.Integral := by
    constructor <;> simp [gauges, Collection.Integral, or_imp, forall_and]
  have hrender : gauges.render 0 = .ok _ := render_eq_ok_iff.2 ⟨_, sortByOrder_gauges, rfl⟩
  obtain ⟨hproperties, sorted, hsorted, hobjects⟩ := documents_read_back hformed hnumbers hrender
  obtain rfl := Except.ok.inj (sortByOrder_gauges.symm.trans hsorted)
  exact ⟨hformed, hnumbers, _, hrender, hproperties, hobjects⟩

end Resolved

end Pedigree
