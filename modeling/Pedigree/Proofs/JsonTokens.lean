import Mathlib.Data.List.TakeWhile
import Mathlib.Tactic.SplitIfs
import Pedigree.Json.Printer
import Pedigree.Json.Token
import Pedigree.Proofs.NumberTexts

/-!
# The tokens of a printed value

A printed value has the tokens of its brackets, keys and scalars, whatever white space the layout
puts between them (`Scan.run_write`). Brackets, commas and strings end by themselves. A word or a
number ends with the character after it, so what follows a value has to start with a character that
no word goes on with (`Ends`). In a printed text that is a comma, a closing bracket or white space.

Strings are read back character by character (`Scan.reads_escapeChar`). A number has one token,
whatever the text of it is read as. Integers of 64 bits are read back digit by digit
(`number?_text`).
-/

namespace Pedigree

open Text

/-- All numbers in the value are integers. -/
inductive Value.Integral : Value → Prop where
  | null : Integral .null
  | bool (b : Bool) : Integral (.bool b)
  | integer (n : Integer64) : Integral (.number (.integer n))
  | string (s : String) : Integral (.string s)
  | sequence {items : List Value} (h : ∀ item ∈ items, Integral item) : Integral (.sequence items)
  | mapping {entries : List (String × Value)} (h : ∀ entry ∈ entries, Integral entry.2) :
      Integral (.mapping entries)

namespace Value

@[simp] theorem integral_null : Value.null.Integral := .null

@[simp] theorem integral_bool (b : Bool) : (Value.bool b).Integral := .bool b

@[simp] theorem integral_integer (n : Integer64) : (Value.number (.integer n)).Integral :=
  .integer n

@[simp] theorem integral_string (s : String) : (Value.string s).Integral := .string s

@[simp] theorem integral_sequence_iff {items : List Value} :
    (Value.sequence items).Integral ↔ ∀ item ∈ items, item.Integral := by
  refine ⟨?_, .sequence⟩
  rintro ⟨⟩
  assumption

@[simp] theorem integral_mapping_iff {entries : List (String × Value)} :
    (Value.mapping entries).Integral ↔ ∀ entry ∈ entries, entry.2.Integral := by
  refine ⟨?_, .mapping⟩
  rintro ⟨⟩
  assumption

mutual

/-- The numbers in a value. -/
def numbers : Value → List Number
  | .number n => [n]
  | .sequence items => itemNumbers items
  | .mapping entries => entryNumbers entries
  | _ => []

/-- The numbers in the items of a sequence. -/
def itemNumbers : List Value → List Number
  | [] => []
  | item :: rest => item.numbers ++ itemNumbers rest

/-- The numbers in the values of a mapping. -/
def entryNumbers : List (String × Value) → List Number
  | [] => []
  | entry :: rest => entry.2.numbers ++ entryNumbers rest

end

theorem mem_itemNumbers {n : Number} {items : List Value} :
    n ∈ itemNumbers items ↔ ∃ item ∈ items, n ∈ item.numbers := by
  induction items with
  | nil => simp [itemNumbers]
  | cons item rest ih => simp [itemNumbers, ih]

theorem mem_entryNumbers {n : Number} {entries : List (String × Value)} :
    n ∈ entryNumbers entries ↔ ∃ entry ∈ entries, n ∈ entry.2.numbers := by
  induction entries with
  | nil => simp [entryNumbers]
  | cons entry rest ih => simp [entryNumbers, ih]

theorem Integral.exists_integer {v : Value} (h : v.Integral) :
    ∀ n ∈ v.numbers, ∃ i, n = .integer i := by
  induction h with
  | integer i => exact fun n hn => ⟨i, List.mem_singleton.1 hn⟩
  | sequence _ ih =>
    intro n hn
    obtain ⟨item, hitem, hn⟩ := mem_itemNumbers.1 hn
    exact ih item hitem n hn
  | mapping _ ih =>
    intro n hn
    obtain ⟨entry, hentry, hn⟩ := mem_entryNumbers.1 hn
    exact ih entry hentry n hn
  | _ => exact List.forall_mem_nil _

end Value

namespace Number

theorem le_ofDigitChars (digits : List Char) (n : Nat) : n ≤ Nat.ofDigitChars 10 digits n := by
  rw [Nat.ofDigitChars_eq_ofDigitChars_zero]
  have hpos : 0 < 10 ^ digits.length := Nat.pow_pos (by decide)
  exact Nat.le_trans (Nat.le_mul_of_pos_left n hpos) (Nat.le_add_right ..)

/-- Digits are absorbed if the number that they spell fits. -/
theorem absorb_digits {digits : List Char} {significand : Nat}
    (h : Nat.ofDigitChars 10 digits significand < Nat.pow 2 64) :
    absorb significand (digits.map digitValue) =
      (Nat.ofDigitChars 10 digits significand, []) := by
  induction digits generalizing significand with
  | nil => simp [absorb]
  | cons c digits ih =>
    have hnext : significand * 10 + digitValue c = 10 * significand + (c.toNat - '0'.toNat) := by
      rw [Nat.mul_comm]
      rfl
    rw [Nat.ofDigitChars_cons] at h ⊢
    rw [List.map_cons, absorb, hnext, if_pos (Nat.lt_of_le_of_lt (le_ofDigitChars ..) h), ih h]

theorem ofInt?_toInt (n : Integer64) : ofInt? n.toInt = some (.integer n) := by
  rw [ofInt?, Integer64.ofInt?, dif_pos n.inRange]
  rfl

end Number

namespace Json

/-! ## Layouts and tokens -/

/-- Nothing but white space, and one colon after a key. -/
structure Layout.Blank (layout : Layout) : Prop where
  line : ∀ depth, ∀ c ∈ layout.line depth, isSpace c = true
  colon : ∃ blank, layout.colon = ':' :: blank ∧ ∀ c ∈ blank, isSpace c = true

theorem Layout.blank_indented (indent : Nat) : (indented indent).Blank := by
  refine ⟨fun depth c hc => ?_, [' '], rfl, by simp [isSpace]⟩
  rcases List.mem_cons.1 hc with rfl | hc
  · decide
  · rw [(List.mem_replicate.1 hc).2]
    decide

namespace Token

mutual

/-- The tokens of a value, where `f` is what its numbers are read as. -/
def ofValue (f : Number → Number) : Value → List Token
  | .null => [.null]
  | .bool b => [.bool b]
  | .number n => [.number (f n)]
  | .string s => [.string s]
  | .sequence [] => [.beginSequence, .endSequence]
  | .sequence (item :: rest) =>
    .beginSequence :: (ofValue f item ++ ofItems f rest ++ [.endSequence])
  | .mapping [] => [.beginMapping, .endMapping]
  | .mapping ((key, value) :: rest) =>
    .beginMapping :: .string key :: .colon :: (ofValue f value ++ ofEntries f rest ++
      [.endMapping])

/-- The tokens of the items after the first one. -/
def ofItems (f : Number → Number) : List Value → List Token
  | [] => []
  | item :: rest => .comma :: (ofValue f item ++ ofItems f rest)

/-- The tokens of the entries after the first one. -/
def ofEntries (f : Number → Number) : List (String × Value) → List Token
  | [] => []
  | (key, value) :: rest =>
    .comma :: .string key :: .colon :: (ofValue f value ++ ofEntries f rest)

end

end Token

/-- No word or number goes on with this character. -/
def isDelimiter (c : Char) : Bool := (punctuation? c).isSome || isSpace c || c = '"'

/-- The characters that delimit words and numbers. -/
def delimiters : List Char := ['[', ']', '{', '}', ',', ':', ' ', '\t', '\n', '\r', '"']

theorem isDelimiter_eq_false {c : Char} (h : c ∉ delimiters) : isDelimiter c = false := by
  simp only [delimiters, List.mem_cons, List.not_mem_nil, or_false, not_or] at h
  simp [isDelimiter, punctuation?, isSpace, h]

/-- A word or a number before the text ends there. -/
def Ends : List Char → Prop
  | [] => True
  | c :: _ => isDelimiter c = true

theorem Ends.blank_append {blank rest : List Char} (h : ∀ c ∈ blank, isSpace c = true)
    (hrest : Ends rest) : Ends (blank ++ rest) := by
  cases blank with
  | nil => exact hrest
  | cons c blank =>
    have hc := h c (List.mem_cons_self ..)
    change isDelimiter c = true
    rw [isDelimiter, hc, Bool.or_true, Bool.true_or]

/-! ## Integers -/

/-- No number but zero starts with a zero. -/
theorem length_toDigits_of_head? {n : Nat} (h : (Nat.toDigits 10 n).head? = some '0') :
    (Nat.toDigits 10 n).length = 1 := by
  suffices hzero : n = 0 by
    rw [hzero]
    rfl
  induction n using Nat.strongRecOn with
  | ind n ih =>
    rw [Nat.toDigits_eq_if (by decide)] at h
    split at h
    · simpa using h
    · obtain ⟨c, hc⟩ : ∃ c, (Nat.toDigits 10 (n / 10)).head? = some c :=
        Option.ne_none_iff_exists'.1 fun hnone =>
          Nat.toDigits_ne_nil (List.head?_eq_none_iff.1 hnone)
      rw [List.head?_append, hc, Option.some_or] at h
      have hquotient := ih (n / 10) (by omega) (hc.trans h)
      omega

/-- Digits are read as a literal, with or without a sign before them. -/
theorem number?_digits {digits : List Char} (hdigits : ∀ c ∈ digits, c.isDigit = true)
    (hne : digits ≠ []) (hzero : digits.head? = some '0' → digits.length = 1) :
    number? digits = Number.ofLiteral? ⟨false, digits.map digitValue, none, none⟩ ∧
      number? ('-' :: digits) = Number.ofLiteral? ⟨true, digits.map digitValue, none, none⟩ := by
  have hwhole : digits.takeWhile Char.isDigit = digits := List.takeWhile_eq_self_iff.2 hdigits
  have hrest : digits.dropWhile Char.isDigit = [] := List.dropWhile_eq_nil_iff.2 hdigits
  have hspelled : (digits.isEmpty || (digits.head? == some '0' && digits.length != 1)) = false := by
    simpa [hne] using hzero
  constructor
  · unfold number?
    split
    rename_i negative unsigned hsign
    split at hsign
    · -- A sign is no digit.
      cases hdigits '-' (List.mem_cons_self ..)
    · obtain ⟨rfl, rfl⟩ := Prod.mk.inj hsign
      simp [hwhole, hrest, hspelled, exponent?]
  · simp [number?, hwhole, hrest, hspelled, exponent?]

theorem number?_toDigits (n : Nat) :
    number? (Nat.toDigits 10 n) =
      Number.ofLiteral? ⟨false, (Nat.toDigits 10 n).map digitValue, none, none⟩ ∧
    number? ('-' :: Nat.toDigits 10 n) =
      Number.ofLiteral? ⟨true, (Nat.toDigits 10 n).map digitValue, none, none⟩ :=
  number?_digits (isDigit_toDigits n) Nat.toDigits_ne_nil length_toDigits_of_head?

theorem absorb_toDigits {n : Nat} (h : n < Nat.pow 2 64) :
    Number.absorb 0 ((Nat.toDigits 10 n).map digitValue) = (n, []) := by
  have hspelled : Nat.ofDigitChars 10 (Nat.toDigits 10 n) 0 = n := Nat.ofDigitChars_ten_toDigits
  rw [Number.absorb_digits (by rwa [hspelled]), hspelled]

/-- An integer of 64 bits is read back as it was. -/
theorem number?_text (n : Integer64) :
    number? (Number.text (.integer n)).toList = some (.integer n) := by
  obtain ⟨hleast, hgreatest⟩ := n.inRange
  have hlt : Nat.pow 2 63 < Nat.pow 2 64 := by decide
  have hfits : n.toInt.natAbs < Nat.pow 2 64 := by omega
  rw [Number.toList_text_integer]
  simp only [decide_eq_true_eq]
  split
  · have hcast : -(n.toInt.natAbs : Int) = n.toInt := by omega
    have hsmall : ¬(n.toInt.natAbs = 0 ∨ Nat.pow 2 63 < n.toInt.natAbs) := by omega
    rw [List.singleton_append, (number?_toDigits _).2, Number.ofLiteral?, absorb_toDigits hfits]
    simp only [if_true, if_neg hsmall, hcast, Number.ofInt?_toInt]
  · have hcast : (n.toInt.natAbs : Int) = n.toInt := by omega
    rw [List.nil_append, (number?_toDigits _).1, Number.ofLiteral?, absorb_toDigits hfits]
    simp only [Bool.false_eq_true, if_false, Number.ofNat?, hcast, Number.ofInt?_toInt]

/-! ## Words -/

/-- A number is no word. -/
theorem bare?_text {numbers : List Char → Option Number} {n m : Number}
    (h : numbers n.text.toList = some m) : bare? numbers n.text.toList = some (.number m) := by
  have hword : ∀ word, (∃ c ∈ word, isNumeral c = false) → n.text.toList ≠ word := by
    rintro word ⟨c, hc, hnumeral⟩ rfl
    rw [n.isNumeral_of_mem_text c hc] at hnumeral
    cases hnumeral
  rw [bare?, if_neg (hword _ ⟨'n', by simp, rfl⟩), if_neg (hword _ ⟨'t', by simp, rfl⟩),
    if_neg (hword _ ⟨'f', by simp, rfl⟩), h]
  rfl

theorem isDelimiter_of_isNumeral {c : Char} (h : isNumeral c = true) : isDelimiter c = false := by
  refine isDelimiter_eq_false fun hmem => ?_
  have hall : delimiters.all (fun d => !isNumeral d) = true := by decide
  have hnone := List.all_eq_true.1 hall c hmem
  rw [h] at hnone
  cases hnone

theorem isDelimiter_of_mem_text (n : Number) : ∀ c ∈ n.text.toList, isDelimiter c = false :=
  fun c hc => isDelimiter_of_isNumeral (n.isNumeral_of_mem_text c hc)

/-! ## Steps of a reader -/

/-- The inputs take one state of a reader to another. -/
def Steps {σ α : Type} (step : σ → α → Option σ) (s : σ) (inputs : List α) (s' : σ) : Prop :=
  inputs.foldlM step s = some s'

namespace Steps

variable {σ α : Type} {step : σ → α → Option σ} {s s' s'' : σ} {inputs more : List α}

theorem nil (s : σ) : Steps step s [] s := rfl

theorem cons {input : α} (h : step s input = some s') (hmore : Steps step s' more s'') :
    Steps step s (input :: more) s'' := by
  rw [Steps, List.foldlM_cons, h]
  exact hmore

theorem append (h : Steps step s inputs s') (hmore : Steps step s' more s'') :
    Steps step s (inputs ++ more) s'' := by
  rw [Steps, List.foldlM_append, h]
  exact hmore

end Steps

namespace Scan

variable {numbers : List Char → Option Number}

/-- The text takes one scan to another. -/
abbrev Reads (numbers : List Char → Option Number) (scan : Scan) (text : List Char)
    (after : Scan) : Prop := Steps (step numbers) scan text after

/-- The tokens of a text, from here on. -/
def run (numbers : List Char → Option Number) (scan : Scan) (text : List Char) :
    Option (List Token) :=
  (text.foldlM (step numbers) scan).bind (finish numbers)

theorem run_cons (scan : Scan) (c : Char) (rest : List Char) :
    run numbers scan (c :: rest) =
      (step numbers scan c).bind fun after => run numbers after rest := by
  rw [run, List.foldlM_cons]
  exact Option.bind_assoc ..

theorem Reads.run_append {scan after : Scan} {text : List Char}
    (h : Reads numbers scan text after) (rest : List Char) :
    run numbers scan (text ++ rest) = run numbers after rest := by
  rw [run, List.foldlM_append, h]
  rfl

variable {toks : List Token} {rest : List Char}

theorem reads_punctuation {c : Char} {token : Token} (h : punctuation? c = some token) :
    Reads numbers ⟨.between, toks⟩ [c] ⟨.between, token :: toks⟩ := by
  refine .cons (?_ : start toks c = _) rfl
  rw [start, h]

theorem punctuation?_of_isSpace {c : Char} (h : isSpace c = true) : punctuation? c = none := by
  have hc : c = ' ' ∨ c = '\t' ∨ c = '\n' ∨ c = '\r' := by simpa [isSpace, or_assoc] using h
  rcases hc with rfl | rfl | rfl | rfl <;> rfl

theorem reads_blank {blank : List Char} (h : ∀ c ∈ blank, isSpace c = true) :
    Reads numbers ⟨.between, toks⟩ blank ⟨.between, toks⟩ := by
  induction blank with
  | nil => rfl
  | cons c blank ih =>
    obtain ⟨hc, hblank⟩ := List.forall_mem_cons.1 h
    refine .cons (?_ : start toks c = _) (ih hblank)
    rw [start, punctuation?_of_isSpace hc]
    exact if_pos hc

/-! ### Strings -/

theorem hexValue?_hexDigit : ∀ d < 16, hexValue? (hexDigit d) = some d := by
  decide

/-- What a character is escaped to is read as the character. -/
theorem reads_escapeChar (c : Char) (read : List Char) :
    Reads numbers ⟨.quoted read, toks⟩ (escapeChar c) ⟨.quoted (c :: read), toks⟩ := by
  unfold escapeChar
  split_ifs with hquote hbackslash hn hr ht hb hf hunit
  · subst hquote
    rfl
  · subst hbackslash
    rfl
  · subst hn
    rfl
  · subst hr
    rfl
  · subst ht
    rfl
  · subst hb
    rfl
  · subst hf
    rfl
  · -- The two zeros leave the code unit at zero, so it is spelled by the last two digits.
    have hhigh := hexValue?_hexDigit (c.toNat / 16) (by omega)
    have hlow := hexValue?_hexDigit (c.toNat % 16) (by omega)
    have hvalue : c.toNat / 16 * 16 + c.toNat % 16 = c.toNat := Nat.div_add_mod' ..
    have hstart : step numbers ⟨.unit read none 2 0, toks⟩ (hexDigit (c.toNat / 16)) =
        some ⟨.unit read none 1 (c.toNat / 16), toks⟩ := by
      simp [step, hhigh]
    have hend : step numbers ⟨.unit read none 1 (c.toNat / 16), toks⟩ (hexDigit (c.toNat % 16)) =
        some ⟨.quoted (c :: read), toks⟩ := by
      have hlead : ¬(0xD800 ≤ c.toNat ∧ c.toNat < 0xDC00) := by omega
      have htrail : ¬(0xDC00 ≤ c.toNat ∧ c.toNat < 0xE000) := by omega
      simp [step, hlow, hvalue, endUnit, hlead, htrail]
    exact .cons rfl (.cons rfl (.cons rfl (.cons rfl (.cons hstart (.cons hend rfl)))))
  · have hstep : step numbers ⟨.quoted read, toks⟩ c = some ⟨.quoted (c :: read), toks⟩ := by
      simp [step, hquote, hbackslash, hunit]
    exact .cons hstep rfl

theorem reads_escaped (text read : List Char) :
    Reads numbers ⟨.quoted read, toks⟩ (text.flatMap escapeChar)
      ⟨.quoted (text.reverse ++ read), toks⟩ := by
  induction text generalizing read with
  | nil => rfl
  | cons c text ih =>
    rw [List.flatMap_cons, List.reverse_cons, List.append_assoc]
    exact (reads_escapeChar c read).append (ih (c :: read))

/-- A string is read back as it was. -/
theorem reads_quote (s : String) :
    Reads numbers ⟨.between, toks⟩ (quote s) ⟨.between, .string s :: toks⟩ := by
  have hend : step numbers ⟨.quoted (s.toList.reverse ++ []), toks⟩ '"' =
      some ⟨.between, .string s :: toks⟩ := by
    simp [step]
  exact .cons rfl ((reads_escaped s.toList []).append (.cons hend rfl))

/-! ### Words and numbers -/

theorem start_of_not_delimiter {c : Char} (h : isDelimiter c = false) :
    start toks c = some ⟨.bare [c], toks⟩ := by
  obtain ⟨⟨hpunctuation, hspace⟩, hquote⟩ :
      (punctuation? c = none ∧ isSpace c = false) ∧ ¬c = '"' := by
    simpa [isDelimiter] using h
  simp [start, hpunctuation, hspace, hquote]

theorem reads_bare {word : List Char} (h : ∀ c ∈ word, isDelimiter c = false) (read : List Char) :
    Reads numbers ⟨.bare read, toks⟩ word ⟨.bare (word.reverse ++ read), toks⟩ := by
  induction word generalizing read with
  | nil => rfl
  | cons c word ih =>
    obtain ⟨hc, hword⟩ := List.forall_mem_cons.1 h
    have hstep : step numbers ⟨.bare read, toks⟩ c = some ⟨.bare (c :: read), toks⟩ := by
      have hd : ((punctuation? c).isSome || isSpace c || c = '"') = false := hc
      simp [step, hd]
    rw [List.reverse_cons, List.append_assoc]
    exact .cons hstep (ih hword (c :: read))

/-- A word or a number ends where the text ends or a delimiter comes. -/
theorem run_bare {word : List Char} {token : Token} (hword : bare? numbers word = some token)
    (hne : word ≠ []) (h : ∀ c ∈ word, isDelimiter c = false) (hrest : Ends rest) :
    run numbers ⟨.between, toks⟩ (word ++ rest) = run numbers ⟨.between, token :: toks⟩ rest := by
  obtain ⟨c, word, rfl⟩ := List.exists_cons_of_ne_nil hne
  obtain ⟨hc, hcs⟩ := List.forall_mem_cons.1 h
  have hread : Reads numbers ⟨.between, toks⟩ (c :: word) ⟨.bare (c :: word).reverse, toks⟩ := by
    rw [List.reverse_cons]
    exact .cons (start_of_not_delimiter hc) (reads_bare hcs [c])
  rw [hread.run_append]
  -- The scan is still inside of the word : only what comes next, or the end, gives the token.
  cases rest with
  | nil => simp [run, finish, hword]
  | cons d rest =>
    have hstep : step numbers ⟨.bare (c :: word).reverse, toks⟩ d =
        step numbers ⟨.between, token :: toks⟩ d := by
      have hd : ((punctuation? d).isSome || isSpace d || d = '"') = true := hrest
      simp only [step, hd, if_true, List.reverse_reverse, hword, Option.bind_some]
    rw [run_cons, run_cons, hstep]

/-! ### Printed values -/

theorem run_punctuation {c : Char} {token : Token} (h : punctuation? c = some token) :
    run numbers ⟨.between, toks⟩ (c :: rest) = run numbers ⟨.between, token :: toks⟩ rest :=
  (reads_punctuation h).run_append rest

theorem run_blank {blank : List Char} (h : ∀ c ∈ blank, isSpace c = true) :
    run numbers ⟨.between, toks⟩ (blank ++ rest) = run numbers ⟨.between, toks⟩ rest :=
  (reads_blank h).run_append rest

theorem run_quote (s : String) :
    run numbers ⟨.between, toks⟩ (quote s ++ rest) =
      run numbers ⟨.between, .string s :: toks⟩ rest :=
  (reads_quote s).run_append rest

theorem run_colon {layout : Layout} (h : layout.Blank) :
    run numbers ⟨.between, toks⟩ (layout.colon ++ rest) =
      run numbers ⟨.between, .colon :: toks⟩ rest := by
  obtain ⟨blank, hcolon, hblank⟩ := h.colon
  rw [hcolon, List.cons_append, run_punctuation rfl, run_blank hblank]

variable {layout : Layout} {f : Number → Number}

theorem ends_writeItems {depth : Nat} (items : List Value) (hrest : Ends rest) :
    Ends (writeItems layout depth items ++ rest) := by
  cases items with
  | nil => exact hrest
  | cons item items => exact rfl

theorem ends_writeEntries {depth : Nat} (entries : List (String × Value)) (hrest : Ends rest) :
    Ends (writeEntries layout depth entries ++ rest) := by
  cases entries with
  | nil => exact hrest
  | cons entry entries => exact rfl

-- Each part of a printed text is read off its front. Between two parts the tokens that have been
-- read grow, and what is left still starts where a word or a number may end.

mutual

/-- A printed value has the tokens of the value. -/
theorem run_write (h : layout.Blank) : ∀ (v : Value) (depth : Nat) {toks : List Token}
    {rest : List Char}, (∀ n ∈ v.numbers, numbers n.text.toList = some (f n)) → Ends rest →
      run numbers ⟨.between, toks⟩ (write layout depth v ++ rest) =
        run numbers ⟨.between, (Token.ofValue f v).reverse ++ toks⟩ rest
  | .null, _, _, _, _, hrest => by
    rw [write]
    exact run_bare rfl (by simp) (by simp [isDelimiter, punctuation?, isSpace]) hrest
  | .bool true, _, _, _, _, hrest => by
    rw [write]
    exact run_bare rfl (by simp) (by simp [isDelimiter, punctuation?, isSpace]) hrest
  | .bool false, _, _, _, _, hrest => by
    rw [write]
    exact run_bare rfl (by simp) (by simp [isDelimiter, punctuation?, isSpace]) hrest
  | .number n, _, _, _, hv, hrest =>
    run_bare (bare?_text (hv n (List.mem_singleton_self n))) n.toList_text_ne_nil
      (isDelimiter_of_mem_text n) hrest
  | .string s, _, _, _, _, _ => run_quote s
  | .sequence [], _, toks, rest, _, _ => by
    change run numbers ⟨.between, toks⟩ ('[' :: ']' :: rest) = _
    rw [run_punctuation rfl, run_punctuation rfl]
    rfl
  | .sequence (item :: items), depth, toks, rest, hv, hrest => by
    have hclose : Ends (layout.line depth ++ ']' :: rest) := .blank_append (h.line depth) rfl
    obtain ⟨hitem, hitems⟩ := List.forall_mem_append.1 hv
    simp only [write, List.cons_append, List.append_assoc, List.nil_append]
    rw [run_punctuation rfl, run_blank (h.line _),
      run_write h item _ hitem (ends_writeItems _ hclose), run_writeItems h items _ hitems hclose,
      run_blank (h.line _), run_punctuation rfl]
    simp [Token.ofValue]
  | .mapping [], _, toks, rest, _, _ => by
    change run numbers ⟨.between, toks⟩ ('{' :: '}' :: rest) = _
    rw [run_punctuation rfl, run_punctuation rfl]
    rfl
  | .mapping ((key, value) :: entries), depth, toks, rest, hv, hrest => by
    have hclose : Ends (layout.line depth ++ '}' :: rest) := .blank_append (h.line depth) rfl
    obtain ⟨hvalue, hentries⟩ := List.forall_mem_append.1 hv
    simp only [write, List.cons_append, List.append_assoc, List.nil_append]
    rw [run_punctuation rfl, run_blank (h.line _), run_quote, run_colon h,
      run_write h value _ hvalue (ends_writeEntries _ hclose),
      run_writeEntries h entries _ hentries hclose, run_blank (h.line _), run_punctuation rfl]
    simp [Token.ofValue]

theorem run_writeItems (h : layout.Blank) : ∀ (items : List Value) (depth : Nat)
    {toks : List Token} {rest : List Char},
    (∀ n ∈ Value.itemNumbers items, numbers n.text.toList = some (f n)) → Ends rest →
      run numbers ⟨.between, toks⟩ (writeItems layout depth items ++ rest) =
        run numbers ⟨.between, (Token.ofItems f items).reverse ++ toks⟩ rest
  | [], _, _, _, _, _ => rfl
  | item :: items, depth, toks, rest, hv, hrest => by
    obtain ⟨hitem, hitems⟩ := List.forall_mem_append.1 hv
    simp only [writeItems, List.cons_append, List.append_assoc]
    rw [run_punctuation rfl, run_blank (h.line _),
      run_write h item _ hitem (ends_writeItems _ hrest), run_writeItems h items _ hitems hrest]
    simp [Token.ofItems]

theorem run_writeEntries (h : layout.Blank) : ∀ (entries : List (String × Value)) (depth : Nat)
    {toks : List Token} {rest : List Char},
    (∀ n ∈ Value.entryNumbers entries, numbers n.text.toList = some (f n)) → Ends rest →
      run numbers ⟨.between, toks⟩ (writeEntries layout depth entries ++ rest) =
        run numbers ⟨.between, (Token.ofEntries f entries).reverse ++ toks⟩ rest
  | [], _, _, _, _, _ => rfl
  | (key, value) :: entries, depth, toks, rest, hv, hrest => by
    obtain ⟨hvalue, hentries⟩ := List.forall_mem_append.1 hv
    simp only [writeEntries, List.cons_append, List.append_assoc]
    rw [run_punctuation rfl, run_blank (h.line _), run_quote, run_colon h,
      run_write h value _ hvalue (ends_writeEntries _ hrest),
      run_writeEntries h entries _ hentries hrest]
    simp [Token.ofEntries]

end

/-- The tokens of a printed value are the tokens of the value. -/
theorem lex_write (h : layout.Blank) {v : Value}
    (hv : ∀ n ∈ v.numbers, numbers n.text.toList = some (f n)) :
    Token.lex numbers (write layout 0 v) = some (Token.ofValue f v) := by
  have hrun : run numbers ⟨.between, []⟩ (write layout 0 v ++ []) =
      run numbers ⟨.between, (Token.ofValue f v).reverse ++ []⟩ [] := run_write h v 0 hv trivial
  rw [List.append_nil, List.append_nil] at hrun
  exact hrun.trans (congrArg some (List.reverse_reverse _))

end Scan

end Json

end Pedigree
