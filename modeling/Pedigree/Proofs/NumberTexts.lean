import Mathlib.Data.List.TakeWhile
import Pedigree.Number
import Pedigree.Number.Reading
import Pedigree.Proofs.ShortestDecimals

/-!
# Texts of numbers

A float is written with a point, an exponent or both (`Decimal.Spells`), and is read as the decimal
that was written (`Decimal.Spells.read?`). That decimal lies in the interval of the reals that round
to the float, so no other float has the same text. An integer has neither a point nor an exponent.
So the text of a number determines the number (`Number.text_injective`).
-/

namespace Pedigree

open Text

/-! ## Texts of decimals -/

namespace Text

theorem ofDigits_map_digitValue (digits : List Char) :
    ofDigits 10 (digits.map digitValue) = Nat.ofDigitChars 10 digits 0 := by
  rw [ofDigits, List.foldl_map, Nat.ofDigitChars_eq_foldl]
  simp only [Nat.mul_comm]
  rfl

theorem digitIn?_of_isDigit {c : Char} (h : c.isDigit = true) :
    digitIn? 10 c = some (digitValue c) := by
  have hrange : '0' ≤ c ∧ c ≤ '9' := by
    have hboth : (decide ('0' ≤ c) && decide (c ≤ '9')) = true := h
    simpa using hboth
  have hlt : digitValue c < 10 := by
    have hle : c.toNat ≤ 57 := hrange.2
    unfold digitValue
    omega
  rw [digitIn?, hexValue?, if_pos hrange, Option.filter_some]
  exact if_pos (decide_eq_true hlt)

theorem isDigit_toDigits (n : Nat) : ∀ c ∈ Nat.toDigits 10 n, c.isDigit = true :=
  fun _ => Nat.isDigit_of_mem_toDigits (by decide) (by decide)

theorem toDigits_injective : Function.Injective (Nat.toDigits 10) := by
  intro m n h
  calc m = Nat.ofDigitChars 10 (Nat.toDigits 10 m) 0 := Nat.ofDigitChars_ten_toDigits.symm
    _ = Nat.ofDigitChars 10 (Nat.toDigits 10 n) 0 := by rw [h]
    _ = n := Nat.ofDigitChars_ten_toDigits

theorem naturalIn?_toDigits (n : Nat) : naturalIn? 10 (Nat.toDigits 10 n) = some n := by
  have hdigits : ∀ digits : List Char, (∀ c ∈ digits, c.isDigit = true) →
      digits.mapM (digitIn? 10) = some (digits.map digitValue) := by
    intro digits h
    induction digits with
    | nil => rfl
    | cons c digits ih =>
      obtain ⟨hc, hdigits⟩ := List.forall_mem_cons.1 h
      rw [List.mapM_cons, digitIn?_of_isDigit hc, ih hdigits]
      rfl
  rw [naturalIn?, if_neg (by simp),
    hdigits _ (isDigit_toDigits n), Option.map_some, ofDigits_map_digitValue,
    Nat.ofDigitChars_ten_toDigits]

end Text

namespace Decimal

/-- The exponent of a text, with its mark and its sign. -/
def marked (exponent : ℤ) : List Char :=
  'e' :: (if exponent < 0 then '-' else '+') :: Nat.toDigits 10 exponent.natAbs

theorem exponent?_marked (exponent : ℤ) : exponent? (marked exponent) = some exponent := by
  unfold marked
  split
  · simp only [exponent?, true_or, if_true, naturalIn?_toDigits]
    exact congrArg some (show -(exponent.natAbs : ℤ) = exponent by omega)
  · simp only [exponent?, true_or, if_true, naturalIn?_toDigits]
    exact congrArg some (show (exponent.natAbs : ℤ) = exponent by omega)

/-- The number that digits before and after a point stand for, with an exponent. -/
def pointed (whole fraction : List Char) (exponent : ℤ) : ℚ :=
  (⟨Nat.ofDigitChars 10 (whole ++ fraction) 0, exponent - fraction.length⟩ : Decimal).value

/-- The text spells the number, with digits before a point, digits after it and an exponent. -/
inductive Spells : List Char → ℚ → Prop
  | fixed {whole fraction : List Char} (hne : whole ≠ [])
    (hdigits : ∀ c ∈ whole ++ fraction, c.isDigit = true) :
    Spells (whole ++ '.' :: fraction) (pointed whole fraction 0)
  | scaled {whole fraction : List Char} (hne : whole ≠ [])
    (hdigits : ∀ c ∈ whole ++ fraction, c.isDigit = true) (exponent : ℤ) :
    Spells (whole ++ (if fraction = [] then [] else '.' :: fraction) ++ marked exponent)
      (pointed whole fraction exponent)

variable {text : List Char} {q : ℚ}

/-- Digits are read up to the first character that is none. -/
theorem takeWhile_dropWhile_digits {digits rest : List Char} (h : ∀ c ∈ digits, c.isDigit = true)
    (hrest : ∀ c ∈ rest.head?, c.isDigit = false) :
    (digits ++ rest).takeWhile Char.isDigit = digits ∧
      (digits ++ rest).dropWhile Char.isDigit = rest := by
  rw [List.takeWhile_append_of_pos h, List.dropWhile_append_of_pos h]
  cases rest with
  | nil => simp
  | cons c rest =>
    have hc := hrest c rfl
    simp [hc]

/-- What is read of digits with a point and an exponent. -/
theorem read?_pointed {whole fraction rest : List Char} {exponent : ℤ} (hne : whole ≠ [])
    (hdigits : ∀ c ∈ whole ++ fraction, c.isDigit = true)
    (hrest : ∀ c ∈ rest.head?, c.isDigit = false) (hexponent : exponent? rest = some exponent) :
    Decimal.read? (whole ++ '.' :: (fraction ++ rest)) =
      some ⟨Nat.ofDigitChars 10 (whole ++ fraction) 0, exponent - fraction.length⟩ := by
  obtain ⟨hwhole, hfraction⟩ := List.forall_mem_append.1 hdigits
  have hpoint : ∀ c ∈ ('.' :: (fraction ++ rest)).head?, c.isDigit = false := by
    rintro c ⟨⟩
    rfl
  obtain ⟨htake, hdrop⟩ := takeWhile_dropWhile_digits hwhole hpoint
  obtain ⟨htake', hdrop'⟩ := takeWhile_dropWhile_digits hfraction hrest
  unfold Decimal.read?
  simp only [htake, hdrop, htake', hdrop', hexponent, ofDigits_map_digitValue]
  simp [hne]

/-- What is read of digits with an exponent alone. -/
theorem read?_scaled {whole rest : List Char} {exponent : ℤ} (hne : whole ≠ [])
    (hdigits : ∀ c ∈ whole, c.isDigit = true)
    (hexponent : exponent? ('e' :: rest) = some exponent) :
    Decimal.read? (whole ++ 'e' :: rest) = some ⟨Nat.ofDigitChars 10 whole 0, exponent⟩ := by
  have hmark : ∀ c ∈ ('e' :: rest).head?, c.isDigit = false := by
    rintro c ⟨⟩
    rfl
  obtain ⟨htake, hdrop⟩ := takeWhile_dropWhile_digits hdigits hmark
  unfold Decimal.read?
  simp only [htake, hdrop]
  simp [hne, hexponent, ofDigits_map_digitValue]

/-- A text that spells a number is read as the number. -/
theorem Spells.read? (h : Spells text q) : ∃ d, Decimal.read? text = some d ∧ d.value = q := by
  cases h with
  | @fixed whole fraction hne hdigits =>
    have hnone : ∀ c ∈ ([] : List Char).head?, c.isDigit = false := nofun
    have hread := read?_pointed hne hdigits hnone rfl
    rw [List.append_nil] at hread
    exact ⟨_, hread, rfl⟩
  | @scaled whole fraction hne hdigits exponent =>
    split
    · rename_i hfraction
      subst hfraction
      have hread := read?_scaled hne (List.forall_mem_append.1 hdigits).1
        (exponent?_marked exponent)
      rw [List.append_nil]
      refine ⟨_, hread, ?_⟩
      simp [pointed]
    · have hmark : ∀ c ∈ (marked exponent).head?, c.isDigit = false := by
        rintro c ⟨⟩
        rfl
      have hread := read?_pointed hne hdigits hmark (exponent?_marked exponent)
      rw [List.append_assoc, List.cons_append]
      exact ⟨_, hread, rfl⟩

/-! ## Spellings -/

/-- The text of an exponent is marked, and has a sign. -/
theorem toList_exponent (exponent : ℤ) :
    ((if exponent < 0 then "e" else "e+") ++ toString exponent).toList = marked exponent := by
  rw [String.toList_append, Int.toString_eq_repr, Int.repr_eq_if, marked]
  split_ifs with hneg hnonneg hnonneg
  · omega
  · rw [String.toList_append, Nat.toList_repr, show (-exponent).toNat = exponent.natAbs by omega]
    rfl
  · rw [Nat.toList_repr, show exponent.toNat = exponent.natAbs by omega]
    rfl
  · omega

section Digits

variable {digits : List Char} {coefficient : Nat}

theorem isDigit_replicate_zero (zeros : Nat) :
    ∀ c ∈ List.replicate zeros '0', c.isDigit = true := by
  intro c hc
  rw [(List.mem_replicate.1 hc).2]
  rfl

/-- With zeros behind the digits, and a point and another zero behind these. -/
theorem spells_zeros_after (hne : digits ≠ []) (hdigits : ∀ c ∈ digits, c.isDigit = true)
    (hspelled : Nat.ofDigitChars 10 digits 0 = coefficient) (zeros : Nat) :
    Spells (digits ++ List.replicate zeros '0' ++ ['.', '0'])
      (Decimal.value ⟨coefficient, zeros⟩) := by
  have hvalue : pointed (digits ++ List.replicate zeros '0') ['0'] 0 =
      Decimal.value ⟨coefficient, zeros⟩ := by
    have hzeros : Nat.ofDigitChars 10 (digits ++ List.replicate zeros '0' ++ ['0']) 0 =
        coefficient * 10 ^ (zeros + 1) := by
      rw [List.append_assoc, ← List.replicate_succ', Nat.ofDigitChars_append, hspelled,
        Nat.ofDigitChars_replicate_zero, Nat.mul_comm]
    rw [pointed, hzeros, Decimal.value, Decimal.value, Nat.cast_mul, Nat.cast_pow, Nat.cast_ofNat,
      ← zpow_natCast, mul_assoc, ← zpow_add₀ (by norm_num)]
    congr 2
    simp
  rw [← hvalue]
  refine .fixed (by simp [hne]) ?_
  rw [List.append_assoc, ← List.replicate_succ']
  exact List.forall_mem_append.2 ⟨hdigits, isDigit_replicate_zero _⟩

/-- With a point between the digits. -/
theorem spells_point_between (hdigits : ∀ c ∈ digits, c.isDigit = true)
    (hspelled : Nat.ofDigitChars 10 digits 0 = coefficient) (place : Nat) (hpos : 0 < place)
    (hle : place ≤ digits.length) :
    Spells (digits.take place ++ '.' :: digits.drop place)
      (Decimal.value ⟨coefficient, place - digits.length⟩) := by
  have hvalue : pointed (digits.take place) (digits.drop place) 0 =
      Decimal.value ⟨coefficient, place - digits.length⟩ := by
    rw [pointed, List.take_append_drop, hspelled, List.length_drop]
    congr 2
    omega
  rw [← hvalue]
  refine .fixed (fun hnil => ?_) (by rwa [List.take_append_drop])
  have hlength := congrArg List.length hnil
  rw [List.length_take, List.length_nil] at hlength
  omega

/-- With zeros before the digits, and a point and another zero before these. -/
theorem spells_zeros_before (hdigits : ∀ c ∈ digits, c.isDigit = true)
    (hspelled : Nat.ofDigitChars 10 digits 0 = coefficient) (zeros : Nat) :
    Spells ('0' :: '.' :: (List.replicate zeros '0' ++ digits))
      (Decimal.value ⟨coefficient, -(zeros + digits.length : Nat)⟩) := by
  have hzeros : ['0'] ++ (List.replicate zeros '0' ++ digits) =
      List.replicate (zeros + 1) '0' ++ digits := rfl
  have hvalue : pointed ['0'] (List.replicate zeros '0' ++ digits) 0 =
      Decimal.value ⟨coefficient, -(zeros + digits.length : Nat)⟩ := by
    rw [pointed, hzeros, Nat.ofDigitChars_append, Nat.ofDigitChars_replicate_zero, Nat.mul_zero,
      hspelled, List.length_append, List.length_replicate, zero_sub]
  rw [← hvalue]
  refine .fixed (List.cons_ne_nil '0' []) ?_
  rw [hzeros]
  exact List.forall_mem_append.2 ⟨isDigit_replicate_zero _, hdigits⟩

/-- With a point behind the first digit, unless it is the only one, and an exponent. -/
theorem spells_exponent (hne : digits ≠ []) (hdigits : ∀ c ∈ digits, c.isDigit = true)
    (hspelled : Nat.ofDigitChars 10 digits 0 = coefficient) (exponent : ℤ) :
    Spells (digits.take 1 ++ (if digits.drop 1 = [] then [] else '.' :: digits.drop 1) ++
      marked exponent) (Decimal.value ⟨coefficient, exponent + 1 - digits.length⟩) := by
  have hvalue : pointed (digits.take 1) (digits.drop 1) exponent =
      Decimal.value ⟨coefficient, exponent + 1 - digits.length⟩ := by
    have hlength := List.length_pos_iff.2 hne
    rw [pointed, List.take_append_drop, hspelled, List.length_drop]
    congr 2
    omega
  rw [← hvalue]
  exact .scaled (by simp [hne]) (by rwa [List.take_append_drop]) exponent

end Digits

/-- What a document writes for a decimal spells the decimal. -/
theorem spells_writeDecimal (d : Decimal) :
    Spells (Number.documentSpelling.writeDecimal d).toList d.value := by
  have hdigits := isDigit_toDigits d.coefficient
  have hne : Nat.toDigits 10 d.coefficient ≠ [] := Nat.toDigits_ne_nil
  have hspelled : Nat.ofDigitChars 10 (Nat.toDigits 10 d.coefficient) 0 = d.coefficient :=
    Nat.ofDigitChars_ten_toDigits
  obtain ⟨coefficient, exponent⟩ := d
  unfold Spelling.writeDecimal
  dsimp only at *
  -- From here on only the number that the digits spell matters.
  generalize Nat.toDigits 10 coefficient = digits at *
  have hlength := List.length_pos_iff.2 hne
  split
  · split
    · rename_i hnonneg
      obtain ⟨zeros, rfl⟩ := Int.eq_ofNat_of_zero_le hnonneg
      simpa using spells_zeros_after hne hdigits hspelled zeros
    · split
      · have hplace : ((exponent + digits.length - 1 + 1).toNat : ℤ) - digits.length =
            exponent := by omega
        have hspells := spells_point_between hdigits hspelled
          (exponent + digits.length - 1 + 1).toNat (by omega) (by omega)
        rw [hplace] at hspells
        simpa using hspells
      · have hzeros : -(((-(exponent + digits.length - 1) - 1).toNat + digits.length : Nat) : ℤ) =
            exponent := by omega
        have hspells := spells_zeros_before hdigits hspelled
          (-(exponent + digits.length - 1) - 1).toNat
        rw [hzeros] at hspells
        simpa using hspells
  · have hlead : exponent + digits.length - 1 + 1 - digits.length = exponent := by omega
    have hfraction :
        (if digits.length = 1 then "" else "." ++ String.ofList (digits.drop 1)).toList =
          if digits.drop 1 = [] then [] else '.' :: digits.drop 1 := by
      simp only [List.drop_eq_nil_iff, show digits.length ≤ 1 ↔ digits.length = 1 by omega]
      split <;> simp
    have hspells := spells_exponent hne hdigits hspelled (exponent + digits.length - 1)
    rw [hlead, ← toList_exponent, ← hfraction] at hspells
    rw [String.append_assoc, String.toList_append, String.toList_append, String.toList_ofList]
    exact hspells

end Decimal

/-! ## Numbers -/

/-- A digit, a sign, a point or the mark of an exponent. -/
def isNumeral (c : Char) : Bool := c.isDigit || c = '-' || c = '+' || c = '.' || c = 'e'

theorem isNumeral_of_isDigit {c : Char} (h : c.isDigit = true) : isNumeral c = true := by
  simp [isNumeral, h]

namespace Decimal

variable {text : List Char} {q : ℚ}

theorem isNumeral_of_mem_marked {exponent : ℤ} : ∀ c ∈ marked exponent, isNumeral c = true := by
  refine List.forall_mem_cons.2 ⟨rfl, List.forall_mem_cons.2 ⟨by split <;> rfl, fun c hc => ?_⟩⟩
  exact isNumeral_of_isDigit (isDigit_toDigits _ c hc)

theorem Spells.isNumeral_of_mem (h : Spells text q) : ∀ c ∈ text, isNumeral c = true := by
  cases h with
  | fixed hne hdigits =>
    obtain ⟨hwhole, hfraction⟩ := List.forall_mem_append.1 hdigits
    exact List.forall_mem_append.2 ⟨fun c hc => isNumeral_of_isDigit (hwhole c hc),
      List.forall_mem_cons.2 ⟨rfl, fun c hc => isNumeral_of_isDigit (hfraction c hc)⟩⟩
  | scaled hne hdigits exponent =>
    obtain ⟨hwhole, hfraction⟩ := List.forall_mem_append.1 hdigits
    refine List.forall_mem_append.2 ⟨List.forall_mem_append.2
      ⟨fun c hc => isNumeral_of_isDigit (hwhole c hc), ?_⟩, isNumeral_of_mem_marked⟩
    split
    · exact List.forall_mem_nil _
    · exact List.forall_mem_cons.2 ⟨rfl, fun c hc => isNumeral_of_isDigit (hfraction c hc)⟩

/-- A text that spells a number starts with a digit. -/
theorem Spells.head_isDigit (h : Spells text q) : ∃ c ∈ text.head?, c.isDigit = true := by
  have hwhole : ∀ {whole fraction rest : List Char}, whole ≠ [] →
      (∀ c ∈ whole ++ fraction, c.isDigit = true) →
        ∃ c ∈ (whole ++ rest).head?, c.isDigit = true := by
    intro whole fraction rest hne hdigits
    obtain ⟨c, whole, rfl⟩ := List.exists_cons_of_ne_nil hne
    exact ⟨c, rfl, hdigits c (by simp)⟩
  cases h with
  | fixed hne hdigits => exact hwhole hne hdigits
  | scaled hne hdigits exponent =>
    rw [List.append_assoc]
    exact hwhole hne hdigits

/-- It has a point or an exponent. -/
theorem Spells.mem (h : Spells text q) : '.' ∈ text ∨ 'e' ∈ text := by
  cases h with
  | fixed hne hdigits => exact Or.inl (by simp)
  | scaled hne hdigits exponent => exact Or.inr (by simp [marked])

end Decimal

namespace Number

theorem toList_text_integer (n : Integer64) : (Number.text (.integer n)).toList =
    (if decide (n.toInt < 0) then ['-'] else []) ++ Nat.toDigits 10 n.toInt.natAbs := by
  rw [Number.text, Int.toString_eq_repr, Int.repr_eq_if]
  simp only [decide_eq_true_eq]
  split_ifs with hnonneg hneg hneg
  · omega
  · rw [Nat.toList_repr, show n.toInt.toNat = n.toInt.natAbs by omega]
    rfl
  · rw [String.toList_append, Nat.toList_repr, show (-n.toInt).toNat = n.toInt.natAbs by omega]
    rfl
  · omega

/-- A float is written as a decimal in its interval, behind its sign. -/
theorem exists_spells_float (x : Binary64) (hfinite : x.isFinite = true) :
    ∃ text q, (Number.text (.float x hfinite)).toList =
        (if x.negative then ['-'] else []) ++ text ∧ Decimal.Spells text q ∧
      (x.magnitude = 0 → q = 0) ∧ (x.magnitude ≠ 0 → x.Covers q ∧ q ≠ 0) := by
  have hsign : ∀ unsigned : String, ((if x.negative then "-" else "") ++ unsigned).toList =
      (if x.negative then ['-'] else []) ++ unsigned.toList := by
    intro unsigned
    rw [String.toList_append]
    split <;> rfl
  simp only [Number.text, Spelling.write]
  by_cases hzero : x.magnitude = 0
  · have hspells : Decimal.Spells ['0', '.', '0'] (Decimal.value ⟨0, (0 : ℕ)⟩) :=
      Decimal.spells_zeros_after (List.cons_ne_nil '0' []) (by simp) rfl 0
    simp only [if_pos hzero]
    exact ⟨_, _, hsign _, hspells, fun _ => by simp [Decimal.value], fun hne => absurd hzero hne⟩
  · simp only [if_neg hzero]
    exact ⟨_, _, hsign _, Decimal.spells_writeDecimal _, fun heq => absurd heq hzero,
      fun _ => Binary64.covers_shortest hfinite hzero⟩

theorem head_isDigit_toDigits (n : Nat) : ∃ c ∈ (Nat.toDigits 10 n).head?, c.isDigit = true := by
  obtain ⟨c, rest, hdigits⟩ := List.exists_cons_of_ne_nil (Nat.toDigits_ne_nil (n := n) (b := 10))
  have hmem : c ∈ Nat.toDigits 10 n := hdigits ▸ List.mem_cons_self ..
  rw [hdigits]
  exact ⟨c, rfl, isDigit_toDigits n c hmem⟩

/-- Every number is written with a sign, if it has one, and then a digit. -/
theorem exists_unsigned (n : Number) : ∃ negative : Bool, ∃ text : List Char,
    n.text.toList = (if negative then ['-'] else []) ++ text ∧
      (∃ c ∈ text.head?, c.isDigit = true) ∧ ∀ c ∈ text, isNumeral c = true := by
  cases n with
  | integer n =>
    refine ⟨decide (n.toInt < 0), _, toList_text_integer n, ?_, ?_⟩
    · exact head_isDigit_toDigits _
    · exact fun c hc => isNumeral_of_isDigit (isDigit_toDigits _ c hc)
  | float x hfinite =>
    obtain ⟨text, q, htext, hspells, -⟩ := exists_spells_float x hfinite
    exact ⟨x.negative, text, htext, hspells.head_isDigit, hspells.isNumeral_of_mem⟩

theorem isNumeral_of_mem_text (n : Number) : ∀ c ∈ n.text.toList, isNumeral c = true := by
  obtain ⟨negative, text, htext, -, hnumerals⟩ := n.exists_unsigned
  rw [htext]
  refine List.forall_mem_append.2 ⟨?_, hnumerals⟩
  split
  · exact List.forall_mem_singleton.2 rfl
  · exact List.forall_mem_nil _

theorem toList_text_ne_nil (n : Number) : n.text.toList ≠ [] := by
  obtain ⟨negative, text, htext, ⟨c, hc, -⟩, -⟩ := n.exists_unsigned
  rw [htext]
  rintro hnil
  obtain ⟨-, rfl⟩ := List.append_eq_nil_iff.1 hnil
  cases hc

/-- Signs and what follows them can be told apart. -/
theorem unsigned_inj {negative negative' : Bool} {text text' : List Char}
    (h : ∃ c ∈ text.head?, c.isDigit = true) (h' : ∃ c ∈ text'.head?, c.isDigit = true)
    (heq : (if negative then ['-'] else []) ++ text = (if negative' then ['-'] else []) ++ text') :
    negative = negative' ∧ text = text' := by
  obtain ⟨c, hc, hdigit⟩ := h
  obtain ⟨c', hc', hdigit'⟩ := h'
  obtain ⟨rest, rfl⟩ := List.head?_eq_some_iff.1 hc
  obtain ⟨rest', rfl⟩ := List.head?_eq_some_iff.1 hc'
  cases negative <;> cases negative'
  · exact ⟨rfl, heq⟩
  · obtain ⟨rfl, -⟩ := List.cons.inj heq
    cases hdigit
  · obtain ⟨rfl, -⟩ := List.cons.inj heq
    cases hdigit'
  · exact ⟨rfl, (List.cons.inj heq).2⟩

theorem integer_ne_float {n : Integer64} {x : Binary64} {hfinite : x.isFinite = true} :
    (Number.integer n).text ≠ (Number.float x hfinite).text := by
  intro h
  have hlists := congrArg String.toList h
  obtain ⟨text, q, htext, hspells, -⟩ := exists_spells_float x hfinite
  rw [toList_text_integer, htext] at hlists
  have hmark : ∀ c ∈ text, c = '-' ∨ c.isDigit = true := by
    intro c hc
    have hmem := List.mem_append_right (if x.negative then ['-'] else []) hc
    rw [← hlists] at hmem
    rcases List.mem_append.1 hmem with hmem | hmem
    · split at hmem
      · exact Or.inl (List.mem_singleton.1 hmem)
      · cases hmem
    · exact Or.inr (isDigit_toDigits _ c hmem)
  rcases hspells.mem with hmem | hmem
  · rcases hmark _ hmem with h | h <;> cases h
  · rcases hmark _ hmem with h | h <;> cases h

theorem integer_inj {m n : Integer64} (h : (Number.integer m).text = (Number.integer n).text) :
    m = n := by
  have hlists := congrArg String.toList h
  rw [toList_text_integer, toList_text_integer] at hlists
  obtain ⟨hsign, hdigits⟩ :=
    unsigned_inj (head_isDigit_toDigits _) (head_isDigit_toDigits _) hlists
  have habs : m.toInt.natAbs = n.toInt.natAbs := toDigits_injective hdigits
  have hnegative : m.toInt < 0 ↔ n.toInt < 0 := decide_eq_decide.1 hsign
  have hvalue : m.toInt = n.toInt := by omega
  obtain ⟨m, hm⟩ := m
  obtain rfl := hvalue
  rfl

theorem float_inj {x y : Binary64} {hx : x.isFinite = true} {hy : y.isFinite = true}
    (h : (Number.float x hx).text = (Number.float y hy).text) : x = y := by
  obtain ⟨text, q, htext, hspells, hzero, hcovers⟩ := exists_spells_float x hx
  obtain ⟨text', q', htext', hspells', hzero', hcovers'⟩ := exists_spells_float y hy
  obtain ⟨hnegative, rfl⟩ := unsigned_inj hspells.head_isDigit hspells'.head_isDigit
    (htext.symm.trans ((congrArg String.toList h).trans htext'))
  obtain ⟨d, hread, rfl⟩ := hspells.read?
  obtain ⟨d', hread', rfl⟩ := hspells'.read?
  obtain rfl := Option.some.inj (hread.symm.trans hread')
  have hfields : x.exponent = y.exponent ∧ x.fraction = y.fraction := by
    by_cases hx : x.magnitude = 0 <;> by_cases hy : y.magnitude = 0
    · exact Binary64.exponent_fraction_of_magnitude (hx.trans hy.symm)
    · exact absurd (hzero hx) (hcovers' hy).2
    · exact absurd (hzero' hy) (hcovers hx).2
    · exact Binary64.exponent_fraction_of_covers (hcovers hx).1 (hcovers' hy).1
  obtain ⟨negative, exponent, fraction⟩ := x
  obtain ⟨rfl, rfl⟩ := hfields
  obtain rfl := hnegative
  rfl

/-- The text of a number determines the number. -/
theorem text_injective : Function.Injective Number.text := by
  rintro (m | ⟨x, hx⟩) (n | ⟨y, hy⟩) h
  · rw [integer_inj h]
  · exact absurd h integer_ne_float
  · exact absurd h.symm integer_ne_float
  · obtain rfl := float_inj h
    rfl

end Number

end Pedigree
