import Mathlib.Data.List.Basic
import Mathlib.Data.List.TakeWhile
import Pedigree.Text.Blank
import Pedigree.Toml.Reader

/-!
# Keys that need no quotes

A key of letters, digits, underscores and hyphens (`IsBareKey`) is read as it is written, alone or
between double quotes. So what stands before the first equals sign of an entry, without white space
and quotes around it, is its key (`eq_of_readPath`), and what stands between the brackets of a
header is its name (`eq_header_of_readStatement`).
-/

namespace Pedigree.Toml

/-! ## Characters of keys -/

/-- A key that can be written without quotes. -/
structure IsBareKey (key : List Char) : Prop where
  ne_nil : key ≠ []
  bare : ∀ c ∈ key, isBare c = true

theorem isBareKey_of_all {key : List Char} (hne : key ≠ []) (h : key.all isBare = true) :
    IsBareKey key :=
  ⟨hne, List.all_eq_true.1 h⟩

variable {c d : Char}

theorem toNat_of_isBare (h : isBare c = true) :
    (48 ≤ c.toNat ∧ c.toNat ≤ 57) ∨ (65 ≤ c.toNat ∧ c.toNat ≤ 90) ∨
      (97 ≤ c.toNat ∧ c.toNat ≤ 122) ∨ c.toNat = 95 ∨ c.toNat = 45 := by
  change (decide (65 ≤ c.val ∧ c.val ≤ 90) || (decide (97 ≤ c.val) && decide (c.val ≤ 122)) ||
    (decide (48 ≤ c.val) && decide (c.val ≤ 57)) || decide (c = '_') || decide (c = '-')) = true
    at h
  simp only [Bool.or_eq_true, Bool.and_eq_true, decide_eq_true_eq, UInt32.le_iff_toNat_le] at h
  change ((((65 ≤ c.toNat ∧ c.toNat ≤ 90) ∨ (97 ≤ c.toNat ∧ c.toNat ≤ 122)) ∨
    (48 ≤ c.toNat ∧ c.toNat ≤ 57)) ∨ c = '_') ∨ c = '-' at h
  rcases h with ((h | h) | rfl) | rfl
  · omega
  · omega
  · decide
  · decide

theorem isBlank_eq_false_of_isBare (h : isBare c = true) : Text.isBlank c = false := by
  have hrange := toNat_of_isBare h
  rw [← Bool.not_eq_true]
  simp only [Text.isBlank, Bool.or_eq_true, Bool.and_eq_true, decide_eq_true_eq, beq_iff_eq]
  omega

theorem isBare_eq_false_of_isBlank (h : Text.isBlank c = true) : isBare c = false := by
  rw [← Bool.not_eq_true]
  intro hbare
  rw [isBlank_eq_false_of_isBare hbare] at h
  cases h

theorem isText_of_isBare (h : isBare c = true) : isText c = true := by
  have hrange := toNat_of_isBare h
  simp only [isText, Bool.or_eq_true, Bool.and_eq_true, decide_eq_true_eq]
  omega

theorem ne_of_isBare (h : isBare c = true) (hd : isBare d = false) : c ≠ d := by
  rintro rfl
  rw [h] at hd
  cases hd

theorem ne_of_isBlank (h : Text.isBlank c = true) (hd : Text.isBlank d = false) : c ≠ d := by
  rintro rfl
  rw [h] at hd
  cases hd

/-- A blank of this format is white space. -/
theorem isWhiteSpace_of_isBlank (h : isBlank c = true) : Text.isBlank c = true := by
  simp only [isBlank, Bool.or_eq_true, decide_eq_true_eq] at h
  rcases h with rfl | rfl
  · decide
  · decide

theorem isBlank_eq_false (h : Text.isBlank c = false) : isBlank c = false := by
  rw [← Bool.not_eq_true]
  intro hc
  rw [isWhiteSpace_of_isBlank hc] at h
  cases h

/-! ## Parts of keys -/

variable {word blanks tail rest : List Char} {path : List String} {key : String}

theorem IsBareKey.exists_cons (h : IsBareKey word) :
    ∃ c word', word = c :: word' ∧ isBare c = true := by
  obtain ⟨c, word', rfl⟩ := List.exists_cons_of_ne_nil h.ne_nil
  exact ⟨c, word', rfl, h.bare c (by simp)⟩

theorem skipBlank_cons_of_not (h : isBlank c = false) (rest : List Char) :
    skipBlank (c :: rest) = c :: rest :=
  List.dropWhile_cons_of_neg (by simp [h])

theorem readKeyPart_bare (hword : IsBareKey word) (htail : ∀ c ∈ tail.head?, isBare c = false) :
    readKeyPart (word ++ tail) = some (String.ofList word, tail) := by
  obtain ⟨c, word', rfl, hc⟩ := hword.exists_cons
  have htake : (c :: word' ++ tail).takeWhile isBare = c :: word' := by
    rw [List.takeWhile_append_of_pos hword.bare]
    cases tail with
    | nil => simp
    | cons d tail => rw [List.takeWhile_cons_of_neg (by simp [htail d rfl]), List.append_nil]
  have hdrop : (c :: word' ++ tail).dropWhile isBare = tail := by
    rw [List.dropWhile_append_of_pos hword.bare]
    cases tail with
    | nil => rfl
    | cons d tail => rw [List.dropWhile_cons_of_neg (by simp [htail d rfl])]
  unfold readKeyPart
  split
  · rename_i hquote
    exact absurd (List.cons.inj hquote).1 (ne_of_isBare hc (by decide))
  · rename_i hquote
    exact absurd (List.cons.inj hquote).1 (ne_of_isBare hc (by decide))
  · rw [htake, hdrop]
    rfl

/-- White space that is no blank of this format starts no part. -/
theorem readKeyPart_of_isBlank (h : Text.isBlank c = true) (rest : List Char) :
    readKeyPart (c :: rest) = none := by
  unfold readKeyPart
  split
  · rename_i hquote
    exact absurd (List.cons.inj hquote).1 (ne_of_isBlank h (by decide))
  · rename_i hquote
    exact absurd (List.cons.inj hquote).1 (ne_of_isBlank h (by decide))
  · simp [isBare_eq_false_of_isBlank h]

/-- White space before a part is passed over, or nothing is read. -/
theorem readKeyPart_skipBlank_append (hblanks : ∀ c ∈ blanks, Text.isBlank c = true)
    (tail : List Char) {part : String × List Char}
    (h : readKeyPart (skipBlank (blanks ++ tail)) = some part) :
    readKeyPart (skipBlank tail) = some part := by
  induction blanks with
  | nil => exact h
  | cons c blanks ih =>
    cases hc : isBlank c with
    | true =>
      rw [List.cons_append, skipBlank, List.dropWhile_cons_of_pos hc] at h
      exact ih (fun d hd => hblanks d (List.mem_cons_of_mem _ hd)) h
    | false =>
      rw [List.cons_append, skipBlank_cons_of_not hc,
        readKeyPart_of_isBlank (hblanks c (List.mem_cons_self ..))] at h
      cases h

/-! ## Quoted parts -/

theorem subset_of_readEscape {read read' : List Char} {mode : StringMode}
    (h : readEscape read c = some (mode, read')) : read ⊆ read' := by
  unfold readEscape at h
  split at h <;> cases h <;> simp

theorem subset_of_readCode {read read' : List Char} {left value : Nat} {mode : StringMode}
    (h : readCode read left value c = some (mode, read')) : read ⊆ read' := by
  obtain ⟨digit, -, h⟩ := Option.bind_eq_some_iff.1 h
  split at h
  · cases h
    exact List.Subset.refl _
  · obtain ⟨char, -, h⟩ := Option.map_eq_some_iff.1 h
    cases h
    exact List.subset_cons_self ..

/-- What has been read of a string stays in it. -/
theorem mem_of_readBasic {mode : StringMode} {read chars rest : List Char} {s : String}
    (h : readBasic mode read chars = some (s, rest)) (hc : c ∈ read) : c ∈ s.toList := by
  fun_induction readBasic mode read chars with
  | case1 => cases h
  | case2 _ _ _ _ _ hstep ih => exact ih h (subset_of_readEscape hstep hc)
  | case3 => cases h
  | case4 _ _ _ _ _ _ _ hstep ih => exact ih h (subset_of_readCode hstep hc)
  | case5 => cases h
  | case6 =>
    cases h
    simpa using hc
  | case7 _ _ _ _ _ _ ih => exact ih h hc
  | case8 _ _ _ _ _ _ _ _ _ ih => exact ih h (List.mem_cons_of_mem _ hc)
  | case9 => cases h

theorem readBasic_text_cons (read : List Char) (c : Char) (chars : List Char) :
    readBasic .text read (c :: chars) =
      if c = '"' then some (String.ofList read.reverse, chars)
      else if c = '\\' then readBasic .escape read chars
      else if isText c then readBasic .text (c :: read) chars
      else none := rfl

/-- A string that is not closed before an equals sign holds it. -/
theorem equals_mem_of_readBasic {read more rest front : List Char} {s : String}
    (hquote : '"' ∉ front) (hescape : '\\' ∉ front)
    (h : readBasic .text read (front ++ '=' :: more) = some (s, rest)) : '=' ∈ s.toList := by
  induction front generalizing read with
  | nil =>
    have hequals : readBasic .text ('=' :: read) more = some (s, rest) := h
    exact mem_of_readBasic hequals (List.mem_cons_self ..)
  | cons c front ih =>
    rw [List.mem_cons, not_or] at hquote hescape
    rw [List.cons_append, readBasic_text_cons, if_neg (Ne.symm hquote.1),
      if_neg (Ne.symm hescape.1)] at h
    split at h
    · exact ih hquote.2 hescape.2 h
    · cases h

theorem readBasic_bare {read : List Char} (hword : ∀ c ∈ word, isBare c = true)
    (tail : List Char) :
    readBasic .text read (word ++ tail) = readBasic .text (word.reverse ++ read) tail := by
  induction word generalizing read with
  | nil => rfl
  | cons c word ih =>
    have hc := hword c (List.mem_cons_self ..)
    rw [List.cons_append, readBasic_text_cons, if_neg (ne_of_isBare hc (by decide)),
      if_neg (ne_of_isBare hc (by decide)), if_pos (isText_of_isBare hc),
      ih fun d hd => hword d (List.mem_cons_of_mem _ hd), List.reverse_cons, List.append_assoc,
      List.singleton_append]

theorem readKeyPart_quoted (hword : ∀ c ∈ word, isBare c = true) (tail : List Char) :
    readKeyPart ('"' :: (word ++ '"' :: tail)) = some (String.ofList word, tail) := by
  rw [readKeyPart, readBasic_bare hword, readBasic_text_cons, if_pos rfl, List.append_nil,
    List.reverse_reverse]

/-! ## Keys of statements -/

/-- A key begins with a part, and ends with it unless a dot follows. -/
theorem exists_part_of_readPath {chars : List Char}
    (h : readPath chars = some ((path, key), rest)) :
    ∃ part tail, readKeyPart (skipBlank chars) = some (part, tail) ∧ part ∈ path ++ [key] ∧
      ((skipBlank tail).head? ≠ some '.' → path = [] ∧ key = part ∧ rest = skipBlank tail) := by
  rw [readPath] at h
  obtain ⟨⟨parts, rest'⟩, hkey, h⟩ := Option.bind_eq_some_iff.1 h
  obtain ⟨last, hlast, h⟩ := Option.bind_eq_some_iff.1 h
  have hparts := List.dropLast_append_getLast? last hlast
  cases h
  rw [nestingLimit, Nat.add_one_sub_one, readKey] at hkey
  obtain ⟨⟨part, tail⟩, hpart, hkey⟩ := Option.bind_eq_some_iff.1 hkey
  refine ⟨part, tail, hpart, ?_⟩
  rw [hparts]
  dsimp only at hkey
  split at hkey
  · rename_i hskip
    obtain ⟨⟨others, _⟩, -, hkey⟩ := Option.bind_eq_some_iff.1 hkey
    cases hkey
    exact ⟨List.mem_cons_self .., fun hdot => absurd (by rw [hskip]; rfl) hdot⟩
  · cases hkey
    exact ⟨List.mem_cons_self .., fun _ => ⟨rfl, (Option.some.inj hlast).symm, rfl⟩⟩

theorem head?_skipBlank_ne {front more : List Char} (hfront : d ∉ front) (hne : c ≠ d)
    (hc : isBlank c = false) : (skipBlank (front ++ c :: more)).head? ≠ some d := by
  induction front with
  | nil => simpa [skipBlank_cons_of_not hc] using hne
  | cons e front ih =>
    rw [List.mem_cons, not_or] at hfront
    cases he : isBlank e with
    | true =>
      rw [List.cons_append, skipBlank, List.dropWhile_cons_of_pos he]
      exact ih hfront.2
    | false =>
      rw [List.cons_append, skipBlank_cons_of_not he]
      simpa using Ne.symm hfront.1

/-- A key that needs no quotes is read as it is written. -/
theorem eq_of_readPath_bare (hblanks : ∀ c ∈ blanks, Text.isBlank c = true)
    (hword : IsBareKey word) (htail : ∀ c ∈ tail.head?, isBare c = false)
    (hdot : (skipBlank tail).head? ≠ some '.')
    (h : readPath (blanks ++ (word ++ tail)) = some ((path, key), rest)) :
    path = [] ∧ key = String.ofList word ∧ rest = skipBlank tail := by
  obtain ⟨c, word', rfl, hc⟩ := hword.exists_cons
  obtain ⟨part, tail', hpart, -, hend⟩ := exists_part_of_readPath h
  have hskip : skipBlank (c :: word' ++ tail) = c :: word' ++ tail :=
    skipBlank_cons_of_not (isBlank_eq_false (isBlank_eq_false_of_isBare hc)) _
  have hread := readKeyPart_skipBlank_append hblanks _ hpart
  rw [hskip, readKeyPart_bare hword htail] at hread
  cases hread
  exact hend hdot

/-- What may stand between a key without dots and the sign that follows it. -/
def IsMargin (margin : List Char) : Prop := ∀ c ∈ margin, c = '"' ∨ Text.isBlank c = true

theorem isMargin_append {quotes blanks : List Char} (hquotes : ∀ c ∈ quotes, c = '"')
    (hblanks : ∀ c ∈ blanks, Text.isBlank c = true) : IsMargin (quotes ++ blanks) := by
  intro c hc
  rcases List.mem_append.1 hc with hc | hc
  · exact Or.inl (hquotes c hc)
  · exact Or.inr (hblanks c hc)

theorem IsMargin.isBare_head? {margin more : List Char} (hmargin : IsMargin margin)
    (hd : isBare d = false) : ∀ c ∈ (margin ++ d :: more).head?, isBare c = false := by
  intro c hc
  cases margin with
  | nil =>
    obtain rfl := Option.some.inj hc
    exact hd
  | cons e margin =>
    obtain rfl := Option.some.inj hc
    rcases hmargin _ (List.mem_cons_self ..) with rfl | hblank
    · decide
    · exact isBare_eq_false_of_isBlank hblank

theorem IsMargin.head?_skipBlank_ne {margin more : List Char} (hmargin : IsMargin margin)
    (hne : d ≠ '.') (hd : isBlank d = false) :
    (skipBlank (margin ++ d :: more)).head? ≠ some '.' := by
  refine Toml.head?_skipBlank_ne (fun hmem => ?_) hne hd
  rcases hmargin _ hmem with hquote | hblank
  · exact absurd hquote (by decide)
  · exact absurd hblank (by decide)

/-- A key in double quotes is read without them. If they are not closed before an equals sign, it
is a part of the key. -/
theorem eq_of_readPath_quoted {back blanks more : List Char} (hword : IsBareKey word)
    (hback : ∀ c ∈ back, c = '"') (hblanks : ∀ c ∈ blanks, Text.isBlank c = true)
    (h : readPath ('"' :: (word ++ (back ++ blanks ++ '=' :: more))) = some ((path, key), rest))
    (hequals : ∀ part ∈ path ++ [key], '=' ∉ part.toList) :
    path = [] ∧ key = String.ofList word := by
  obtain ⟨part, tail, hpart, hmem, hend⟩ := exists_part_of_readPath h
  rw [skipBlank_cons_of_not (by decide)] at hpart
  cases back with
  | nil =>
    have hread : readBasic .text [] ((word ++ blanks) ++ '=' :: more) = some (part, tail) := by
      simpa [readKeyPart] using hpart
    have hnot : ∀ d, isBare d = false → Text.isBlank d = false → d ∉ word ++ blanks := by
      intro d hbare hblank hd
      rcases List.mem_append.1 hd with hd | hd
      · exact ne_of_isBare (hword.bare d hd) hbare rfl
      · exact ne_of_isBlank (hblanks d hd) hblank rfl
    have hopen := equals_mem_of_readBasic (hnot '"' (by decide) (by decide))
      (hnot '\\' (by decide) (by decide)) hread
    exact absurd hopen (hequals part hmem)
  | cons c back =>
    obtain rfl := hback c (List.mem_cons_self ..)
    rw [List.cons_append, List.cons_append, readKeyPart_quoted hword.bare] at hpart
    cases hpart
    have hmargin : IsMargin (back ++ blanks) :=
      isMargin_append (fun c hc => hback c (List.mem_cons_of_mem _ hc)) hblanks
    obtain ⟨hpath, hkey, -⟩ := hend (hmargin.head?_skipBlank_ne (by decide) (by decide))
    exact ⟨hpath, hkey⟩

/-- Behind two double quotes no key goes on. -/
theorem readMark_of_readPath_quotes {front : List Char} (hfront : ∀ c ∈ front, c = '"')
    (hword : IsBareKey word)
    (h : readPath ('"' :: '"' :: (front ++ (word ++ tail))) = some ((path, key), rest)) :
    readMark '=' rest = none := by
  obtain ⟨part, tail', hpart, -, hend⟩ := exists_part_of_readPath h
  rw [skipBlank_cons_of_not (by decide)] at hpart
  have hempty : readKeyPart ('"' :: '"' :: (front ++ (word ++ tail))) =
      some (String.ofList [], front ++ (word ++ tail)) :=
    readKeyPart_quoted (List.forall_mem_nil _) _
  rw [hempty] at hpart
  cases hpart
  obtain ⟨c, word', rfl, hc⟩ := hword.exists_cons
  obtain ⟨d, more, hmore, hd⟩ : ∃ d more, front ++ (c :: word' ++ tail) = d :: more ∧
      (d = '"' ∨ isBare d = true) := by
    cases front with
    | nil => exact ⟨c, _, rfl, Or.inr hc⟩
    | cons d front => exact ⟨d, _, rfl, Or.inl (hfront d (List.mem_cons_self ..))⟩
  have hskip : skipBlank (d :: more) = d :: more := by
    refine skipBlank_cons_of_not ?_ _
    rcases hd with rfl | hd
    · decide
    · exact isBlank_eq_false (isBlank_eq_false_of_isBare hd)
  have hne : ∀ mark : Char, mark ≠ '"' → isBare mark = false → d ≠ mark := by
    rintro mark hquote hbare rfl
    rcases hd with hd | hd
    · exact hquote hd
    · rw [hd] at hbare
      cases hbare
  rw [hmore, hskip] at hend
  obtain ⟨-, -, rfl⟩ := hend (by simpa using hne '.' (by decide) (by decide))
  exact if_neg (hne '=' (by decide) (by decide))

/-- The key of an entry is what stands before the first equals sign, without white space and double
quotes around it, if this needs no quotes and no part of the key holds an equals sign. -/
theorem eq_of_readPath {front back blanks more tail' : List Char}
    (hfront : ∀ c ∈ front, c = '"') (hword : IsBareKey word) (hback : ∀ c ∈ back, c = '"')
    (hblanks : ∀ c ∈ blanks, Text.isBlank c = true)
    (h : readPath (front ++ (word ++ (back ++ blanks ++ '=' :: more))) = some ((path, key), tail))
    (hmark : readMark '=' tail = some tail') (hequals : ∀ part ∈ path ++ [key], '=' ∉ part.toList) :
    path = [] ∧ key = String.ofList word := by
  cases front with
  | nil =>
    have hmargin := isMargin_append hback hblanks
    obtain ⟨hpath, hkey, -⟩ := eq_of_readPath_bare (List.forall_mem_nil _) hword
      (hmargin.isBare_head? (by decide)) (hmargin.head?_skipBlank_ne (by decide) (by decide)) h
    exact ⟨hpath, hkey⟩
  | cons c front =>
    obtain rfl := hfront c (List.mem_cons_self ..)
    cases front with
    | nil => exact eq_of_readPath_quoted hword hback hblanks h hequals
    | cons c front =>
      obtain rfl := hfront c (by simp)
      rw [readMark_of_readPath_quotes (fun c hc => hfront c (by simp [hc])) hword h] at hmark
      cases hmark

/-! ## Statements -/

/-- A statement begins with a bracket if and only if it is a header. If it is none, a key and an
equals sign come first. -/
theorem readStatement_cases {chars : List Char} {statement : Statement}
    (h : readStatement chars = some (statement, rest)) :
    (chars.head? = some '[' ∧ ∃ path key,
      statement = .header path key ∨ statement = .nextHeader path key) ∨
    (chars.head? ≠ some '[' ∧ ∃ path key value, statement = .assign path key value ∧
      ∃ tail tail', readPath chars = some ((path, key), tail) ∧
        readMark '=' tail = some tail') := by
  unfold readStatement at h
  split at h
  · obtain ⟨⟨⟨path, key⟩, _⟩, -, h⟩ := Option.bind_eq_some_iff.1 h
    obtain ⟨_, -, h⟩ := Option.bind_eq_some_iff.1 h
    obtain ⟨_, -, h⟩ := Option.bind_eq_some_iff.1 h
    obtain ⟨_, -, h⟩ := Option.bind_eq_some_iff.1 h
    cases h
    exact Or.inl ⟨rfl, path, key, Or.inr rfl⟩
  · obtain ⟨⟨⟨path, key⟩, _⟩, -, h⟩ := Option.bind_eq_some_iff.1 h
    obtain ⟨_, -, h⟩ := Option.bind_eq_some_iff.1 h
    obtain ⟨_, -, h⟩ := Option.bind_eq_some_iff.1 h
    cases h
    exact Or.inl ⟨rfl, path, key, Or.inl rfl⟩
  · rename_i _ hbracket
    obtain ⟨⟨⟨path, key, value⟩, _⟩, hentry, h⟩ := Option.bind_eq_some_iff.1 h
    obtain ⟨_, -, h⟩ := Option.bind_eq_some_iff.1 h
    cases h
    rw [readEntry] at hentry
    obtain ⟨⟨⟨path', key'⟩, tail⟩, hpath, hentry⟩ := Option.bind_eq_some_iff.1 hentry
    obtain ⟨tail', hmark, hentry⟩ := Option.bind_eq_some_iff.1 hentry
    obtain ⟨_, -, hentry⟩ := Option.bind_eq_some_iff.1 hentry
    cases hentry
    refine Or.inr ⟨fun hhead => ?_, _, _, _, rfl, tail, tail', hpath, hmark⟩
    obtain ⟨more, rfl⟩ := List.head?_eq_some_iff.1 hhead
    exact hbracket more rfl

/-- The key of a header in single brackets. -/
theorem readStatement_header {chars : List Char} {statement : Statement}
    (hchars : chars.head? ≠ some '[') (h : readStatement ('[' :: chars) = some (statement, rest)) :
    ∃ path key tail tail', statement = .header path key ∧
      readPath chars = some ((path, key), tail) ∧ readMark ']' tail = some tail' := by
  unfold readStatement at h
  split at h
  · rename_i heq
    obtain ⟨-, rfl⟩ := List.cons.inj heq
    exact absurd rfl hchars
  · rename_i heq
    obtain ⟨-, rfl⟩ := List.cons.inj heq
    obtain ⟨⟨⟨path, key⟩, tail⟩, hpath, h⟩ := Option.bind_eq_some_iff.1 h
    obtain ⟨tail', hmark, h⟩ := Option.bind_eq_some_iff.1 h
    obtain ⟨_, -, h⟩ := Option.bind_eq_some_iff.1 h
    cases h
    exact ⟨path, key, tail, tail', rfl, hpath, hmark⟩
  · rename_i hbracket
    exact absurd rfl (hbracket chars)

/-- No white space stands before a statement whose first character is no blank. -/
theorem isBlank_eq_false_of_readStatement {statement : Statement} {chars : List Char}
    (hc : isBlank c = false) (h : readStatement (c :: chars) = some (statement, rest)) :
    Text.isBlank c = false := by
  rw [← Bool.not_eq_true]
  intro hblank
  rcases readStatement_cases h with ⟨hhead, -⟩ | ⟨-, _, _, _, -, _, _, hpath, -⟩
  · obtain rfl := Option.some.inj hhead
    exact absurd hblank (by decide)
  · obtain ⟨part, tail, hpart, -⟩ := exists_part_of_readPath hpath
    rw [skipBlank_cons_of_not hc, readKeyPart_of_isBlank hblank] at hpart
    cases hpart

/-- The name between the brackets of a header, without white space around it, is its key, if it
needs no quotes. -/
theorem eq_header_of_readStatement {blanks' more : List Char} {statement : Statement}
    (hblanks : ∀ c ∈ blanks, Text.isBlank c = true)
    (hblanks' : ∀ c ∈ blanks', Text.isBlank c = true) (hword : IsBareKey word)
    (h : readStatement ('[' :: (blanks ++ (word ++ (blanks' ++ ']' :: more)))) =
      some (statement, rest)) :
    statement = .header [] (String.ofList word) := by
  have hmargin : IsMargin blanks' := fun c hc => Or.inr (hblanks' c hc)
  have hhead : (blanks ++ (word ++ (blanks' ++ ']' :: more))).head? ≠ some '[' := by
    obtain ⟨c, word', rfl, hc⟩ := hword.exists_cons
    cases blanks with
    | nil => simpa using ne_of_isBare hc (by decide)
    | cons d blanks => simpa using ne_of_isBlank (hblanks d (by simp)) (by decide)
  obtain ⟨path, key, tail, _, rfl, hpath, -⟩ := readStatement_header hhead h
  obtain ⟨rfl, rfl, -⟩ := eq_of_readPath_bare hblanks hword (hmargin.isBare_head? (by decide))
    (hmargin.head?_skipBlank_ne (by decide) (by decide)) hpath
  rfl

/-- No header has an empty name. -/
theorem readStatement_blank_header {more : List Char}
    (hblanks : ∀ c ∈ blanks, Text.isBlank c = true) :
    readStatement ('[' :: (blanks ++ ']' :: more)) = none := by
  have hhead : (blanks ++ ']' :: more).head? ≠ some '[' := by
    cases blanks with
    | nil => simp
    | cons d blanks => simpa using ne_of_isBlank (hblanks d (by simp)) (by decide)
  rw [Option.eq_none_iff_forall_ne_some]
  rintro ⟨statement, rest⟩ h
  obtain ⟨path, key, tail, _, -, hpath, -⟩ := readStatement_header hhead h
  obtain ⟨part, tail', hpart, -⟩ := exists_part_of_readPath hpath
  have hread := readKeyPart_skipBlank_append hblanks _ hpart
  rw [skipBlank_cons_of_not (by decide)] at hread
  cases hread

end Pedigree.Toml
