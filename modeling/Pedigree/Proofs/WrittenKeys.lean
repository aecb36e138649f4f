import Pedigree.Proofs.BareKeys
import Pedigree.Proofs.LineScan
import Pedigree.Proofs.StatementPlaces

/-!
# Where a key is written

The scan for the line of a key knows lines only, while a document is read as statements. The two
agree where statements are plain (`Configuration.IsPlain`) : nothing follows the brackets of a
header, no key holds an equals sign, and the further lines of a value hold none either and do not
stand in brackets. In a document of plain statements the line that is found for a key that needs no
quotes is one on which a statement gives this key a value in this table, or, outside of all tables,
one of the header of this name (`Configuration.writtenAt_of_findLine`).
-/

namespace Pedigree

namespace Configuration

open Text
open Toml (IsBareKey Placed Reads openTable skipGap)

/-! ## What a line says -/

/-- A line without white space before it is its trimmed part and white space behind it. -/
theorem exists_trim_append {c : Char} (hc : isBlank c = false) (chars : List Char) :
    ∃ back, c :: chars = trim (c :: chars) ++ back := by
  obtain ⟨front, back, htext, hfront, -⟩ := exists_trimBy isBlank (c :: chars)
  cases front with
  | nil => exact ⟨back, htext⟩
  | cons d front =>
    obtain rfl : c = d := by simpa using congrArg List.head? htext
    rw [hfront c (List.mem_cons_self ..)] at hc
    cases hc

/-- The name of a header stands between brackets, with white space around it. -/
theorem exists_of_headerName? {line name : List Char} (h : headerName? line = some name) :
    ∃ front back, line = '[' :: (front ++ (name ++ (back ++ [']']))) ∧
      (∀ c ∈ front, isBlank c = true) ∧ ∀ c ∈ back, isBlank c = true := by
  unfold headerName? at h
  split at h
  · rename_i rest
    split at h
    · rename_i hlast
      have hname : trimBy isBlank rest.dropLast = name := Option.some.inj h
      obtain ⟨front, back, htext, hfront, hback⟩ := exists_trimBy isBlank rest.dropLast
      rw [hname] at htext
      have hrest : rest.dropLast ++ [']'] = rest := List.dropLast_append_getLast? _ hlast
      rw [htext] at hrest
      exact ⟨front, back, by simp [← hrest], hfront, hback⟩
    · cases h
  · cases h

/-- The name of an entry stands before the first equals sign, with double quotes and white space
around it. -/
theorem exists_of_entryName? {line name : List Char} (h : entryName? line = some name) :
    ∃ blanks front back blanks' more,
      line = blanks ++ (front ++ (name ++ (back ++ blanks' ++ '=' :: more))) ∧
      (∀ c ∈ blanks, isBlank c = true) ∧ (∀ c ∈ front, c = '"') ∧ (∀ c ∈ back, c = '"') ∧
      ∀ c ∈ blanks', isBlank c = true := by
  unfold entryName? at h
  split at h
  · rename_i hequals
    have hname := Option.some.inj h
    obtain ⟨hline, -⟩ := eq_takeWhile_append (List.contains_iff_mem.1 hequals)
    obtain ⟨blanks, blanks', hbefore, hblanks, hblanks'⟩ :=
      exists_trimBy isBlank (line.takeWhile (· != '='))
    obtain ⟨front, back, htrimmed, hfront, hback⟩ :=
      exists_trimBy (· == '"') (trim (line.takeWhile (· != '=')))
    refine ⟨blanks, front, back, blanks', (line.dropWhile (· != '=')).tail, ?_, hblanks,
      fun c hc => beq_iff_eq.1 (hfront c hc), fun c hc => beq_iff_eq.1 (hback c hc), hblanks'⟩
    rw [hname] at htrimmed
    conv_lhs => rw [hline, hbefore]
    change blanks ++ trim (line.takeWhile (· != '=')) ++ blanks' ++ _ = _
    rw [htrimmed]
    simp only [List.append_assoc]
  · cases h

theorem entryName?_of_notMem {line : List Char} (h : '=' ∉ line) :
    entryName? (trim line) = none := by
  have hmem : '=' ∉ trim line := by
    obtain ⟨front, back, hline, -⟩ := exists_trimBy isBlank line
    intro hmem
    refine h ?_
    rw [hline]
    exact List.mem_append_left _ (List.mem_append_right _ hmem)
  rw [entryName?, if_neg (mt List.contains_iff_mem.1 hmem)]

/-- A comment names no entry that needs no quotes. -/
theorem entryName?_comment_ne {word : List Char} (hword : IsBareKey word) (rest : List Char) :
    entryName? (trim ('#' :: rest)) ≠ some word := by
  have hkeep (drop : Char → Bool) (h : drop '#' = false) (chars : List Char) :
      (trimBy drop ('#' :: chars)).head? = some '#' := by
    rw [trimBy_cons_of_keep h, List.head?_cons]
  intro hname
  obtain ⟨blanks, front, back, blanks', more, hline, hblanks, hfront, -⟩ :=
    exists_of_entryName? hname
  obtain ⟨c, word', rfl, hc⟩ := hword.exists_cons
  have hhead := congrArg List.head? hline
  rw [trim, hkeep isBlank (by decide)] at hhead
  match blanks, front, hblanks, hfront with
  | c :: _, _, hblanks, _ =>
    obtain rfl := Option.some.inj hhead
    exact absurd (hblanks _ (List.mem_cons_self ..)) (by decide)
  | [], c :: _, _, hfront =>
    obtain rfl := Option.some.inj hhead
    exact absurd (hfront _ (List.mem_cons_self ..)) (by decide)
  | [], [], _, _ =>
    obtain rfl := Option.some.inj hhead
    exact absurd hc (by decide)

/-! ## What the scan passes over -/

variable {table word current text start rest : List Char} {number line : Nat}

/-- Lines that the scan passes over lead from one place of a text to another: none of them holds an
equals sign or stands in brackets. -/
inductive Passes : List Char → List Char → Prop
  | none (text : List Char) : Passes text text
  | line {text rest : List Char} (hequals : '=' ∉ firstLine text)
    (hheader : headerName? (trim (firstLine text)) = none) (h : Passes (nextLines text) rest) :
    Passes text rest

/-- Before the lines on which the scan finds a key stands one line with its break. -/
theorem exists_line_append
    (hfind : findLine table word number current (split '\n' (nextLines text)) = some line) :
    ∃ first, text = first ++ nextLines text ∧ first.count '\n' = 1 := by
  obtain ⟨htext, hnot⟩ := eq_firstLine_append (mem_of_findLine_nextLines hfind)
  refine ⟨firstLine text ++ ['\n'], by simpa using htext, ?_⟩
  rw [List.count_append, List.count_eq_zero_of_not_mem hnot, List.count_singleton_self]

theorem exists_of_passes (h : Passes text rest)
    (hfind : findLine table word number current (split '\n' text) = some line) :
    ∃ front, text = front ++ rest ∧
      findLine table word (number + front.count '\n') current (split '\n' rest) = some line := by
  induction h generalizing number with
  | none text => exact ⟨[], rfl, hfind⟩
  | @line text rest hequals hheader h ih =>
    rw [findLine_split_of_not_header hheader, entryName?_of_notMem hequals,
      if_neg (by simp)] at hfind
    obtain ⟨front, hnext, hrest⟩ := ih hfind
    obtain ⟨first, hfirst, hcount⟩ := exists_line_append hfind
    refine ⟨first ++ front, by rw [List.append_assoc, ← hnext, ← hfirst], ?_⟩
    rw [List.count_append, hcount, ← Nat.add_assoc]
    exact hrest

theorem findLine_split_break_cons (text : List Char) :
    findLine table word number current (split '\n' ('\n' :: text)) =
      findLine table word (number + 1) current (split '\n' text) := by
  have hheader : headerName? (trim (firstLine ('\n' :: text))) = none := rfl
  have hentry : entryName? (trim (firstLine ('\n' :: text))) = none := rfl
  rw [findLine_split_of_not_header hheader, hentry, if_neg (by simp), nextLines_break_cons]

/-- White space before a line plays no part. -/
theorem findLine_split_blank_cons {c : Char} (hc : c ≠ '\n') (hblank : isBlank c = true)
    (text : List Char) :
    findLine table word number current (split '\n' (c :: text)) =
      findLine table word number current (split '\n' text) := by
  have hline : trim (firstLine (c :: text)) = trim (firstLine text) := by
    rw [firstLine_cons_of_ne hc]
    exact trimBy_cons_of_drop hblank _
  cases hheader : headerName? (trim (firstLine text)) with
  | none =>
    rw [findLine_split_of_not_header (hline ▸ hheader), findLine_split_of_not_header hheader, hline,
      nextLines_cons_of_ne hc]
  | some name =>
    rw [findLine_split_of_header (hline ▸ hheader), findLine_split_of_header hheader,
      nextLines_cons_of_ne hc]

/-- The scan passes over a comment. -/
theorem findLine_split_comment (hword : IsBareKey word) (text : List Char) :
    findLine table word number current (split '\n' ('#' :: text)) =
      findLine table word (number + 1) current (split '\n' (nextLines text)) := by
  have hfirst : firstLine ('#' :: text) = '#' :: firstLine text :=
    firstLine_cons_of_ne (by decide) text
  have hheader : headerName? (trim (firstLine ('#' :: text))) = none := by
    rw [hfirst, trim, trimBy_cons_of_keep (by decide)]
    rfl
  rw [findLine_split_of_not_header hheader, hfirst, nextLines_cons_of_ne (by decide), if_neg]
  simp only [Bool.and_eq_true, beq_iff_eq, not_and]
  exact fun _ => entryName?_comment_ne hword _

/-- The scan passes over the gap before a statement. Within a comment it is at the next line
already. -/
theorem exists_of_skipGap (hword : IsBareKey word) {comment : Bool}
    (h : skipGap comment text = some start)
    (hfind : findLine table word (if comment then number + 1 else number) current
      (split '\n' (if comment then nextLines text else text)) = some line) :
    ∃ front, text = front ++ start ∧
      findLine table word (number + front.count '\n') current (split '\n' start) = some line := by
  fun_induction skipGap comment text generalizing number with
  | case1 comment =>
    cases comment <;> simp [nextLines_of_notMem] at hfind
  | case2 comment rest ih =>
    have hrest : findLine table word (number + 1) current (split '\n' rest) = some line := by
      cases comment with
      | false => exact (findLine_split_break_cons rest).symm.trans hfind
      | true => exact hfind
    obtain ⟨front, rfl, hstart⟩ := ih h hrest
    refine ⟨'\n' :: front, rfl, ?_⟩
    rw [List.count_cons_self, ← Nat.add_assoc, Nat.add_right_comm]
    exact hstart
  | case3 c rest hc htext ih =>
    rw [if_pos rfl, if_pos rfl, nextLines_cons_of_ne hc] at hfind
    obtain ⟨front, rfl, hstart⟩ := ih h hfind
    exact ⟨c :: front, rfl, by rwa [List.count_cons_of_ne hc]⟩
  | case4 => cases h
  | case5 comment c rest hc hcomment hblank ih =>
    rw [if_neg hcomment, if_neg hcomment,
      findLine_split_blank_cons hc (Toml.isWhiteSpace_of_isBlank hblank)] at hfind
    obtain ⟨front, rfl, hstart⟩ := ih h hfind
    exact ⟨c :: front, rfl, by rwa [List.count_cons_of_ne hc]⟩
  | case6 comment rest hcomment hc _ ih =>
    rw [if_neg hcomment, if_neg hcomment, findLine_split_comment hword] at hfind
    obtain ⟨front, rfl, hstart⟩ := ih h hfind
    exact ⟨'#' :: front, rfl, by rwa [List.count_cons_of_ne hc]⟩
  | case7 comment c rest hc hcomment hblank hhash =>
    obtain rfl := Option.some.inj h
    rw [if_neg hcomment, if_neg hcomment] at hfind
    exact ⟨[], rfl, hfind⟩

/-- No blank is left before a statement. -/
theorem isBlank_eq_false_of_skipGap {comment : Bool} {c : Char}
    (h : skipGap comment text = some (c :: rest)) : Toml.isBlank c = false := by
  fun_induction skipGap comment text with
  | case7 comment c' rest' hc hcomment hblank hhash =>
    cases h
    simpa using hblank
  | _ => simp_all

/-! ## Plain statements -/

/-- What the scan takes for granted of a statement. -/
structure IsPlain (place : Placed) : Prop where
  /-- Nothing follows the brackets of a header but white space. -/
  header : ∀ path key, place.statement = .header path key ∨ place.statement = .nextHeader path key →
    (trim (firstLine place.text)).getLast? = some ']'
  /-- No part of a key holds an equals sign. -/
  key : ∀ path key value, place.statement = .assign path key value →
    ∀ part ∈ path ++ [key], '=' ∉ part.toList
  /-- The scan passes over further lines. -/
  lines : Passes (nextLines place.text) place.rest

/-- The path of a table, none for the document itself. -/
def tablePath (table : String) : List String := if table = "" then [] else [table]

/-- Where keys go to this table, a statement gives the key a value in it, or, outside of all tables,
is the header of the table of this name. -/
inductive Writes (opened : List String) (table key : String) : Toml.Statement → Prop
  | entry (value : Toml.Item) (h : opened = tablePath table) :
    Writes opened table key (.assign [] key value)
  | header (h : table = "") : Writes opened table key (.header [] key)

/-- On this line of the text a statement begins that writes the key in the table. -/
inductive WrittenAt (text : List Char) (places : List Placed) (line : Nat) (table key : String) :
    Prop
  | mk {front : List Char} {before after : List Placed} {place : Placed}
    (hplaces : places = before ++ place :: after) (htext : text = front ++ place.text)
    (hline : line = front.count '\n' + 1)
    (hwrites : Writes (openTable [] before) table key place.statement)

/-! ## The line of a key -/

/-- A header is seen by the scan. -/
theorem IsPlain.exists_headerName? {place : Placed} (hplain : IsPlain place) {path : List String}
    {key : String} (hhead : place.text.head? = some '[')
    (hheader : place.statement = .header path key ∨ place.statement = .nextHeader path key) :
    ∃ name, headerName? (trim (firstLine place.text)) = some name := by
  obtain ⟨chars, hchars⟩ := List.head?_eq_some_iff.1 hhead
  have hlast := hplain.header path key hheader
  rw [hchars, firstLine_cons_of_ne (by decide), trim, trimBy_cons_of_keep (by decide)] at hlast ⊢
  cases htrimmed : ((firstLine chars).reverse.dropWhile isBlank).reverse with
  | nil =>
    rw [htrimmed] at hlast
    cases hlast
  | cons d rest =>
    rw [htrimmed, List.getLast?_cons_cons] at hlast
    exact ⟨_, if_pos hlast⟩

/-- A text that no white space precedes begins with its first line, trimmed. -/
theorem exists_trim_firstLine_append {c : Char} (hc : isBlank c = false) (chars : List Char) :
    ∃ more, c :: chars = trim (firstLine (c :: chars)) ++ more := by
  have hbreak : c ≠ '\n' := by
    rintro rfl
    cases hc
  obtain ⟨back, hback⟩ := exists_trim_append hc (firstLine chars)
  have htext : c :: chars = firstLine (c :: chars) ++ (c :: chars).dropWhile (· != '\n') :=
    List.takeWhile_append_dropWhile.symm
  rw [firstLine_cons_of_ne hbreak] at htext ⊢
  refine ⟨back ++ (c :: chars).dropWhile (· != '\n'), ?_⟩
  rw [← List.append_assoc, ← hback]
  exact htext

/-- The name that the scan reads of a header is its key, if it needs no quotes, and never empty. -/
theorem eq_of_headerName? {name : List Char} {statement : Toml.Statement} {c : Char}
    {chars : List Char} (hc : isBlank c = false)
    (hstatement : Toml.readStatement (c :: chars) = some (statement, rest))
    (hname : headerName? (trim (firstLine (c :: chars))) = some name) :
    name ≠ [] ∧ (IsBareKey name → statement = .header [] (String.ofList name)) := by
  obtain ⟨more, htext⟩ := exists_trim_firstLine_append hc chars
  obtain ⟨front, back, hline, hfront, hback⟩ := exists_of_headerName? hname
  have hheader : c :: chars = '[' :: (front ++ (name ++ (back ++ ']' :: more))) := by
    rw [htext, hline]
    simp
  rw [hheader] at hstatement
  constructor
  · rintro rfl
    have hblanks : ∀ d ∈ front ++ back, isBlank d = true := fun d hd =>
      (List.mem_append.1 hd).elim (hfront d) (hback d)
    have hnone : Toml.readStatement ('[' :: (front ++ back ++ ']' :: more)) = none :=
      Toml.readStatement_blank_header hblanks
    rw [List.append_assoc] at hnone
    rw [List.nil_append, hnone] at hstatement
    cases hstatement
  · exact fun hword => Toml.eq_header_of_readStatement hfront hback hword hstatement

/-- The name that the scan reads of an entry is its key, if it needs no quotes. -/
theorem eq_of_entryName? {path : List String} {key : String} {value : Toml.Item} {c : Char}
    {chars : List Char} (hc : isBlank c = false) (hword : IsBareKey word)
    (hstatement : Toml.readStatement (c :: chars) = some (.assign path key value, rest))
    (hequals : ∀ part ∈ path ++ [key], '=' ∉ part.toList)
    (hname : entryName? (trim (firstLine (c :: chars))) = some word) :
    path = [] ∧ key = String.ofList word := by
  obtain ⟨more, htext⟩ := exists_trim_firstLine_append hc chars
  obtain ⟨blanks, front, back, blanks', more', hline, hblanks, hfront, hback, hblanks'⟩ :=
    exists_of_entryName? hname
  have hentry : c :: chars =
      blanks ++ (front ++ (word ++ (back ++ blanks' ++ '=' :: (more' ++ more)))) := by
    rw [htext, hline]
    simp
  obtain rfl : blanks = [] := by
    cases blanks with
    | nil => rfl
    | cons d blanks =>
      obtain rfl : c = d := (List.cons.inj hentry).1
      rw [hblanks c (List.mem_cons_self ..)] at hc
      cases hc
  rcases Toml.readStatement_cases hstatement with
    ⟨-, _, _, h | h⟩ | ⟨-, _, _, _, h, _, _, hpath, hmark⟩
  · cases h
  · cases h
  · cases h
    rw [hentry] at hpath
    exact Toml.eq_of_readPath hfront hword hback hblanks' hpath hmark hequals

/-- At a plain statement the scan finds a key that it writes, or goes on behind its first line. The
name that the scan holds says nothing of the open table unless it is the one looked for. -/
theorem writes_or_findLine_nextLines {table key : String} {opened : List String}
    {statement : Toml.Statement} {c : Char} {chars : List Char} (hc : isBlank c = false)
    (hstatement : Toml.readStatement (c :: chars) = some (statement, rest))
    (hplain : IsPlain ⟨c :: chars, statement, rest⟩)
    (htable : table = "" ∨ IsBareKey table.toList) (hkey : IsBareKey key.toList)
    (hopen : current = table.toList → opened = tablePath table)
    (hfind : findLine table.toList key.toList number current (split '\n' (c :: chars)) =
      some line) :
    (line = number ∧ Writes opened table key statement) ∨
      ∃ current', (current' = table.toList → statement.table opened = tablePath table) ∧
        findLine table.toList key.toList (number + 1) current'
          (split '\n' (nextLines (c :: chars))) = some line := by
  cases hname : headerName? (trim (firstLine (c :: chars))) with
  | some name =>
    obtain ⟨hne, hheader⟩ := eq_of_headerName? hc hstatement hname
    rw [findLine_split_of_header hname] at hfind
    split at hfind
    · rename_i hfound
      rw [Bool.and_eq_true, beq_iff_eq] at hfound
      obtain ⟨hempty, rfl⟩ := hfound
      rw [hheader hkey, String.ofList_toList]
      exact Or.inl ⟨(Option.some.inj hfind).symm, .header (by simpa using hempty)⟩
    · refine Or.inr ⟨name, fun hcurrent => ?_, hfind⟩
      have hne' : table ≠ "" := by
        rintro rfl
        exact hne hcurrent
      have hbare : IsBareKey name := hcurrent ▸ htable.resolve_left hne'
      rw [hheader hbare, hcurrent, String.ofList_toList, tablePath, if_neg hne']
      rfl
  | none =>
    rw [findLine_split_of_not_header hname] at hfind
    rcases Toml.readStatement_cases hstatement with
      ⟨hhead, path, name, hheader⟩ | ⟨-, path, name, value, rfl, -⟩
    · obtain ⟨name', hname'⟩ := hplain.exists_headerName? hhead hheader
      rw [hname] at hname'
      cases hname'
    · split at hfind
      · rename_i hfound
        rw [Bool.and_eq_true, beq_iff_eq, beq_iff_eq] at hfound
        obtain ⟨rfl, rfl⟩ := eq_of_entryName? hc hkey hstatement (hplain.key _ _ _ rfl) hfound.2
        rw [String.ofList_toList]
        exact Or.inl ⟨(Option.some.inj hfind).symm, .entry value (hopen hfound.1)⟩
      · exact Or.inr ⟨current, hopen, hfind⟩

/-- In a document of plain statements the scan finds a key where a statement writes it. -/
theorem writtenAt_of_findLine {front : List Char} {before places : List Placed} {table key : String}
    (hreads : Reads text places) (hplain : ∀ place ∈ places, IsPlain place)
    (htable : table = "" ∨ IsBareKey table.toList) (hkey : IsBareKey key.toList)
    (hopen : current = table.toList → openTable [] before = tablePath table)
    (hfind : findLine table.toList key.toList (front.count '\n' + 1) current (split '\n' text) =
      some line) :
    WrittenAt (front ++ text) (before ++ places) line table key := by
  induction hreads generalizing front before current with
  | done hgap =>
    obtain ⟨gap, -, hend⟩ := exists_of_skipGap hkey hgap hfind
    rw [findLine_split_nil] at hend
    cases hend
  | @next text start rest statement places hgap hstart hstatement hrest ih =>
    obtain ⟨gap, rfl, hat⟩ := exists_of_skipGap hkey hgap hfind
    obtain ⟨c, chars, rfl⟩ := List.exists_cons_of_ne_nil hstart
    have hc : isBlank c = false :=
      Toml.isBlank_eq_false_of_readStatement (isBlank_eq_false_of_skipGap hgap) hstatement
    have hfirst : IsPlain ⟨c :: chars, statement, rest⟩ := hplain _ (List.mem_cons_self ..)
    rw [Nat.add_right_comm, ← List.count_append] at hat
    rw [← List.append_assoc]
    rcases writes_or_findLine_nextLines hc hstatement hfirst htable hkey hopen hat with
      ⟨rfl, hwrites⟩ | ⟨current', hopen', hnext⟩
    · exact .mk rfl rfl rfl hwrites
    · obtain ⟨first, hchars, hcount⟩ := exists_line_append hnext
      obtain ⟨middle, hmiddle, hbehind⟩ := exists_of_passes hfirst.lines hnext
      have hnumber : (front ++ gap).count '\n' + 1 + 1 + middle.count '\n' =
          (front ++ gap ++ first ++ middle).count '\n' + 1 := by
        simp only [List.count_append, hcount]
        omega
      rw [hnumber] at hbehind
      have hwritten : WrittenAt (front ++ gap ++ first ++ middle ++ rest)
          (before ++ [⟨c :: chars, statement, rest⟩] ++ places) line table key :=
        ih (fun place hplace => hplain place (List.mem_cons_of_mem _ hplace))
          (by simpa [openTable] using hopen') hbehind
      have htext : front ++ gap ++ first ++ middle ++ rest = front ++ gap ++ c :: chars := by
        rw [hchars, hmiddle]
        simp only [List.append_assoc]
      rwa [htext, List.append_assoc before, List.singleton_append] at hwritten

end Configuration

end Pedigree
