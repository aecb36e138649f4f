import Mathlib.Data.List.Chain
import Mathlib.Data.List.TakeWhile
import Pedigree.Path

/-!
# The steps of a path and of its parents

Parents are found by dropping characters at the end of a path, walks follow the steps read from
its start. `Path.moves` are the steps that lead somewhere, and both views agree on them : a parent
has all moves of the path but the last (`parent?_eq_some`), so each of the `ancestors` of a path
stands in the next one (`Path.StandsIn`, `isChain_ancestors`).
-/

namespace Pedigree

namespace Text

variable {separator : Char}

theorem split_ne_nil (separator : Char) (text : List Char) : split separator text ≠ [] := by
  cases text with
  | nil => simp [split]
  | cons c rest =>
    rw [split]
    split
    · simp
    · split <;> simp

theorem split_separator_cons (rest : List Char) :
    split separator (separator :: rest) = [] :: split separator rest := by
  rw [split]
  split
  · rename_i hsplit
    exact absurd hsplit (split_ne_nil separator rest)
  · rename_i hsplit
    simp [hsplit]

theorem split_append_separator (before after : List Char) :
    split separator (before ++ separator :: after) =
      split separator before ++ split separator after := by
  induction before with
  | nil => exact split_separator_cons after
  | cons c rest ih =>
    obtain ⟨part, parts, hsplit⟩ := List.exists_cons_of_ne_nil (split_ne_nil separator rest)
    rw [List.cons_append, split, split, ih, hsplit]
    by_cases hc : c = separator <;> simp [hc]

/-- A text without the separator is one part. -/
theorem split_of_notMem {text : List Char} (h : separator ∉ text) :
    split separator text = [text] := by
  induction text with
  | nil => rfl
  | cons c rest ih =>
    rw [List.mem_cons, not_or] at h
    rw [split, ih h.2]
    simp [Ne.symm h.1]

end Text

namespace Path

/-! ## Reading steps -/

/-- The step of a component. The empty component between two slashes is none. -/
def Step.ofComponent? (component : List Char) : Option Step :=
  if component = [] then none
  else if component = ['.'] then some .stay
  else if component = ['.', '.'] then some .up
  else some (.name (String.ofList component))

/-- The steps of a text. -/
def Step.read (text : List Char) : List Step := (Text.split '/' text).filterMap Step.ofComponent?

theorem steps_eq_read (p : Path) : p.steps = Step.read p.text.toList := rfl

/-- The steps that lead somewhere. -/
def Step.moves (steps : List Step) : List Step := steps.filter (· ≠ .stay)

/-- The steps of a path that lead somewhere. -/
def moves (p : Path) : List Step := Step.moves p.steps

namespace Step

@[simp] theorem moves_nil : moves [] = [] := rfl

@[simp] theorem moves_append (before after : List Step) :
    moves (before ++ after) = moves before ++ moves after := List.filter_append ..

theorem moves_singleton {step : Step} (h : step ≠ .stay) : moves [step] = [step] := by
  simp [moves, h]

@[simp] theorem moves_stay_cons (steps : List Step) : moves (.stay :: steps) = moves steps := rfl

@[simp] theorem read_nil : read [] = [] := rfl

theorem read_append_slash (before after : List Char) :
    read (before ++ '/' :: after) = read before ++ read after := by
  rw [read, Text.split_append_separator, List.filterMap_append]
  rfl

@[simp] theorem read_slash_cons (rest : List Char) : read ('/' :: rest) = read rest :=
  read_append_slash [] rest

theorem read_of_notMem {component : List Char} (h : '/' ∉ component) :
    read component = (ofComponent? component).toList := by
  rw [read, Text.split_of_notMem h, List.filterMap_cons, List.filterMap_nil]
  cases ofComponent? component <;> rfl

/-- The last component of a text that is written backwards is its last step. -/
theorem read_reverse (reversed : List Char) :
    read reversed.reverse = read (dropComponent reversed).reverse ++
      (ofComponent? (reversed.takeWhile (· != '/')).reverse).toList := by
  have hcomponent : '/' ∉ (reversed.takeWhile (· != '/')).reverse := by
    rw [List.mem_reverse]
    exact fun hmem => by simpa using List.mem_takeWhile_imp hmem
  have hsplit : reversed.takeWhile (· != '/') ++ reversed.dropWhile (· != '/') = reversed :=
    List.takeWhile_append_dropWhile
  cases hrest : reversed.dropWhile (· != '/') with
  | nil =>
    rw [hrest, List.append_nil] at hsplit
    rw [dropComponent, hrest, ← hsplit, hsplit, ← read_of_notMem hcomponent, hsplit]
    rfl
  | cons slash rest =>
    have hslash : slash = '/' := by
      have hhead := List.head?_dropWhile_not (· != '/') reversed
      simpa [hrest] using hhead
    rw [hrest, hslash] at hsplit
    rw [dropComponent, hrest, ← read_of_notMem hcomponent, List.drop_one, List.tail_cons,
      ← read_append_slash]
    conv_lhs => rw [← hsplit]
    simp

end Step

/-! ## Parents -/

theorem trimEnd_suffix (reversed : List Char) : trimEnd reversed <:+ reversed := by
  induction reversed using trimEnd.induct with
  | case1 => rw [trimEnd]; simp
  | case2 reversed hne component hcomponent ih =>
    rw [trimEnd, dif_neg hne, if_pos hcomponent]
    exact ih.trans ((List.drop_suffix ..).trans (List.dropWhile_suffix _))
  | case3 reversed hne component hcomponent =>
    exact ⟨[], by rw [trimEnd, dif_neg hne, if_neg hcomponent, List.nil_append]⟩

theorem dropComponent_suffix (reversed : List Char) : dropComponent reversed <:+ reversed :=
  (List.drop_suffix ..).trans (List.dropWhile_suffix _)

/-- What is trimmed leads nowhere. -/
theorem moves_read_trimEnd (reversed : List Char) :
    Step.moves (Step.read (trimEnd reversed).reverse) =
      Step.moves (Step.read reversed.reverse) := by
  induction reversed using trimEnd.induct with
  | case1 => rw [trimEnd]; rfl
  | case2 reversed hne component hcomponent ih =>
    have hlast : Step.moves (Step.ofComponent? component.reverse).toList = [] := by
      rcases hcomponent with hcomponent | hcomponent <;> rw [hcomponent] <;> rfl
    rw [trimEnd, dif_neg hne, if_pos hcomponent, ih, Step.read_reverse reversed, Step.moves_append,
      hlast, List.append_nil]
  | case3 reversed hne component hcomponent => rw [trimEnd, dif_neg hne, if_neg hcomponent]

/-- What remains ends in a step that leads somewhere. -/
theorem trimEnd_eq_nil_or_ends (reversed : List Char) :
    trimEnd reversed = [] ∨ ∃ step, step ≠ .stay ∧
      Step.ofComponent? ((trimEnd reversed).takeWhile (· != '/')).reverse = some step := by
  induction reversed using trimEnd.induct with
  | case1 => exact Or.inl (by rw [trimEnd]; rfl)
  | case2 reversed hne component hcomponent ih =>
    rw [trimEnd, dif_neg hne, if_pos hcomponent]
    exact ih
  | case3 reversed hne component hcomponent =>
    rw [trimEnd, dif_neg hne, if_neg hcomponent]
    right
    rw [not_or] at hcomponent
    have hnil : component.reverse ≠ [] := by simpa using hcomponent.1
    have hdot : component.reverse ≠ ['.'] := fun h => hcomponent.2 (List.reverse_inj.1 h)
    rw [Step.ofComponent?, if_neg hnil, if_neg hdot]
    split
    · exact ⟨.up, Step.noConfusion, rfl⟩
    · exact ⟨.name _, Step.noConfusion, rfl⟩

/-- An anchor adds at most a step that leads nowhere. -/
theorem read_anchor {chars more : List Char} (h : more <+: chars.drop (anchorLength chars)) :
    ∃ front, Step.moves front = [] ∧
      Step.read (chars.take (anchorLength chars) ++ more) = front ++ Step.read more := by
  unfold anchorLength at h ⊢
  split at h
  · exact ⟨[], rfl, Step.read_slash_cons more⟩
  · obtain rfl := List.prefix_nil.1 h
    exact ⟨[.stay], rfl, rfl⟩
  · refine ⟨[.stay], rfl, ?_⟩
    rcases List.prefix_cons_iff.1 h with rfl | ⟨rest, rfl, -⟩
    · rfl
    · rw [Step.read_slash_cons]
      exact Step.read_append_slash ['.'] rest
  · exact ⟨[], rfl, rfl⟩

theorem moves_read_anchor {chars more : List Char}
    (h : more <+: chars.drop (anchorLength chars)) :
    Step.moves (Step.read (chars.take (anchorLength chars) ++ more)) =
      Step.moves (Step.read more) := by
  obtain ⟨front, hfront, hread⟩ := read_anchor h
  rw [hread, Step.moves_append, hfront, List.nil_append]

/-- A path that keeps its anchor is absolute or not as before. -/
theorem head?_anchor {chars more : List Char} (h : more <+: chars.drop (anchorLength chars)) :
    ((chars.take (anchorLength chars) ++ more).head? == some '/') =
      (chars.head? == some '/') := by
  unfold anchorLength at h ⊢
  split at h
  · rfl
  · rfl
  · rfl
  · rename_i hslash _ _
    obtain ⟨rest, rfl⟩ : more <+: chars := h
    cases more with
    | nil => cases rest with
      | nil => rfl
      | cons c rest => simpa using fun hc : c = '/' => hslash rest (hc ▸ rfl)
    | cons c more => rfl

/-- A path that ends in a single dot leads nowhere at all. -/
def Trimmed (p : Path) : Prop := p.steps.getLast? = some .stay → p.moves = []

/-- A path whose end is trimmed. -/
theorem trimmed_anchor {chars reversed : List Char}
    (h : (trimEnd reversed).reverse <+: chars.drop (anchorLength chars)) :
    Trimmed ⟨String.ofList (chars.take (anchorLength chars) ++ (trimEnd reversed).reverse)⟩ := by
  obtain ⟨front, hfront, hread⟩ := read_anchor h
  rw [Trimmed, moves, steps_eq_read, String.toList_ofList, hread]
  rcases trimEnd_eq_nil_or_ends reversed with hnil | ⟨step, hstep, hends⟩
  · rw [hnil, List.reverse_nil, Step.read_nil, List.append_nil]
    exact fun _ => hfront
  · rw [Step.read_reverse, hends]
    intro hlast
    exact absurd (by simpa using hlast) hstep

/-- The moves of a path are those of what is left of it once its end is trimmed. -/
theorem moves_eq_moves_trimEnd (p : Path) : p.moves = Step.moves (Step.read
    (trimEnd (p.text.toList.drop (anchorLength p.text.toList)).reverse).reverse) := by
  rw [moves, steps_eq_read, moves_read_trimEnd, List.reverse_reverse,
    ← moves_read_anchor List.prefix_rfl, List.take_append_drop]

/-- Only paths that do not move have no parent. -/
theorem exists_parent? {p : Path} (h : p.moves ≠ []) : ∃ q, p.parent? = some q := by
  rw [moves_eq_moves_trimEnd] at h
  rw [parent?, if_neg]
  · exact ⟨_, rfl⟩
  · intro hempty
    rw [List.isEmpty_iff.1 hempty] at h
    exact h rfl

/-- A parent has all moves of the path but the last. The empty path is the parent of paths that do
not move. -/
theorem parent?_eq_some {p q : Path} (h : p.parent? = some q) :
    q.isAbsolute = p.isAbsolute ∧ q.Trimmed ∧
      ((∃ step, p.moves = q.moves ++ [step]) ∨ p.moves = [] ∧ q.text = "") := by
  have hmoves := p.moves_eq_moves_trimEnd
  simp only [parent?] at h
  generalize hchars : p.text.toList = chars at h hmoves
  generalize hbody : trimEnd (chars.drop (anchorLength chars)).reverse = body at h hmoves
  rw [isAbsolute, isAbsolute, hchars]
  split at h
  · rename_i hempty
    split at h
    · rename_i hdot
      obtain rfl := List.isEmpty_iff.1 hempty
      obtain rfl := Option.some.inj h
      have habsolute := head?_anchor (List.nil_prefix (l := chars.drop (anchorLength chars)))
      rw [hdot] at habsolute
      exact ⟨habsolute, nofun, Or.inr ⟨hmoves, rfl⟩⟩
    · cases h
  · rename_i hempty
    obtain rfl := Option.some.inj h
    -- the last component goes, and what is trimmed behind it leads nowhere
    have hprefix :
        (trimEnd (dropComponent body)).reverse <+: chars.drop (anchorLength chars) := by
      rw [← List.reverse_reverse (chars.drop (anchorLength chars)), List.reverse_prefix]
      exact (trimEnd_suffix _).trans ((dropComponent_suffix _).trans (hbody ▸ trimEnd_suffix _))
    refine ⟨?_, trimmed_anchor hprefix, Or.inl ?_⟩
    · rw [String.toList_ofList]
      exact head?_anchor hprefix
    · obtain hnil | ⟨step, hstep, hends⟩ :=
        hbody ▸ trimEnd_eq_nil_or_ends (chars.drop (anchorLength chars)).reverse
      · exact absurd (List.isEmpty_iff.2 hnil) hempty
      · refine ⟨step, ?_⟩
        rw [hmoves, Step.read_reverse, hends, Step.moves_append, moves, steps_eq_read,
          String.toList_ofList, moves_read_anchor hprefix, moves_read_trimEnd]
        exact congrArg _ (Step.moves_singleton hstep)

/-! ## Ancestors -/

/-- The last step of the path is taken in the directory `q`. -/
structure StandsIn (p q : Path) : Prop where
  text : p.text ≠ ""
  isAbsolute : q.isAbsolute = p.isAbsolute
  moves : Step.moves p.steps.dropLast = q.moves
  directoryText : q.text ≠ ""

theorem moves_of_text_eq_empty {p : Path} (h : p.text = "") : p.moves = [] := by
  rw [moves, steps_eq_read, h]
  rfl

/-- The last step of a trimmed path that moves is its last move. -/
theorem Trimmed.moves_dropLast {p : Path} (h : p.Trimmed) {before : List Step} {step : Step}
    (hmoves : p.moves = before ++ [step]) : Step.moves p.steps.dropLast = before := by
  rcases List.eq_nil_or_concat p.steps with hnil | ⟨front, last, hsteps⟩
  · rw [moves, hnil] at hmoves
    simp at hmoves
  · have hlast : last ≠ .stay := by
      rintro rfl
      have hnil := h (by rw [hsteps]; simp)
      rw [hmoves] at hnil
      simp at hnil
    rw [moves, hsteps, List.concat_eq_append, Step.moves_append, Step.moves_singleton hlast]
      at hmoves
    rw [hsteps, List.concat_eq_append, List.dropLast_concat]
    exact (List.append_inj' hmoves rfl).1

theorem Trimmed.standsIn {p q : Path} (h : p.Trimmed) (hparent : p.parent? = some q)
    (htext : q.text ≠ "") : p.StandsIn q := by
  obtain ⟨habsolute, -, ⟨step, hmoves⟩ | ⟨-, hempty⟩⟩ := parent?_eq_some hparent
  · have hne : p.text ≠ "" := fun hempty => by
      rw [moves_of_text_eq_empty hempty] at hmoves
      simp at hmoves
    exact ⟨hne, habsolute, h.moves_dropLast hmoves, htext⟩
  · exact absurd hempty htext

theorem ancestors_eq_cons {p : Path} (h : p.text ≠ "") : ∃ rest, p.ancestors = p :: rest := by
  rw [ancestors, ancestors.go, if_neg (by simpa using h)]
  split
  · exact ⟨[], rfl⟩
  · exact ⟨_, rfl⟩

/-- Each of the ancestors stands in the next one. -/
theorem isChain_ancestors {p : Path} (h : p.Trimmed) : p.ancestors.IsChain StandsIn := by
  -- the head of the remaining list is the parent, so the chain goes on with it
  suffices hgo : ∀ n (q : Path), q.Trimmed → (ancestors.go n q).IsChain StandsIn ∧
      ∀ first ∈ (ancestors.go n q).head?, first = q ∧ q.text ≠ "" from (hgo _ p h).1
  intro n
  induction n with
  | zero => intro q _; exact ⟨.nil, nofun⟩
  | succ n ih =>
    intro q hq
    rw [ancestors.go]
    split
    · exact ⟨.nil, nofun⟩
    · rename_i htext
      have hhead : ∀ first ∈ some q, first = q ∧ q.text ≠ "" := by
        rintro first hfirst
        exact ⟨(Option.some.inj hfirst).symm, by simpa using htext⟩
      split
      · exact ⟨.singleton _, hhead⟩
      · rename_i parent hparent
        obtain ⟨hchain, hfirst⟩ := ih parent (parent?_eq_some hparent).2.1
        refine ⟨List.isChain_cons.2 ⟨fun first hmem => ?_, hchain⟩, hhead⟩
        obtain ⟨rfl, hne⟩ := hfirst first hmem
        exact hq.standsIn hparent hne

/-- The path `p` leads through `q`. -/
structure LeadsThrough (p q : Path) : Prop where
  isAbsolute : q.isAbsolute = p.isAbsolute
  moves : q.moves <+: p.moves

theorem LeadsThrough.refl (p : Path) : p.LeadsThrough p := ⟨rfl, List.prefix_rfl⟩

theorem leadsThrough_of_mem_ancestors {p q : Path} (h : q ∈ p.ancestors) : p.LeadsThrough q := by
  suffices hgo : ∀ n (p : Path), q ∈ ancestors.go n p → p.LeadsThrough q from hgo _ p h
  intro n
  induction n with
  | zero => intro p hmem; cases hmem
  | succ n ih =>
    intro p hmem
    rw [ancestors.go] at hmem
    split at hmem
    · cases hmem
    · split at hmem
      · rw [List.mem_singleton.1 hmem]
        exact .refl p
      · rename_i parent hparent
        rcases List.mem_cons.1 hmem with rfl | hmem
        · exact .refl _
        · have hq := ih parent hmem
          obtain ⟨habsolute, -, hmoves⟩ := parent?_eq_some hparent
          refine ⟨hq.isAbsolute.trans habsolute, ?_⟩
          rcases hmoves with ⟨step, hmoves⟩ | ⟨-, hempty⟩
          · exact hq.moves.trans (hmoves ▸ List.prefix_append ..)
          · have hnil := hq.moves
            rw [moves_of_text_eq_empty hempty, List.prefix_nil] at hnil
            exact hnil ▸ List.nil_prefix

/-! ## Names in a directory -/

/-- The text of a path up to a name in that directory. -/
def lead (directory : Path) : List Char :=
  if directory.text.isEmpty then []
  else if directory.text.toList.getLast? == some '/' then directory.text.toList
  else directory.text.toList ++ ['/']

/-- A name that is a step of its own. -/
structure IsName (name : String) : Prop where
  notMem : '/' ∉ name.toList
  ofComponent? : Step.ofComponent? name.toList = some (.name name)

theorem toList_join_of_isName {directory : Path} {name : String} (h : IsName name) :
    (directory.join ⟨name⟩).text.toList = directory.lead ++ name.toList := by
  have hrelative : isAbsolute ⟨name⟩ = false := by
    rw [isAbsolute, beq_eq_false_iff_ne]
    exact fun hhead => h.notMem (List.mem_of_head? hhead)
  rw [join, lead, hrelative, Bool.false_or]
  split
  · simp
  · split <;> simp

theorem lead_eq_nil_or_ends (directory : Path) :
    directory.lead = [] ∨ ∃ before, directory.lead = before ++ ['/'] := by
  rw [lead]
  split
  · exact Or.inl rfl
  · split
    · rename_i hlast
      exact Or.inr ⟨_, (List.dropLast_append_getLast? '/' (by simpa using hlast)).symm⟩
    · exact Or.inr ⟨_, rfl⟩

theorem read_lead (directory : Path) : Step.read directory.lead = directory.steps := by
  rw [lead, steps_eq_read]
  split
  · rename_i hempty
    rw [String.isEmpty_iff.1 hempty]
    rfl
  · split
    · rfl
    · rw [Step.read_append_slash, Step.read_nil, List.append_nil]

theorem head?_lead (directory : Path) :
    (directory.lead.head? == some '/') = directory.isAbsolute := by
  rw [lead, isAbsolute]
  split
  · rename_i hempty
    rw [String.isEmpty_iff.1 hempty]
    rfl
  · rename_i hempty
    split
    · rfl
    · rw [List.head?_append_of_ne_nil]
      exact fun hnil => hempty (String.isEmpty_iff.2 (String.toList_eq_nil_iff.1 hnil))

theorem IsName.toList_ne_nil {name : String} (h : IsName name) : name.toList ≠ [] :=
  fun hnil => by simpa [hnil, Step.ofComponent?] using h.ofComponent?

theorem IsName.read {name : String} (h : IsName name) : Step.read name.toList = [.name name] := by
  rw [Step.read_of_notMem h.notMem, h.ofComponent?]
  rfl

/-- What a path to a name in a directory looks like. -/
structure Names (target directory : Path) (name : String) : Prop where
  text : target.text ≠ ""
  isAbsolute : target.isAbsolute = directory.isAbsolute
  steps : target.steps = directory.steps ++ [.name name]
  endsInSlash : target.endsInSlash = false

theorem names_join {directory : Path} {name : String} (h : IsName name) :
    (directory.join ⟨name⟩).Names directory name := by
  have htext : (directory.join ⟨name⟩).text.toList = directory.lead ++ name.toList :=
    toList_join_of_isName h
  refine ⟨?_, ?_, ?_, ?_⟩
  · intro hempty
    rw [hempty] at htext
    exact h.toList_ne_nil (List.append_eq_nil_iff.1 htext.symm).2
  · rw [isAbsolute, htext, ← head?_lead]
    rcases lead_eq_nil_or_ends directory with hlead | ⟨before, hlead⟩
    · rw [hlead, List.nil_append, List.head?_nil, beq_eq_false_iff_ne.2]
      · rfl
      · exact fun hhead => h.notMem (List.mem_of_head? hhead)
    · rw [List.head?_append_of_ne_nil]
      simp [hlead]
  · rw [steps_eq_read, htext, ← read_lead, ← h.read]
    rcases lead_eq_nil_or_ends directory with hlead | ⟨before, hlead⟩
    · rw [hlead]
      rfl
    · rw [hlead, List.append_assoc, Step.read_append_slash, List.singleton_append,
        Step.read_append_slash, Step.read_nil, List.append_nil]
  · rw [endsInSlash, htext, List.getLast?_append_of_ne_nil _ h.toList_ne_nil,
      beq_eq_false_iff_ne]
    exact fun hlast => h.notMem (List.mem_of_getLast? hlast)

theorem anchorLength_of_isName {name : String} (h : IsName name) :
    anchorLength name.toList = 0 := by
  unfold anchorLength
  split
  · rename_i hname
    exact absurd (hname ▸ List.mem_cons_self) h.notMem
  · rename_i hname
    exact absurd (hname ▸ h.ofComponent?) (by simp [Step.ofComponent?])
  · rename_i hname
    exact absurd (hname ▸ List.mem_cons_of_mem _ List.mem_cons_self) h.notMem
  · rfl

/-- What follows a slash is not part of the anchor. -/
theorem anchorLength_append_slash (before rest : List Char) :
    anchorLength (before ++ '/' :: rest) = anchorLength (before ++ ['/']) := by
  unfold anchorLength
  rcases before with _ | ⟨c, _ | ⟨d, before⟩⟩ <;> grind

theorem anchorLength_lead_append {directory : Path} {name : String} (h : IsName name) :
    anchorLength (directory.lead ++ name.toList) = anchorLength directory.lead := by
  rcases lead_eq_nil_or_ends directory with hlead | ⟨before, hlead⟩
  · rw [hlead, List.nil_append, anchorLength_of_isName h]
    rfl
  · rw [hlead, List.append_assoc, List.singleton_append, anchorLength_append_slash]

theorem anchorLength_le (chars : List Char) : anchorLength chars ≤ chars.length := by
  unfold anchorLength
  split <;> simp

/-- The last component of a text that is written backwards, in front of a slash. -/
theorem takeWhile_dropWhile_component {component before : List Char} (h : '/' ∉ component)
    (hbefore : before = [] ∨ ∃ rest, before = '/' :: rest) :
    (component ++ before).takeWhile (· != '/') = component ∧
      (component ++ before).dropWhile (· != '/') = before := by
  have hall : ∀ c ∈ component, (c != '/') = true := by
    intro c hc
    simpa using fun heq : c = '/' => h (heq ▸ hc)
  rw [List.takeWhile_append_of_pos hall, List.dropWhile_append_of_pos hall]
  rcases hbefore with rfl | ⟨rest, rfl⟩ <;> simp

/-- Names in one directory have one parent. -/
theorem parent?_join {directory : Path} {name : String} (h : IsName name) :
    (directory.join ⟨name⟩).parent? = some ⟨String.ofList
      (directory.lead.take (anchorLength directory.lead) ++ (trimEnd
        ((directory.lead.drop (anchorLength directory.lead)).reverse.drop 1)).reverse)⟩ := by
  have hlength := anchorLength_le directory.lead
  have hbefore : (directory.lead.drop (anchorLength directory.lead)).reverse = [] ∨
      ∃ rest, (directory.lead.drop (anchorLength directory.lead)).reverse = '/' :: rest := by
    have hprefix : (directory.lead.drop (anchorLength directory.lead)).reverse <+:
        directory.lead.reverse := List.reverse_prefix.2 (List.drop_suffix ..)
    rcases lead_eq_nil_or_ends directory with hlead | ⟨before, hlead⟩
    · exact Or.inl (by simp [hlead])
    · have hreverse : directory.lead.reverse = '/' :: before.reverse := by simp [hlead]
      rw [hreverse, List.prefix_cons_iff] at hprefix
      exact hprefix.imp_right (Exists.imp fun _ h => h.1)
  have hslash : '/' ∉ name.toList.reverse := by simpa using h.notMem
  obtain ⟨htake, hdrop⟩ := takeWhile_dropWhile_component hslash hbefore
  have hne : name.toList ≠ [] := h.toList_ne_nil
  have hdot : name.toList ≠ ['.'] := fun heq => by
    simpa [heq, Step.ofComponent?] using h.ofComponent?
  have hcomponent : ¬(name.toList.reverse = [] ∨ name.toList.reverse = ['.']) :=
    not_or.2 ⟨by simpa using hne, fun heq => hdot (List.reverse_eq_iff.1 heq)⟩
  rw [parent?, toList_join_of_isName h, anchorLength_lead_append h,
    List.take_append_of_le_length hlength, List.drop_append_of_le_length hlength,
    List.reverse_append, trimEnd, dif_neg (by simp [hne]), htake, if_neg hcomponent,
    if_neg (by simp [hne]), dropComponent, hdrop]

theorem parent?_join_eq {directory : Path} {name other : String} (h : IsName name)
    (hother : IsName other) :
    (directory.join ⟨name⟩).parent? = (directory.join ⟨other⟩).parent? := by
  rw [parent?_join h, parent?_join hother]

end Path

end Pedigree
