/-!
# Outcomes with a log

`Logged ε α` is a result or a failure, together with the lines logged on the way.
The lines stay when the computation fails. `Action ε σ α` also changes a state, and the
state stays as well. `outcome_bind` reduces a sequence of logged steps to a sequence of
plain ones, so the log can be left out of what is said about results. `Action.Runs` says the
same of a step that changes a state : what it comes to, and which state it leaves.
-/

namespace Pedigree

/-- How much a log line matters. -/
inductive Level where
  | debug
  | info
  | warn
deriving DecidableEq, Repr

namespace Level

/-- The name of a level. -/
def text : Level → String
  | .debug => "DEBUG"
  | .info => "INFO"
  | .warn => "WARN"

/-- The rank of a level, warnings highest. -/
def rank : Level → Nat
  | .debug => 0
  | .info => 1
  | .warn => 2

end Level

/-- A line of the log. -/
structure LogLine where
  level : Level
  message : String
deriving DecidableEq, Repr

namespace LogLine

/-- The level and the message. -/
def text (line : LogLine) : String := line.level.text ++ " " ++ line.message

end LogLine

/-- A plain sequence of steps succeeds if each of them does. -/
theorem bind_eq_ok_iff {ε α β : Type} {x : Except ε α} {f : α → Except ε β} {b : β} :
    (x >>= f) = .ok b ↔ ∃ a, x = .ok a ∧ f a = .ok b := by
  cases x with
  | error e =>
    refine ⟨fun h => (by cases h), ?_⟩
    rintro ⟨_, h, -⟩
    cases h
  | ok a =>
    refine ⟨fun h => ⟨a, rfl, h⟩, ?_⟩
    rintro ⟨_, h, hb⟩
    exact Except.ok.inj h ▸ hb

/-- A plain sequence of steps fails if one of them does. -/
theorem bind_eq_error_iff {ε α β : Type} {x : Except ε α} {f : α → Except ε β} {e : ε} :
    (x >>= f) = .error e ↔ x = .error e ∨ ∃ a, x = .ok a ∧ f a = .error e := by
  cases x with
  | error e' =>
    refine ⟨fun h => Or.inl (congrArg Except.error (Except.error.inj h)), ?_⟩
    rintro (h | ⟨_, h, -⟩)
    · exact congrArg Except.error (Except.error.inj h)
    · cases h
  | ok a =>
    refine ⟨fun h => Or.inr ⟨a, rfl, h⟩, ?_⟩
    rintro (h | ⟨_, h, hf⟩)
    · cases h
    · exact Except.ok.inj h ▸ hf

/-- A result or a failure, and what was logged before it was known. -/
structure Logged (ε α : Type) where
  outcome : Except ε α
  log : List LogLine

namespace Logged

variable {ε α β : Type}

/-- A result without log lines. -/
def done (a : α) : Logged ε α := ⟨.ok a, []⟩

/-- A failure without log lines. -/
def fail (e : ε) : Logged ε α := ⟨.error e, []⟩

/-- A plain outcome. -/
def ofExcept (outcome : Except ε α) : Logged ε α := ⟨outcome, []⟩

/-- Goes on with the result. A failure skips the rest and keeps its log. -/
def andThen (x : Logged ε α) (f : α → Logged ε β) : Logged ε β :=
  match x.outcome with
  | .error e => ⟨.error e, x.log⟩
  | .ok a => ⟨(f a).outcome, x.log ++ (f a).log⟩

instance : Monad (Logged ε) where
  pure := done
  bind := andThen

/-- Logs a line. -/
def say (level : Level) (message : String) : Logged ε Unit := ⟨.ok (), [⟨level, message⟩]⟩

@[simp] theorem outcome_pure (a : α) : (pure a : Logged ε α).outcome = .ok a := rfl

@[simp] theorem outcome_fail (e : ε) : (fail e : Logged ε α).outcome = .error e := rfl

@[simp] theorem outcome_ofExcept (x : Except ε α) : (ofExcept x).outcome = x := rfl

@[simp] theorem outcome_say (level : Level) (message : String) :
    (say level message : Logged ε Unit).outcome = .ok () := rfl

@[simp] theorem outcome_bind (x : Logged ε α) (f : α → Logged ε β) :
    (x >>= f).outcome = x.outcome >>= fun a => (f a).outcome := by
  change (x.andThen f).outcome = x.outcome.bind fun a => (f a).outcome
  unfold andThen
  split <;> rename_i h <;> simp [h, Except.bind]

/-- A sequence of steps succeeds if each of them does. -/
theorem bind_eq_ok_iff {x : Logged ε α} {f : α → Logged ε β} {b : β} :
    (x >>= f).outcome = .ok b ↔ ∃ a, x.outcome = .ok a ∧ (f a).outcome = .ok b := by
  rw [outcome_bind, Pedigree.bind_eq_ok_iff]

/-- A sequence of steps fails if one of them does. -/
theorem bind_eq_error_iff {x : Logged ε α} {f : α → Logged ε β} {e : ε} :
    (x >>= f).outcome = .error e ↔
      x.outcome = .error e ∨ ∃ a, x.outcome = .ok a ∧ (f a).outcome = .error e := by
  rw [outcome_bind, Pedigree.bind_eq_error_iff]

/-- What follows a step matters only where the step succeeds. -/
theorem bind_congr {x : Logged ε α} {f g : α → Logged ε β}
    (h : ∀ a, x.outcome = .ok a → f a = g a) : x >>= f = x >>= g := by
  change x.andThen f = x.andThen g
  unfold andThen
  split
  · rfl
  · rename_i a ha
    rw [h a ha]

/-- What stopped a computation. -/
def failure? (x : Logged ε α) : Option ε :=
  match x.outcome with
  | .error e => some e
  | .ok _ => none

theorem failure?_eq_some_iff {x : Logged ε α} {e : ε} :
    x.failure? = some e ↔ x.outcome = .error e := by
  unfold failure?
  cases x.outcome <;> simp

theorem failure?_eq_none_iff {x : Logged ε Unit} : x.failure? = none ↔ x.outcome = .ok () := by
  unfold failure?
  cases x.outcome <;> simp

/-- A sequence is stopped by its first step, or by what follows it. -/
theorem failure?_bind (x : Logged ε α) (f : α → Logged ε β) :
    (x >>= f).failure? =
      match x.outcome with
      | .error e => some e
      | .ok a => (f a).failure? := by
  unfold failure?
  rw [outcome_bind]
  cases x.outcome <;> rfl

end Logged

/-- A step that logs, may fail, and changes a state either way. -/
def Action (ε σ α : Type) : Type := σ → Logged ε α × σ

namespace Action

variable {ε σ α β : Type}

/-- A step that leaves the state alone. -/
def lift (x : Logged ε α) : Action ε σ α := fun s => (x, s)

/-- Goes on with the result and the new state. A failure keeps the state it left. -/
def andThen (x : Action ε σ α) (f : α → Action ε σ β) : Action ε σ β := fun s =>
  match x s with
  | (⟨.error e, log⟩, s) => (⟨.error e, log⟩, s)
  | (⟨.ok a, log⟩, s) =>
    match f a s with
    | (⟨outcome, more⟩, s) => (⟨outcome, log ++ more⟩, s)

instance : Monad (Action ε σ) where
  pure a := lift (.done a)
  bind := andThen

/-- Fails in the present state. -/
def fail (e : ε) : Action ε σ α := lift (.fail e)

/-- Logs a line. -/
def say (level : Level) (message : String) : Action ε σ Unit := lift (.say level message)

/-- The present state. -/
def read : Action ε σ σ := fun s => (.done s, s)

/-- Puts another state in place. -/
def write (s : σ) : Action ε σ Unit := fun _ => (.done (), s)

/-- Takes a step and goes on with its outcome, even if it failed. -/
def attempt {δ : Type} (x : Action ε σ α) : Action δ σ (Except ε α) := fun s =>
  match x s with
  | (⟨outcome, log⟩, s) => (⟨.ok outcome, log⟩, s)

/-- The step has this outcome and leaves this state, whatever it logs. -/
def Runs (x : Action ε σ α) (s : σ) (outcome : Except ε α) (s' : σ) : Prop :=
  (x s).1.outcome = outcome ∧ (x s).2 = s'

namespace Runs

variable {x : Action ε σ α} {f : α → Action ε σ β} {s s' s'' : σ}

/-- A step that does the same in this state. -/
theorem congr {y : Action ε σ α} {outcome : Except ε α} (h : x s = y s)
    (hy : Runs y s outcome s') : Runs x s outcome s' := by
  rwa [Runs, h]

theorem lift (x : Logged ε α) (s : σ) : Runs (Action.lift x) s x.outcome s := ⟨rfl, rfl⟩

theorem pure (a : α) (s : σ) : Runs (Pure.pure a : Action ε σ α) s (.ok a) s := ⟨rfl, rfl⟩

theorem fail (e : ε) (s : σ) : Runs (Action.fail e : Action ε σ α) s (.error e) s := ⟨rfl, rfl⟩

theorem say (level : Level) (message : String) (s : σ) :
    Runs (Action.say level message : Action ε σ Unit) s (.ok ()) s := ⟨rfl, rfl⟩

theorem read (s : σ) : Runs (Action.read : Action ε σ σ) s (.ok s) s := ⟨rfl, rfl⟩

theorem write (s s' : σ) : Runs (Action.write s' : Action ε σ Unit) s (.ok ()) s' := ⟨rfl, rfl⟩

/-- A sequence goes on from the state that the first step leaves. -/
theorem bind {a : α} {outcome : Except ε β} (hx : Runs x s (.ok a) s')
    (hf : Runs (f a) s' outcome s'') : Runs (x >>= f) s outcome s'' := by
  obtain ⟨houtcome, rfl⟩ := hx
  change (x.andThen f s).1.outcome = outcome ∧ (x.andThen f s).2 = s''
  rcases hstep : x s with ⟨⟨_ | a, log⟩, s'⟩
  · rw [hstep] at houtcome
    cases houtcome
  · rw [hstep] at houtcome hf
    obtain rfl := Except.ok.inj houtcome
    simpa only [Runs, andThen, hstep] using hf

/-- A failure ends a sequence. -/
theorem bind_error {e : ε} (hx : Runs x s (.error e) s') : Runs (x >>= f) s (.error e) s' := by
  obtain ⟨houtcome, rfl⟩ := hx
  change (x.andThen f s).1.outcome = .error e ∧ (x.andThen f s).2 = (x s).2
  rcases hstep : x s with ⟨⟨e' | a, log⟩, s'⟩
  · rw [hstep] at houtcome
    obtain rfl := Except.error.inj houtcome
    simp only [andThen, hstep, and_self]
  · rw [hstep] at houtcome
    cases houtcome

theorem attempt {δ : Type} {outcome : Except ε α} (hx : Runs x s outcome s') :
    Runs (x.attempt : Action δ σ (Except ε α)) s (.ok outcome) s' := by
  obtain ⟨rfl, rfl⟩ := hx
  exact ⟨rfl, rfl⟩

end Runs

end Action

end Pedigree
