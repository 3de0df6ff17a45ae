import ReversePolish.Program

/-!
# What the arguments ask for

The arguments alone decide what the program has to do: it refuses them, shows a help text, evaluates
the tokens or runs a session. They are refused if they cannot be read or if a flag is among the
tokens, and that comes before everything else; a session comes before the tokens.

* `Misused`, `AsksHelp`, `Evaluates`, `Converses`: the four cases, and `cases_of_arguments` that
  there is no other one.
* `Misused.task_eq`, `AsksHelp.task_eq`, `Evaluates.task_eq`, `Converses.task_eq`: the task in each
  of them.
* `exists_converses_of_task_eq`: only arguments that ask for a session lead to one.
-/

namespace ReversePolish.Program

variable {arguments : List String} {a : Arguments}

/-! ## The four cases -/

/-- The arguments cannot be read, which a request for help does not count as, or a flag is among the
tokens. -/
def Misused (arguments : List String) : Prop :=
  (∃ refusal, Arguments.parse arguments = .error refusal ∧ ∀ full, refusal ≠ .help full) ∨
    ∃ a flag, Arguments.parse arguments = .ok a ∧ a.strayFlag? = some flag

/-- The arguments are read as `a`, and no flag is among the tokens. -/
structure Accepted (arguments : List String) (a : Arguments) : Prop where
  parse_eq : Arguments.parse arguments = .ok a
  strayFlag?_eq_none : a.strayFlag? = none

/-- The arguments ask for help, or leave nothing to do. -/
def AsksHelp (arguments : List String) : Prop :=
  (∃ full, Arguments.parse arguments = .error (.help full)) ∨
    ∃ a, Accepted arguments a ∧ a.interactive = false ∧ a.tokens = []

/-- The arguments set an expression to be evaluated. -/
structure Evaluates (arguments : List String) (a : Arguments) : Prop
    extends Accepted arguments a where
  interactive_eq_false : a.interactive = false
  tokens_ne_nil : a.tokens ≠ []

/-- The arguments ask for a session. -/
structure Converses (arguments : List String) (a : Arguments) : Prop
    extends Accepted arguments a where
  interactive_eq_true : a.interactive = true

/-- All that arguments ask for. -/
theorem cases_of_arguments (arguments : List String) :
    Misused arguments ∨ AsksHelp arguments ∨ (∃ a, Evaluates arguments a) ∨
      ∃ a, Converses arguments a := by
  cases hParse : Arguments.parse arguments with
  | error refusal =>
    cases refusal with
    | help full => exact Or.inr (Or.inl (Or.inl ⟨full, hParse⟩))
    | repeated flag => exact Or.inl (Or.inl ⟨_, hParse, by simp⟩)
    | unexpectedValue flag value => exact Or.inl (Or.inl ⟨_, hParse, by simp⟩)
  | ok a =>
    cases hStray : a.strayFlag? with
    | some flag => exact Or.inl (Or.inr ⟨a, flag, hParse, hStray⟩)
    | none =>
      have hAccepted : Accepted arguments a := ⟨hParse, hStray⟩
      cases hInteractive : a.interactive with
      | true => exact Or.inr (Or.inr (Or.inr ⟨a, hAccepted, hInteractive⟩))
      | false =>
        by_cases hTokens : a.tokens = []
        · exact Or.inr (Or.inl (Or.inr ⟨a, hAccepted, hInteractive, hTokens⟩))
        · exact Or.inr (Or.inr (Or.inl ⟨a, hAccepted, hInteractive, hTokens⟩))

/-! ## The task in each case -/

theorem Misused.task_eq (h : Misused arguments) :
    ∃ message, task arguments = .answer (usageError message) := by
  rcases h with ⟨refusal, hParse, hHelp⟩ | ⟨a, flag, hParse, hStray⟩
  · rw [task, hParse]
    cases refusal with
    | help full => exact absurd rfl (hHelp full)
    | repeated flag => exact ⟨_, rfl⟩
    | unexpectedValue flag value => exact ⟨_, rfl⟩
  · rw [task, hParse]
    dsimp only
    rw [hStray]
    exact ⟨_, rfl⟩

theorem Accepted.task_eq (h : Accepted arguments a) :
    task arguments =
      if a.interactive then .session a.matching
      else if a.tokens.isEmpty then .answer ⟨0, Help.summary, ""⟩
      else .expression a.matching (Text.spaced a.tokens) := by
  rw [task, h.parse_eq]
  dsimp only
  rw [h.strayFlag?_eq_none]

theorem AsksHelp.task_eq (h : AsksHelp arguments) :
    task arguments = .answer ⟨0, Help.summary, ""⟩ ∨
      task arguments = .answer ⟨0, Help.full, ""⟩ := by
  rcases h with ⟨full, hParse⟩ | ⟨a, hAccepted, hInteractive, hTokens⟩
  · rw [task, hParse]
    cases full with
    | false => exact Or.inl rfl
    | true => exact Or.inr rfl
  · rw [hAccepted.task_eq, hInteractive, hTokens]
    exact Or.inl rfl

theorem Evaluates.task_eq (h : Evaluates arguments a) :
    task arguments = .expression a.matching (Text.spaced a.tokens) := by
  have hTokens : a.tokens.isEmpty = false := by simpa using h.tokens_ne_nil
  rw [h.toAccepted.task_eq, h.interactive_eq_false, hTokens]
  rfl

theorem Converses.task_eq (h : Converses arguments a) :
    task arguments = .session a.matching := by
  rw [h.toAccepted.task_eq, h.interactive_eq_true]
  rfl

theorem exists_converses_of_task_eq {m : Matching} (h : task arguments = .session m) :
    ∃ a, Converses arguments a ∧ a.matching = m := by
  rcases cases_of_arguments arguments with hMisused | hHelp | ⟨a, hEvaluates⟩ | ⟨a, hConverses⟩
  · obtain ⟨message, hTask⟩ := hMisused.task_eq
    rw [hTask] at h
    cases h
  · rcases hHelp.task_eq with hTask | hTask
    · rw [hTask] at h
      cases h
    · rw [hTask] at h
      cases h
  · rw [hEvaluates.task_eq] at h
    cases h
  · rw [hConverses.task_eq] at h
    exact ⟨a, hConverses, Task.session.inj h⟩

end ReversePolish.Program
