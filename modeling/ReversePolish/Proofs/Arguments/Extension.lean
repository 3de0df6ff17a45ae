import ReversePolish.Proofs.Arguments.Layout

/-!
# Arguments with more behind them

Arguments are read from left to right, and what has been read once is not looked at again. A refusal
stands, whatever follows. From the first token on everything that follows is a token, also what
would have been a flag, a separator or a reason for a refusal before it.

* `parseAfter_cons_cases`: all that one argument can do, whatever stands behind it.
* `parseAfter_append_error`, `parseAfter_append_ok`: by induction, a refusal and tokens that have
  begun.
* `parse_append`: these for a whole command line, with the flag among the tokens.
-/

namespace ReversePolish.Arguments

variable {seen next a : Arguments} {arguments : List String} {refusal : Refusal}

theorem tokens_note {full : Bool} {flag : Flag} (h : seen.note full flag = .ok next) :
    next.tokens = seen.tokens := by
  rcases note_ok h with ⟨-, -, rfl⟩ | ⟨-, -, rfl⟩
  · rfl
  · rfl

theorem tokens_noteAll {flags : List Flag} (h : seen.noteAll flags = .ok next) :
    next.tokens = seen.tokens := by
  induction flags generalizing seen with
  | nil =>
    cases h
    rfl
  | cons flag flags ih =>
    obtain ⟨middle, hNote, hRest⟩ := noteAll_cons_ok h
    exact (ih hRest).trans (tokens_note hNote)

/-- An argument is refused, or it makes all that follows tokens, or it is taken note of and reading
goes on behind it. Which of these it is does not depend on what follows. -/
theorem parseAfter_cons_cases (seen : Arguments) (argument : String) :
    (∃ refusal, ∀ rest, seen.parseAfter (argument :: rest) = .error refusal) ∨
      (∃ first, ∀ rest,
        seen.parseAfter (argument :: rest) = .ok { seen with tokens := first ++ rest }) ∨
      ∃ next : Arguments, next.tokens = seen.tokens ∧
        ∀ rest, seen.parseAfter (argument :: rest) = next.parseAfter rest := by
  cases hRead : read argument with
  | separator => exact Or.inr (Or.inl ⟨[], fun rest => by rw [parseAfter, hRead]; rfl⟩)
  | token => exact Or.inr (Or.inl ⟨[argument], fun rest => by rw [parseAfter, hRead]; rfl⟩)
  | valued flag value =>
    exact Or.inl ⟨.unexpectedValue flag value, fun rest => by rw [parseAfter, hRead]⟩
  | long flag =>
    cases hNote : seen.note true flag with
    | error refusal => exact Or.inl ⟨refusal, fun rest => by simp only [parseAfter, hRead, hNote]⟩
    | ok next =>
      refine Or.inr (Or.inr ⟨next, tokens_note hNote, ?_⟩)
      intro rest
      simp only [parseAfter, hRead, hNote]
  | letters flags =>
    cases hNote : seen.noteAll flags with
    | error refusal => exact Or.inl ⟨refusal, fun rest => by simp only [parseAfter, hRead, hNote]⟩
    | ok next =>
      refine Or.inr (Or.inr ⟨next, tokens_noteAll hNote, ?_⟩)
      intro rest
      simp only [parseAfter, hRead, hNote]

theorem parseAfter_append_error (h : seen.parseAfter arguments = .error refusal)
    (more : List String) : seen.parseAfter (arguments ++ more) = .error refusal := by
  induction arguments generalizing seen with
  | nil => cases h
  | cons argument rest ih =>
    rcases parseAfter_cons_cases seen argument with ⟨_, hAll⟩ | ⟨first, hAll⟩ | ⟨next, -, hAll⟩
    · rw [hAll] at h
      rw [List.cons_append, hAll, h]
    · rw [hAll] at h
      cases h
    · rw [hAll] at h
      rw [List.cons_append, hAll]
      exact ih h

/-- Before the arguments there are no tokens, so that the tokens at their end begin among them. -/
theorem parseAfter_append_ok (h : seen.parseAfter arguments = .ok a) (hSeen : seen.tokens = [])
    (hTokens : a.tokens ≠ []) (more : List String) :
    seen.parseAfter (arguments ++ more) = .ok { a with tokens := a.tokens ++ more } := by
  induction arguments generalizing seen with
  | nil =>
    cases h
    exact absurd hSeen hTokens
  | cons argument rest ih =>
    rcases parseAfter_cons_cases seen argument with ⟨_, hAll⟩ | ⟨first, hAll⟩ | ⟨next, hNext, hAll⟩
    · rw [hAll] at h
      cases h
    · rw [hAll] at h
      cases h
      rw [List.cons_append, hAll, List.append_assoc]
    · rw [hAll] at h
      rw [List.cons_append, hAll]
      exact ih h (hNext.trans hSeen)

theorem strayFlag?_append (a : Arguments) (more : List String) :
    ({ a with tokens := a.tokens ++ more } : Arguments).strayFlag? =
      a.strayFlag?.or
        (more.find? ["-i", "--interactive", "--loose", "-h", "--help"].contains) :=
  List.find?_append

/-- **More arguments.** Arguments that are refused are refused for the same reason with any
arguments behind them. Arguments that are accepted and have a token are accepted with any arguments
behind them: the flags are the same, and the further arguments are further tokens as they stand. The
first token that is spelled like a flag is the one that was there, and otherwise the first of the
further ones. -/
theorem parse_append (arguments more : List String) :
    (∀ refusal, parse arguments = .error refusal → parse (arguments ++ more) = .error refusal) ∧
    ∀ a, parse arguments = .ok a → a.tokens ≠ [] →
      ∃ b, parse (arguments ++ more) = .ok b ∧ b.interactive = a.interactive ∧
        b.loose = a.loose ∧ b.tokens = a.tokens ++ more ∧
        b.strayFlag? = a.strayFlag?.or
          (more.find? ["-i", "--interactive", "--loose", "-h", "--help"].contains) := by
  constructor
  · intro refusal hParse
    exact parseAfter_append_error hParse more
  · intro a hParse hTokens
    exact ⟨{ a with tokens := a.tokens ++ more }, parseAfter_append_ok hParse rfl hTokens more, rfl,
      rfl, rfl, strayFlag?_append a more⟩

/-- A separator, a flag once more and an empty argument behind a token; a request for help behind a
flag that was given twice. -/
theorem parse_append_inert :
    let a : Arguments := ⟨true, false, ["-5"]⟩
    let more := ["--", "", "-x", "--interactive", "-i"]
    parse ["-i", "--", "-5"] = .ok a ∧ a.tokens ≠ [] ∧ a.strayFlag? = none ∧
      (∃ b, parse (["-i", "--", "-5"] ++ more) = .ok b ∧ b.tokens = a.tokens ++ more ∧
        b.strayFlag? = some "--interactive") ∧
      parse ["--loose", "-ii"] = .error (.repeated .interactive) ∧
      parse (["--loose", "-ii"] ++ ["--help"]) = .error (.repeated .interactive) := by
  intro a more
  have hParse : parse ["-i", "--", "-5"] = .ok a := by decide
  have hTokens : a.tokens ≠ [] := by decide
  have hStray : a.strayFlag? = none := by decide
  have hTwice : parse ["--loose", "-ii"] = .error (.repeated .interactive) := by decide
  obtain ⟨b, hMore, -, -, hSame, hFlag⟩ := (parse_append _ more).2 a hParse hTokens
  refine ⟨hParse, hTokens, hStray, ⟨b, hMore, hSame, ?_⟩, hTwice,
    (parse_append _ ["--help"]).1 _ hTwice⟩
  rw [hFlag, hStray]
  decide

end ReversePolish.Arguments
