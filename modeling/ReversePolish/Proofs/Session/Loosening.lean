import ReversePolish.Proofs.Arguments.Layout
import ReversePolish.Proofs.Evaluator.Loosening
import ReversePolish.Proofs.Program.Task

/-!
# The flag for loose matching

A session that does not end at a token with an operator symbol in it is the same with loose
matching: it shows the same stacks, ends in the same way and leaves the same stack. On the command
line this is one more flag, `--loose`, in front of arguments that do not have it.

* `step_loose`, `run_loose`: one event, and by induction on the events a whole session.
* `parseAfter_loose`: the other arguments are read as before behind one more flag.
* `run_loose_conservative`: what loose matching keeps, for expressions, for sessions and for the
  program.
-/

namespace ReversePolish

/-! ## Sessions -/

namespace Session

open Evaluator (loosened feedAll feedAll_run_loose feedAll_run_matching result_run_loosened)

def Report.loosened (r : Report) : Report := { r with evaluator := r.evaluator.loosened }

def Progress.loosened : Progress → Progress
  | .goesOn next => .goesOn next.loosened
  | .ends ending left => .ends ending left.loosened

/-- If the session ends at an unknown token, no symbol occurs in it. -/
def Ending.Plain (ending : Ending) : Prop :=
  ∀ token, ending = .fault (.unknownOperator token) → ¬ Token.HasSymbol token

theorem finish_loose (s : Stack) :
    finish ⟨.loose, s⟩ = ((finish ⟨.exact, s⟩).1, (finish ⟨.exact, s⟩).2.loosened) := by
  have hResult := result_run_loosened ⟨.exact, s⟩
  rw [loosened] at hResult
  rw [finish, finish, hResult]
  cases Evaluator.result.run ⟨.exact, s⟩ <;> rfl

theorem ends_finish_loose (s : Stack) :
    Progress.ends (finish ⟨.loose, s⟩).1 (finish ⟨.loose, s⟩).2 =
      (Progress.ends (finish ⟨.exact, s⟩).1 (finish ⟨.exact, s⟩).2).loosened := by
  rw [finish_loose]
  rfl

theorem step_loose {values : List Binary64} {event : Event}
    (h : ∀ ending left, step ⟨.exact, ⟨values⟩⟩ event = .ends ending left → ending.Plain) :
    step ⟨.loose, ⟨values⟩⟩ event = (step ⟨.exact, ⟨values⟩⟩ event).loosened := by
  cases event with
  | line text =>
    cases hBlank : Text.isBlankLine text with
    | true =>
      rw [step_blank _ hBlank, step_blank _ hBlank]
      exact ends_finish_loose _
    | false =>
      rw [step_line _ hBlank] at h
      have hWords : Evaluator.Plain ((feedAll (Text.words text)).run ⟨.exact, ⟨values⟩⟩) := by
        intro token left hUnknown
        rw [hUnknown] at h
        exact h _ left rfl token rfl
      rw [step_line _ hBlank, step_line _ hBlank, feedAll_run_loose hWords]
      cases (feedAll (Text.words text)).run ⟨.exact, ⟨values⟩⟩ <;> rfl
  | endOfInput => exact ends_finish_loose _
  | interrupted => rfl
  | failure message => rfl

theorem step_matching {m : Matching} {values : List Binary64} {event : Event} {next : Evaluator}
    (h : step ⟨m, ⟨values⟩⟩ event = .goesOn next) : ∃ left, next = ⟨m, ⟨left⟩⟩ := by
  cases event with
  | line text =>
    cases hBlank : Text.isBlankLine text with
    | true =>
      rw [step_blank _ hBlank] at h
      cases h
    | false =>
      rw [step_line _ hBlank] at h
      cases hWords : (feedAll (Text.words text)).run ⟨m, ⟨values⟩⟩ with
      | ok _ final =>
        rw [hWords] at h
        cases h
        exact feedAll_run_matching hWords
      | error fault left =>
        rw [hWords] at h
        cases h
  | endOfInput => cases h
  | interrupted => cases h
  | failure message => cases h

theorem run_loose {values : List Binary64} {events : List Event}
    (h : (run ⟨.exact, ⟨values⟩⟩ events).ending.Plain) :
    run ⟨.loose, ⟨values⟩⟩ events = (run ⟨.exact, ⟨values⟩⟩ events).loosened := by
  induction events generalizing values with
  | nil =>
    rw [run, run, finish_loose]
    rfl
  | cons event events ih =>
    rw [run] at h
    have hStep : step ⟨.loose, ⟨values⟩⟩ event = (step ⟨.exact, ⟨values⟩⟩ event).loosened := by
      apply step_loose
      intro ending left hEnds
      rwa [hEnds] at h
    rw [run, run, hStep]
    cases hCase : step ⟨.exact, ⟨values⟩⟩ event with
    | ends ending left => rfl
    | goesOn next =>
      obtain ⟨left, rfl⟩ := step_matching hCase
      rw [hCase] at h
      have hLater := ih h
      dsimp only [Progress.loosened, loosened]
      rw [hLater]
      rfl

end Session

/-! ## Arguments -/

namespace Arguments

def loosened (a : Arguments) : Arguments := { a with loose := true }

theorem parseAfter_loose {arguments : List String} {seen a : Arguments}
    (h : seen.parseAfter arguments = .ok a) (hLoose : a.loose = false) :
    seen.loose = false ∧ seen.loosened.parseAfter arguments = .ok a.loosened := by
  -- no flag is ever taken back: the one that is missing at the end is missing all along
  induction arguments generalizing seen with
  | nil =>
    cases h
    exact ⟨hLoose, rfl⟩
  | cons argument rest ih =>
    rcases parseAfter_cons_ok h with ⟨rfl, rfl⟩ | ⟨hRead, rfl⟩ | ⟨hFlag, hFirst, hRest⟩ |
      ⟨-, -, hRest⟩
    · exact ⟨hLoose, parseAfter_cons_separator seen.loosened rest⟩
    · refine ⟨hLoose, ?_⟩
      rw [parseAfter, hRead]
      rfl
    · obtain ⟨hSeen, hLater⟩ := ih hRest
      have hFirst' : seen.loosened.interactive = false := hFirst
      exact ⟨hSeen, (parseAfter_cons_interactive hFlag hFirst' rest).trans hLater⟩
    · cases (ih hRest).1

theorem parse_loose {arguments : List String} {a : Arguments} (h : parse arguments = .ok a)
    (hLoose : a.loose = false) : parse ("--loose" :: arguments) = .ok a.loosened := by
  rw [parse, parseAfter_cons_loose rfl]
  exact (parseAfter_loose h hLoose).2

end Arguments

/-! ## The program -/

namespace Program

theorem task_loose {arguments : List String} (h : task arguments = .session .exact) :
    task ("--loose" :: arguments) = .session .loose := by
  obtain ⟨a, hConverses, hMatching⟩ := exists_converses_of_task_eq h
  have hLoose : a.loose = false := by
    cases hFlag : a.loose with
    | false => rfl
    | true => simp [Arguments.matching, hFlag] at hMatching
  have hLoosened : Converses ("--loose" :: arguments) a.loosened :=
    ⟨⟨Arguments.parse_loose hConverses.parse_eq hLoose, hConverses.strayFlag?_eq_none⟩,
      hConverses.interactive_eq_true⟩
  rw [hLoosened.task_eq]
  rfl

/-- The flag makes no difference to a session without symbols, whichever editor reads its lines. -/
theorem runWith_loose {editor : Text.LineEditor} {arguments : List String} {input : String}
    (hTask : task arguments = .session .exact)
    (hPlain : (Session.run (.fresh .exact) (eventsWith editor input)).ending.Plain) :
    runWith editor ("--loose" :: arguments) input = runWith editor arguments input := by
  have hSession : Session.run (.fresh .loose) (eventsWith editor input) = _ :=
    Session.run_loose hPlain
  rw [runWith, runWith, hTask, task_loose hTask]
  dsimp only
  rw [hSession]
  rfl

open Evaluator (expression expression_run_loose loosened loosenedResult)

/-- **Loose matching extends exact matching.** From every stack, an expression that does not fail at
an unknown operator has the same result with loose matching and leaves the same stack; if it fails
at one, either the token matches no symbol loosely and the same holds, or a symbol occurs in it. A
session that does not end at a token with a symbol in it shows the same, ends in the same way and
leaves the same stack, and for the program the flag changes nothing that is written nor the exit
code. -/
theorem run_loose_conservative (s : Stack) :
    (∀ text, match (expression text).run ⟨.exact, s⟩ with
      | .error (.unknownOperator token) left =>
        (Operator.lookup? .loose token = none ∧
          (expression text).run ⟨.loose, s⟩ = .error (.unknownOperator token) left.loosened) ∨
        Token.HasSymbol token
      | .error fault left => (expression text).run ⟨.loose, s⟩ = .error fault left.loosened
      | .ok x left => (expression text).run ⟨.loose, s⟩ = .ok x left.loosened) ∧
    (∀ events, (Session.run ⟨.exact, s⟩ events).ending.Plain →
      Session.run ⟨.loose, s⟩ events = (Session.run ⟨.exact, s⟩ events).loosened) ∧
    ∀ arguments input, task arguments = .session .exact →
      (Session.run (.fresh .exact) (events input)).ending.Plain →
        run ("--loose" :: arguments) input = run arguments input := by
  obtain ⟨values⟩ := s
  refine ⟨?_, fun _ => Session.run_loose, ?_⟩
  · intro text
    by_cases hPlain : Evaluator.Plain ((expression text).run ⟨.exact, ⟨values⟩⟩)
    · have hLoose := expression_run_loose hPlain
      cases hRun : (expression text).run ⟨.exact, ⟨values⟩⟩ with
      | ok x left => exact hLoose.trans (congrArg loosenedResult hRun)
      | error fault left =>
        rw [hRun] at hLoose
        cases fault with
        | tooFewOperands => exact hLoose
        | tooManyOperands => exact hLoose
        | unknownOperator token =>
          have hNone := Operator.lookup?_loose_eq_none_iff.mpr (hPlain token left hRun)
          exact Or.inl ⟨hNone, hLoose⟩
    · simp only [Evaluator.Plain, not_forall, not_not] at hPlain
      obtain ⟨token, left, hRun, hSymbol⟩ := hPlain
      rw [hRun]
      exact Or.inr hSymbol
  · intro arguments input hTask hPlain
    exact runWith_loose hTask hPlain

/-- Numerals with the symbols of operators in them, on a stack that is not empty and up to a token
that is unknown either way, and through the program. -/
theorem run_loose_conservative_signs :
    let s : Stack := .ofList [⟨true, 0, by decide⟩]
    let lines : List Session.Event := [.line "-5 +12", .line "* 1e-3", .line "x"]
    (Session.run ⟨.exact, s⟩ lines).ending = .fault (.unknownOperator "x") ∧
      Session.run ⟨.loose, s⟩ lines = (Session.run ⟨.exact, s⟩ lines).loosened ∧
      (Session.run (.fresh .exact) (events "-5 1e-3\n*\n")).ending.status = 0 ∧
      run ["--loose", "-i"] "-5 1e-3\n*\n" = run ["-i"] "-5 1e-3\n*\n" := by
  intro s lines
  obtain ⟨-, hSession, hProgram⟩ := run_loose_conservative s
  have hEnding : (Session.run ⟨.exact, s⟩ lines).ending = .fault (.unknownOperator "x") := by
    decide +kernel
  have hPlain : (Session.run ⟨.exact, s⟩ lines).ending.Plain := by
    rw [hEnding]
    rintro _ ⟨⟩
    decide
  have hStatus : (Session.run (.fresh .exact) (events "-5 1e-3\n*\n")).ending.status = 0 := by
    decide +kernel
  have hPlain' : (Session.run (.fresh .exact) (events "-5 1e-3\n*\n")).ending.Plain := by
    intro token hFault
    rw [hFault] at hStatus
    cases hStatus
  exact ⟨hEnding, hSession lines hPlain, hStatus, hProgram ["-i"] _ (by decide) hPlain'⟩

end Program

end ReversePolish
