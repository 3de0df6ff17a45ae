import ReversePolish.Program
import ReversePolish.Proofs.Evaluator.Run
import ReversePolish.Proofs.Text.Pieces

/-!
# A session agrees with an expression

A session reads lines up to the first that is blank, and feeds their words. Only the words matter:
the session ends like the expression in which all of them stand in one row with single spaces
between them. This holds from every state of the evaluator, for every way of distributing the words
over lines, and at whichever word a failure occurs.

* `opening`, `afterOpening`: the lines that a session reads, and the events behind them.
* `outcome_run_line`, `outcome_run_lines`: a line is a run over its words, and by induction on the
  lines the runs of all of them are one run; `outcome_run` says so of the lines of a session.
* `run_agrees`: the agreement, and what follows for two sessions with the same words.
-/

namespace ReversePolish.Session

open Evaluator (feedAll expression feedAll_append_run expression_run)

/-! ## The lines of a session -/

/-- The longest series of lines at the beginning that are not blank. -/
def opening : List Event → List String
  | .line text :: events => if Text.isBlankLine text then [] else text :: opening events
  | _ => []

/-- The events from the first that is no such line. -/
def afterOpening : List Event → List Event
  | .line text :: events =>
    if Text.isBlankLine text then .line text :: events else afterOpening events
  | events => events

/-- The next event is a blank line or the end of the input, or there is none. -/
def Closing : List Event → Prop
  | [] => True
  | .line text :: _ => Text.isBlankLine text = true
  | .endOfInput :: _ => True
  | .interrupted :: _ => False
  | .failure _ :: _ => False

/-- At least one line is read, and the input is closed by its end or by a blank line. -/
structure Closed (events : List Event) : Prop where
  opening_ne_nil : opening events ≠ []
  closing : Closing (afterOpening events)

/-- The words of all lines that are read. -/
def tokens (events : List Event) : List String := (opening events).flatMap Text.words

/-- The opening lines and what is behind them make up all events. -/
theorem map_opening_append (events : List Event) :
    (opening events).map .line ++ afterOpening events = events := by
  induction events with
  | nil => rfl
  | cons event events ih =>
    cases event with
    | line text =>
      by_cases hBlank : Text.isBlankLine text = true
      · simp [opening, afterOpening, hBlank]
      · simp [opening, afterOpening, hBlank, ih]
    | endOfInput => rfl
    | interrupted => rfl
    | failure message => rfl

theorem isBlankLine_of_mem_opening {events : List Event} :
    ∀ text ∈ opening events, Text.isBlankLine text = false := by
  induction events with
  | nil => simp [opening]
  | cons event events ih =>
    cases event with
    | line text =>
      by_cases hBlank : Text.isBlankLine text = true
      · simp [opening, hBlank]
      · simpa [opening, hBlank] using ih
    | endOfInput => simp [opening]
    | interrupted => simp [opening]
    | failure message => simp [opening]

theorem Closed.tokens_ne_nil {events : List Event} (h : Closed events) : tokens events ≠ [] := by
  obtain ⟨text, lines, hOpening⟩ := List.exists_cons_of_ne_nil h.opening_ne_nil
  have hMem : text ∈ opening events := by simp [hOpening]
  have hBlank := isBlankLine_of_mem_opening text hMem
  intro hNil
  have hWords : Text.words text = [] := List.flatMap_eq_nil_iff.mp hNil text hMem
  rw [(Text.words_eq_nil_iff text).mp hWords] at hBlank
  cases hBlank

/-- Cutting the joined words at spaces yields the words again. -/
theorem Closed.pieces_spaced_tokens {events : List Event} (h : Closed events) :
    Text.pieces (Text.spaced (tokens events)) = tokens events := by
  apply Text.pieces_spaced h.tokens_ne_nil
  intro word hWord
  obtain ⟨text, -, hWord⟩ := List.mem_flatMap.mp hWord
  exact Text.space_not_mem_of_mem_words hWord

/-! ## Endings -/

/-- How a session ended, and the evaluator that it left. -/
def Report.outcome (r : Report) : Ending × Evaluator := (r.ending, r.evaluator)

/-- The ending of a session for what a calculation of a value yields. -/
def endingOf : EStateM.Result EvalError Evaluator Binary64 → Ending × Evaluator
  | .ok x left => (.value x, left)
  | .error fault left => (.fault fault, left)

theorem finish_eq (e : Evaluator) : finish e = endingOf (Evaluator.result.run e) := by
  unfold finish
  cases Evaluator.result.run e <;> rfl

/-- A line that is not blank is a run over its words. -/
theorem outcome_run_line (e : Evaluator) {text : String} (events : List Event)
    (hBlank : Text.isBlankLine text = false) :
    (run e (.line text :: events)).outcome =
      match (feedAll (Text.words text)).run e with
      | .ok _ next => (run next events).outcome
      | .error fault left => (.fault fault, left) := by
  rw [run, step_line e hBlank]
  cases (feedAll (Text.words text)).run e <;> rfl

theorem outcome_run_closing (e : Evaluator) {events : List Event} (h : Closing events) :
    (run e events).outcome = finish e := by
  cases events with
  | nil => rfl
  | cons event events =>
    cases event with
    | line text =>
      have hBlank : Text.isBlankLine text = true := h
      rw [run, step_blank e hBlank]
      rfl
    | endOfInput => rfl
    | interrupted => exact h.elim
    | failure message => exact h.elim

/-- The runs over the lines are one run over all their words. -/
theorem outcome_run_lines (e : Evaluator) {lines : List String} {events : List Event}
    (hBlank : ∀ text ∈ lines, Text.isBlankLine text = false) :
    (run e (lines.map .line ++ events)).outcome =
      match (feedAll (lines.flatMap Text.words)).run e with
      | .ok _ next => (run next events).outcome
      | .error fault left => (.fault fault, left) := by
  induction lines generalizing e with
  | nil => rfl
  | cons text lines ih =>
    have hLines : ∀ t ∈ lines, Text.isBlankLine t = false :=
      fun t ht => hBlank t (List.mem_cons_of_mem _ ht)
    rw [List.map_cons, List.cons_append, outcome_run_line e _ (hBlank text (by simp)),
      List.flatMap_cons, feedAll_append_run]
    cases (feedAll (Text.words text)).run e with
    | ok _ next => exact ih next hLines
    | error fault left => rfl

/-- A session is the run of the words of its lines, and then what the event behind them does. -/
theorem outcome_run (e : Evaluator) (events : List Event) :
    (run e events).outcome =
      match (feedAll (tokens events)).run e with
      | .ok _ next => (run next (afterOpening events)).outcome
      | .error fault left => (.fault fault, left) := by
  have hLines : (run e ((opening events).map .line ++ afterOpening events)).outcome = _ :=
    outcome_run_lines e isBlankLine_of_mem_opening
  rwa [map_opening_append] at hLines

/-- A session that is closed ends like the expression of its words. -/
theorem Closed.outcome_run {events : List Event} (h : Closed events) (e : Evaluator) :
    (run e events).outcome = endingOf ((expression (Text.spaced (tokens events))).run e) := by
  rw [Session.outcome_run, expression_run, h.pieces_spaced_tokens]
  cases (feedAll (tokens events)).run e with
  | ok _ next => exact (outcome_run_closing next h.closing).trans (finish_eq next)
  | error fault left => rfl

/-! ## What is printed last -/

/-- The text is empty or ends a line. -/
def EndsLine (text : String) : Prop := text = "" ∨ ∃ front, text = front ++ "\n"

theorem endsLine_join_block (shown : List Stack) : EndsLine (String.join (shown.map block)) := by
  rcases List.eq_nil_or_concat shown with rfl | ⟨front, last, rfl⟩
  · exact Or.inl (by simp)
  · refine Or.inr ⟨String.join (front.map block) ++ last.display, ?_⟩
    simp [block, String.append_assoc]

/-- The session ends with the exit code of the other outcome, and what that prints stands last, on a
line of its own. -/
structure PrintsLast (r : Report) (o : Program.Outcome) : Prop where
  status_eq : r.ending.status = o.exitCode
  last : ∃ before, EndsLine before ∧ r.transcript = before ++ o.output

theorem printsLast_value {r : Report} {x : Binary64} (h : r.ending = .value x) :
    PrintsLast r (Program.reportValue (.ok x)) := by
  refine ⟨by rw [h]; rfl, String.join (r.shown.map block) ++ "\n", Or.inr ⟨_, rfl⟩, ?_⟩
  rw [Report.transcript, h]
  simp [Ending.shown, Program.reportValue, String.append_assoc]

theorem printsLast_fault {r : Report} {fault : EvalError} (h : r.ending = .fault fault) :
    PrintsLast r (Program.reportValue (.error fault)) := by
  refine ⟨by rw [h]; rfl, String.join (r.shown.map block), endsLine_join_block r.shown, ?_⟩
  rw [Report.transcript, h]
  rfl

/-- **A session agrees with an expression.** A session that is closed and the expression of its
words, started from the same evaluator, have the same value or the same failure, exit with the same
status, print the value or the message last and leave the same evaluator. Hence two sessions with
the same words end alike, however the words are distributed over lines. -/
theorem run_agrees (e : Evaluator) {events : List Event} (h : Closed events) :
    (match (expression (Text.spaced (tokens events))).run e with
      | .ok x left =>
        (run e events).ending = .value x ∧ (run e events).evaluator = left ∧
          PrintsLast (run e events) (Program.reportValue (.ok x))
      | .error fault left =>
        (run e events).ending = .fault fault ∧ (run e events).evaluator = left ∧
          PrintsLast (run e events) (Program.reportValue (.error fault))) ∧
    ∀ events', Closed events' → tokens events' = tokens events →
      (run e events').outcome = (run e events).outcome := by
  have hOutcome := h.outcome_run e
  constructor
  · cases hRun : (expression (Text.spaced (tokens events))).run e with
    | ok x left =>
      rw [hRun] at hOutcome
      obtain ⟨hEnding, hLeft⟩ := Prod.mk.inj hOutcome
      exact ⟨hEnding, hLeft, printsLast_value hEnding⟩
    | error fault left =>
      rw [hRun] at hOutcome
      obtain ⟨hEnding, hLeft⟩ := Prod.mk.inj hOutcome
      exact ⟨hEnding, hLeft, printsLast_fault hEnding⟩
  · intro events' h' hTokens
    rw [h'.outcome_run e, hTokens, hOutcome]

/-- The same words with a tab and two lines, and with an ideographic space and the end of input. -/
theorem run_agrees_two_layouts :
    Closed [.line "2\t3", .line " + ", .line ""] ∧
      Closed [.line "2", .line "3\u3000+", .endOfInput] ∧
      (run (.fresh .exact) [.line "2", .line "3\u3000+", .endOfInput]).outcome =
        (run (.fresh .exact) [.line "2\t3", .line " + ", .line ""]).outcome := by
  have hTab : Closed [.line "2\t3", .line " + ", .line ""] :=
    ⟨by decide +kernel, show Text.isBlankLine "" = true by decide +kernel⟩
  have hWide : Closed [.line "2", .line "3\u3000+", .endOfInput] :=
    ⟨by decide +kernel, trivial⟩
  exact ⟨hTab, hWide, (run_agrees (.fresh .exact) hTab).2 _ hWide (by decide +kernel)⟩

end ReversePolish.Session
