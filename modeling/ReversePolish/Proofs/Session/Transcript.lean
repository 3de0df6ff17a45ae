import Mathlib.Data.List.Infix
import ReversePolish.Proofs.Evaluator.Failure
import ReversePolish.Proofs.Session.Agreement
import ReversePolish.Proofs.Stack.Display
import ReversePolish.Proofs.Text.Lines

/-!
# The transcript of a session

A session shows the stack after every line whose words are all accepted, and then how it ends: an
empty line and the value, a message, or nothing. A stack that is shown is never empty, because a line
that is not blank has a word and an accepted word leaves an operand. So none of its lines is empty
either, and the empty line stands in front of the value and nowhere else.

* `stacksAfter`, `shown_run`: the stacks that are shown are those after each beginning of the lines
  that are read, by induction on the events.
* `conclusion`, `shown_ending`: what is shown at the end is decided by the words of all lines and by
  what is behind the lines.
* `transcript_eq_unlines`: the lines of the whole transcript.
* `transcript_exact`: all of these, and where the empty line is.
-/

namespace ReversePolish

theorem EvalError.newline_not_mem_message (fault : EvalError) : '\n' ∉ fault.message.toList := by
  cases fault
  all_goals
    rw [message]
    decide

theorem EvalError.message_ne_empty (fault : EvalError) : fault.message ≠ "" := by
  cases fault
  all_goals
    rw [message]
    decide

namespace Session

open Evaluator (feedAll fresh result feedAll_append_run feedAll_run_ne_empty result_run_ok)
open Help (unlines)
open Text (endedLines)

/-! ## The stacks that are shown -/

/-- The stack after some lines, if all their words are accepted. -/
def stackAfter? (e : Evaluator) (lines : List String) : Option Stack :=
  match (feedAll (lines.flatMap Text.words)).run e with
  | .ok _ next => some next.stack
  | .error _ _ => none

/-- The stacks after the lines, one for each line as long as all words are accepted. -/
def stacksAfter (e : Evaluator) (lines : List String) : List Stack :=
  lines.inits.tail.filterMap (stackAfter? e)

theorem stackAfter?_cons (e : Evaluator) (text : String) (lines : List String) :
    stackAfter? e (text :: lines) =
      match (feedAll (Text.words text)).run e with
      | .ok _ next => stackAfter? next lines
      | .error _ _ => none := by
  rw [stackAfter?, List.flatMap_cons, feedAll_append_run]
  cases (feedAll (Text.words text)).run e <;> rfl

theorem stacksAfter_cons (e : Evaluator) (text : String) (lines : List String) :
    stacksAfter e (text :: lines) =
      match (feedAll (Text.words text)).run e with
      | .ok _ next => next.stack :: stacksAfter next lines
      | .error _ _ => [] := by
  have hInits : lines.inits = [] :: lines.inits.tail := by
    cases lines with
    | nil => rfl
    | cons line lines => simp
  rw [stacksAfter, List.inits_cons, List.tail_cons, List.filterMap_map]
  cases hRun : (feedAll (Text.words text)).run e with
  | ok _ next =>
    have hNext : stackAfter? e ∘ (text :: ·) = stackAfter? next := by
      funext rest
      rw [Function.comp_apply, stackAfter?_cons, hRun]
    rw [hNext, hInits]
    rfl
  | error fault left =>
    have hNext : stackAfter? e ∘ (text :: ·) = fun _ => none := by
      funext rest
      rw [Function.comp_apply, stackAfter?_cons, hRun]
    rw [hNext]
    simp

theorem shown_run (e : Evaluator) (events : List Event) :
    (run e events).shown = stacksAfter e (opening events) := by
  induction events generalizing e with
  | nil => rfl
  | cons event events ih =>
    cases event with
    | line text =>
      cases hBlank : Text.isBlankLine text with
      | true =>
        rw [run, step_blank e hBlank, opening, if_pos hBlank]
        rfl
      | false =>
        have hOpening : opening (.line text :: events) = text :: opening events := by
          simp [opening, hBlank]
        rw [run, step_line e hBlank, hOpening, stacksAfter_cons]
        cases (feedAll (Text.words text)).run e with
        | ok _ next =>
          dsimp only
          rw [ih]
        | error fault left => rfl
    | endOfInput => rfl
    | interrupted => rfl
    | failure message => rfl

/-- A stack that is shown is not empty. -/
theorem ne_empty_of_mem_stacksAfter {e : Evaluator} {lines : List String}
    (hBlank : ∀ text ∈ lines, Text.isBlankLine text = false) :
    ∀ s ∈ stacksAfter e lines, s ≠ .empty := by
  induction lines generalizing e with
  | nil => simp [stacksAfter]
  | cons text lines ih =>
    rw [stacksAfter_cons]
    cases hRun : (feedAll (Text.words text)).run e with
    | error fault left => simp
    | ok _ next =>
      have hWords : Text.words text ≠ [] := by
        rw [Ne, Text.words_eq_nil_iff, hBlank text List.mem_cons_self]
        simp
      intro s hs
      rcases List.mem_cons.mp hs with rfl | hLater
      · exact feedAll_run_ne_empty hWords hRun
      · exact ih (fun t ht => hBlank t (List.mem_cons_of_mem text ht)) s hLater

/-- If all words of some lines are accepted, the last stack is the one after all of them. -/
theorem exists_stacksAfter_eq {e : Evaluator} {lines : List String} {s : Stack} (hNil : lines ≠ [])
    (h : stackAfter? e lines = some s) : ∃ earlier, stacksAfter e lines = earlier ++ [s] := by
  induction lines generalizing e with
  | nil => exact absurd rfl hNil
  | cons text lines ih =>
    rw [stackAfter?_cons] at h
    rw [stacksAfter_cons]
    cases hRun : (feedAll (Text.words text)).run e with
    | error fault left => simp [hRun] at h
    | ok _ next =>
      rw [hRun] at h
      by_cases hLast : lines = []
      · subst hLast
        cases h
        exact ⟨[], rfl⟩
      · obtain ⟨earlier, hEarlier⟩ := ih hLast h
        exact ⟨next.stack :: earlier, congrArg (next.stack :: ·) hEarlier⟩

/-! ## What is shown at the end -/

/-- What is shown behind the stacks. The first word that fails is reported; if there is none, it
depends on the event behind the lines whether the result is taken. -/
def conclusion (e : Evaluator) (events : List Event) : String :=
  match (feedAll (tokens events)).run e with
  | .error fault _ => fault.message ++ "\n"
  | .ok _ next =>
    match afterOpening events with
    | .interrupted :: _ => ""
    | .failure _ :: _ => ""
    | _ =>
      match result.run next with
      | .ok x _ => "\n" ++ x.text ++ "\n"
      | .error fault _ => fault.message ++ "\n"

theorem isBlankLine_of_afterOpening {events rest : List Event} {text : String}
    (h : afterOpening events = .line text :: rest) : Text.isBlankLine text = true := by
  induction events with
  | nil => cases h
  | cons event events ih =>
    cases event with
    | line other =>
      by_cases hBlank : Text.isBlankLine other = true
      · rw [afterOpening, if_pos hBlank] at h
        cases h
        exact hBlank
      · rw [afterOpening, if_neg hBlank] at h
        exact ih h
    | endOfInput => cases h
    | interrupted => cases h
    | failure message => cases h

/-- Behind the lines the result is taken, unless reading was broken off. -/
theorem ending_run_afterOpening (e : Evaluator) (events : List Event) :
    (run e (afterOpening events)).ending =
      match afterOpening events with
      | .interrupted :: _ => .interrupted
      | .failure message :: _ => .failure message
      | _ => (finish e).1 := by
  cases hAfter : afterOpening events with
  | nil => rfl
  | cons event rest =>
    cases event with
    | line text =>
      rw [run, step_blank e (isBlankLine_of_afterOpening hAfter)]
    | endOfInput => rfl
    | interrupted => rfl
    | failure message => rfl

theorem shown_finish (e : Evaluator) :
    (finish e).1.shown =
      match result.run e with
      | .ok x _ => "\n" ++ x.text ++ "\n"
      | .error fault _ => fault.message ++ "\n" := by
  rw [finish]
  cases result.run e <;> rfl

theorem shown_ending (e : Evaluator) (events : List Event) :
    (run e events).ending.shown = conclusion e events := by
  have hOutcome := outcome_run e events
  rw [conclusion]
  cases hRun : (feedAll (tokens events)).run e with
  | error fault left =>
    rw [hRun] at hOutcome
    rw [(Prod.mk.inj hOutcome).1]
    rfl
  | ok _ next =>
    rw [hRun] at hOutcome
    have hEnding : (run e events).ending = (run next (afterOpening events)).ending :=
      (Prod.mk.inj hOutcome).1
    rw [hEnding, ending_run_afterOpening]
    dsimp only
    split
    · rfl
    · rfl
    · exact shown_finish next

/-! ## The lines of a transcript -/

def Ending.lines : Ending → List String
  | .value x => ["", x.text]
  | .fault error => [error.message]
  | .interrupted => []
  | .failure _ => []

/-- The texts of all operands of the stacks, from bottom to top. -/
def texts (shown : List Stack) : List String := shown.flatMap (fun s => s.toList.map Binary64.text)

def Report.lines (r : Report) : List String := texts r.shown ++ r.ending.lines

theorem Ending.shown_eq (ending : Ending) : ending.shown = unlines ending.lines := by
  cases ending with
  | value x => simp [shown, lines, unlines, String.append_assoc]
  | fault error => simp [shown, lines, unlines]
  | interrupted => rfl
  | failure message => rfl

theorem newline_not_mem_texts {shown : List Stack} : ∀ l ∈ texts shown, '\n' ∉ l.toList := by
  intro l hl
  obtain ⟨s, -, hText⟩ := List.mem_flatMap.mp hl
  obtain ⟨x, -, rfl⟩ := List.mem_map.mp hText
  exact x.newline_not_mem_text

theorem empty_not_mem_texts (shown : List Stack) : "" ∉ texts shown := by
  intro hMem
  obtain ⟨s, -, hText⟩ := List.mem_flatMap.mp hMem
  obtain ⟨x, -, hEmpty⟩ := List.mem_map.mp hText
  exact x.text_ne_empty hEmpty

theorem block_eq {s : Stack} (h : s ≠ .empty) : block s = unlines (texts [s]) := by
  rw [texts, List.flatMap_singleton, block, Stack.display, Text.intercalate_append_newline]
  simpa using Stack.toList_ne_nil h

theorem join_block {shown : List Stack} (h : ∀ s ∈ shown, s ≠ .empty) :
    String.join (shown.map block) = unlines (texts shown) := by
  induction shown with
  | nil => rfl
  | cons s shown ih =>
    have hText : texts (s :: shown) = texts [s] ++ texts shown := by
      simp [texts]
    rw [List.map_cons, String.join_cons, hText, Text.unlines_append,
      block_eq (h s List.mem_cons_self), ih (fun t ht => h t (List.mem_cons_of_mem s ht))]

theorem endedLines_block {s : Stack} (h : s ≠ .empty) : endedLines (block s) = texts [s] := by
  rw [block_eq h, Text.endedLines_unlines newline_not_mem_texts]

/-- A stack that is not empty is displayed, and none of its lines is empty. -/
theorem display_ne_empty {s : Stack} (h : s ≠ .empty) :
    s.display ≠ "" ∧ "" ∉ endedLines (block s) := by
  have hLines : "" ∉ endedLines (block s) := endedLines_block h ▸ empty_not_mem_texts [s]
  refine ⟨?_, hLines⟩
  intro hDisplay
  rw [block, hDisplay] at hLines
  exact hLines (by decide)

theorem transcript_eq_unlines {r : Report} (h : ∀ s ∈ r.shown, s ≠ .empty) :
    r.transcript = unlines r.lines := by
  rw [Report.transcript, Report.lines, Text.unlines_append, join_block h, Ending.shown_eq]

theorem newline_not_mem_lines (r : Report) : ∀ l ∈ r.lines, '\n' ∉ l.toList := by
  intro l hl
  rcases List.mem_append.mp hl with hShown | hEnding
  · exact newline_not_mem_texts l hShown
  · cases hCase : r.ending with
    | value x =>
      rw [hCase] at hEnding
      rcases List.mem_pair.mp hEnding with rfl | rfl
      · decide
      · exact x.newline_not_mem_text
    | fault error =>
      rw [hCase] at hEnding
      rw [List.mem_singleton.mp hEnding]
      exact EvalError.newline_not_mem_message error
    | interrupted => simp [hCase, Ending.lines] at hEnding
    | failure message => simp [hCase, Ending.lines] at hEnding

theorem endedLines_transcript {r : Report} (h : ∀ s ∈ r.shown, s ≠ .empty) :
    endedLines r.transcript = r.lines := by
  rw [transcript_eq_unlines h, Text.endedLines_unlines (newline_not_mem_lines r)]

/-! ## A value at the end -/

theorem exists_result_run_of_value {e : Evaluator} {events : List Event} {x : Binary64}
    (h : (run e (afterOpening events)).ending = .value x) : ∃ left, result.run e = .ok x left := by
  rw [ending_run_afterOpening] at h
  split at h
  · cases h
  · cases h
  · rw [finish] at h
    cases hResult : result.run e with
    | ok y left =>
      rw [hResult] at h
      cases h
      exact ⟨left, rfl⟩
    | error fault left => simp [hResult] at h

/-- The value is the only operand on the stack that is shown last. -/
theorem exists_stacksAfter_of_value {m : Matching} {events : List Event} {x : Binary64}
    (h : (run (fresh m) events).ending = .value x) :
    ∃ earlier, stacksAfter (fresh m) (opening events) = earlier ++ [.ofList [x]] := by
  have hOutcome := outcome_run (fresh m) events
  cases hRun : (feedAll (tokens events)).run (fresh m) with
  | error fault left =>
    rw [hRun] at hOutcome
    rw [(Prod.mk.inj hOutcome).1] at h
    cases h
  | ok _ next =>
    rw [hRun] at hOutcome
    rw [show (run (fresh m) events).ending = _ from (Prod.mk.inj hOutcome).1] at h
    obtain ⟨left, hResult⟩ := exists_result_run_of_value h
    have hStack : next.stack = .ofList [x] := (result_run_ok hResult).1
    have hNil : opening events ≠ [] := by
      intro hNone
      rw [tokens, hNone] at hRun
      cases hRun
      cases hStack
    apply exists_stacksAfter_eq hNil
    rw [stackAfter?, ← tokens, hRun, ← hStack]

theorem exists_eq_value_of_status {ending : Ending} (h : ending.status = 0) :
    ∃ x, ending = .value x := by
  cases ending with
  | value x => exact ⟨x, rfl⟩
  | fault error => cases h
  | interrupted => cases h
  | failure message => cases h

theorem empty_not_mem_lines {r : Report} (h : r.ending.status ≠ 0) : "" ∉ r.lines := by
  intro hMem
  rcases List.mem_append.mp hMem with hShown | hEnding
  · exact empty_not_mem_texts r.shown hShown
  · cases hCase : r.ending with
    | value x => exact h (congrArg Ending.status hCase)
    | fault error =>
      rw [hCase] at hEnding
      exact error.message_ne_empty (List.mem_singleton.mp hEnding).symm
    | interrupted => simp [hCase, Ending.lines] at hEnding
    | failure message => simp [hCase, Ending.lines] at hEnding

theorem lines_of_value {r : Report} {x : Binary64} {earlier : List Stack}
    (hShown : r.shown = earlier ++ [.ofList [x]]) (hValue : r.ending = .value x) :
    r.lines = texts earlier ++ [x.text, "", x.text] := by
  rw [Report.lines, hShown, hValue]
  simp [texts, Ending.lines]

theorem count_empty_of_value (x : Binary64) (earlier : List Stack) :
    (texts earlier ++ [x.text, "", x.text]).count "" = 1 := by
  rw [List.count_append, List.count_eq_zero.mpr (empty_not_mem_texts earlier)]
  simp [x.text_ne_empty]

/-- **The transcript of a session.** A session on a fresh evaluator shows the stack after every line
that is read and all of whose words are accepted, and then its conclusion. Its transcript is made of
lines, and the lines of a stack are never empty. If the session ends with a value, there is a single
empty line: the last but one, between the last stack, which is the value alone, and the value. If it
ends in any other way, no line is empty. -/
theorem transcript_exact (m : Matching) (events : List Event) :
    let r := run (fresh m) events
    let shown := stacksAfter (fresh m) (opening events)
    let lines := endedLines r.transcript
    r.transcript =
      String.join (shown.map (fun s => s.display ++ "\n")) ++ conclusion (fresh m) events ∧
    unlines lines = r.transcript ∧
    (∀ s ∈ shown, s.display ≠ "" ∧ "" ∉ endedLines (s.display ++ "\n")) ∧
    (r.ending.status = 0 → ∃ x earlier front,
      r.ending = .value x ∧ shown = earlier ++ [.ofList [x]] ∧
        lines = front ++ [x.text, "", x.text] ∧ lines.count "" = 1) ∧
    ((r.ending.status ≠ 0 ∨ ∃ message, r.ending = .failure message) → "" ∉ lines) := by
  intro r shown lines
  have hShown : r.shown = shown := shown_run (fresh m) events
  have hNonempty : ∀ s ∈ shown, s ≠ .empty := ne_empty_of_mem_stacksAfter isBlankLine_of_mem_opening
  have hReport : ∀ s ∈ r.shown, s ≠ .empty := hShown ▸ hNonempty
  have hLines : lines = r.lines := endedLines_transcript hReport
  refine ⟨?_, ?_, fun s hs => display_ne_empty (hNonempty s hs), ?_, ?_⟩
  · rw [Report.transcript, hShown, shown_ending]
    rfl
  · rw [hLines, transcript_eq_unlines hReport]
  · intro hStatus
    obtain ⟨x, hValue⟩ := exists_eq_value_of_status hStatus
    obtain ⟨earlier, (hEarlier : shown = _)⟩ := exists_stacksAfter_of_value hValue
    have hAll := hLines.trans (lines_of_value (hShown.trans hEarlier) hValue)
    exact ⟨x, earlier, texts earlier, hValue, hEarlier, hAll, hAll ▸ count_empty_of_value x earlier⟩
  · intro hEnding
    rw [hLines]
    apply empty_not_mem_lines
    rcases hEnding with hStatus | ⟨message, hFailure⟩
    · exact hStatus
    · rw [hFailure]
      exact one_ne_zero

/-- Two lines, and a third one with a word that fails behind the empty line; and a session that is
interrupted instead. -/
theorem transcript_exact_two_endings :
    let ended : List Event := [.line "1 2", .line "-", .line " ", .line "^"]
    let broken : List Event := [.line "1 2", .line "-", .interrupted]
    (run (fresh .exact) ended).ending.status = 0 ∧
      (run (fresh .exact) ended).transcript = "1\n2\n-1\n\n-1\n" ∧
      (endedLines (run (fresh .exact) ended).transcript).count "" = 1 ∧
      (run (fresh .exact) broken).ending.status ≠ 0 ∧
      "" ∉ endedLines (run (fresh .exact) broken).transcript := by
  intro ended broken
  have hStatus : (run (fresh .exact) ended).ending.status = 0 := by decide +kernel
  have hBroken : (run (fresh .exact) broken).ending.status ≠ 0 := by decide +kernel
  obtain ⟨-, -, -, hValue, -⟩ := transcript_exact .exact ended
  obtain ⟨-, -, -, -, hOther⟩ := transcript_exact .exact broken
  obtain ⟨x, earlier, front, -, -, -, hCount⟩ := hValue hStatus
  exact ⟨hStatus, by decide +kernel, hCount, hBroken, hOther (Or.inl hBroken)⟩

end Session

end ReversePolish
