import ReversePolish.Proofs.Session.Transcript

/-!
# Where a session stops

A session stops at the first event that is not a line all of whose words are accepted: a line with a
word that fails, a blank line, the end of input, an interruption or a failure to read. Nothing behind
that event has any effect, and neither have the words behind the one that fails. Only the end of
input and a blank line lead to a result; after an interruption or a failure to read the evaluator is
left as the lines have left it.

* `Stops`, `stops_iff`: which events stop a session, and that these are the ones at which `step`
  ends it.
* `Passes`, `Passes.run_append`: a session on lines that pass is the session behind them, with the
  stacks after the lines in front; by induction on the lines.
* `run_append_congr`: what is in front of two equal ends does not matter.
* `run_decided`: the first event that stops a session, and what it decides.
-/

namespace ReversePolish.Session

open Evaluator (feed feedAll FailsAt feedAll_append_run feedAll_cons_run feedAll_run_error_iff
  feedAll_singleton_run feed_run_combine feed_run_number feed_run_unknown fresh_eq)
open Token (meaning)

variable {e next : Evaluator} {event : Event} {text : String} {lines : List String}

/-! ## Events that stop a session -/

/-- The event stops a session on `e`. -/
def Stops (e : Evaluator) : Event → Prop
  | .line text =>
    Text.isBlankLine text = true ∨
      ∃ fault left, (feedAll (Text.words text)).run e = .error fault left
  | .endOfInput => True
  | .interrupted => True
  | .failure _ => True

theorem stops_iff : Stops e event ↔ ∃ ending left, step e event = .ends ending left := by
  cases event with
  | line text =>
    cases hBlank : Text.isBlankLine text with
    | true =>
      rw [step_blank e hBlank]
      exact ⟨fun _ => ⟨_, _, rfl⟩, fun _ => Or.inl hBlank⟩
    | false =>
      rw [step_line e hBlank, Stops, hBlank]
      cases (feedAll (Text.words text)).run e with
      | ok _ next => simp
      | error fault left => simp
  | endOfInput => exact ⟨fun _ => ⟨_, _, rfl⟩, fun _ => trivial⟩
  | interrupted => exact ⟨fun _ => ⟨_, _, rfl⟩, fun _ => trivial⟩
  | failure message => exact ⟨fun _ => ⟨_, _, rfl⟩, fun _ => trivial⟩

/-- Behind an event that stops the session nothing is read. -/
theorem Stops.run_cons (h : Stops e event) (x y : List Event) :
    run e (event :: x) = run e (event :: y) := by
  obtain ⟨ending, left, hStep⟩ := stops_iff.mp h
  rw [run, run, hStep]

/-- What does not stop a session is a line that is accepted. -/
theorem exists_line_of_not_stops (h : ¬ Stops e event) :
    ∃ text next, event = .line text ∧ Text.isBlankLine text = false ∧
      (feedAll (Text.words text)).run e = .ok () next := by
  cases event with
  | line text =>
    rw [Stops, not_or, Bool.not_eq_true] at h
    obtain ⟨hBlank, hAccepted⟩ := h
    cases hRun : (feedAll (Text.words text)).run e with
    | ok _ next => exact ⟨text, next, rfl, hBlank, hRun⟩
    | error fault left => exact absurd ⟨fault, left, hRun⟩ hAccepted
  | endOfInput => exact absurd trivial h
  | interrupted => exact absurd trivial h
  | failure message => exact absurd trivial h

/-! ## Lines that pass -/

/-- No line is blank and all words are accepted, which leads from `e` to `next`. -/
structure Passes (e : Evaluator) (lines : List String) (next : Evaluator) : Prop where
  isBlankLine_eq_false : ∀ text ∈ lines, Text.isBlankLine text = false
  feedAll_run : (feedAll (lines.flatMap Text.words)).run e = .ok () next

theorem passes_nil : Passes e [] e := ⟨by simp, rfl⟩

theorem passes_cons_iff :
    Passes e (text :: lines) next ↔
      Text.isBlankLine text = false ∧
        ∃ middle, (feedAll (Text.words text)).run e = .ok () middle ∧ Passes middle lines next := by
  constructor
  · rintro ⟨hBlank, hRun⟩
    rw [List.flatMap_cons, feedAll_append_run] at hRun
    refine ⟨hBlank text List.mem_cons_self, ?_⟩
    cases hWords : (feedAll (Text.words text)).run e with
    | ok _ middle =>
      rw [hWords] at hRun
      exact ⟨middle, rfl, fun t ht => hBlank t (List.mem_cons_of_mem text ht), hRun⟩
    | error fault left => simp [hWords] at hRun
  · rintro ⟨hText, middle, hWords, hBlank, hRun⟩
    refine ⟨?_, ?_⟩
    · intro t ht
      rcases List.mem_cons.mp ht with rfl | hLater
      · exact hText
      · exact hBlank t hLater
    · rw [List.flatMap_cons, feedAll_append_run, hWords]
      exact hRun

/-- The report of a session with stacks that were shown before it. -/
def Report.behind (shown : List Stack) (r : Report) : Report := { r with shown := shown ++ r.shown }

theorem Passes.run_append (h : Passes e lines next) (events : List Event) :
    run e (lines.map .line ++ events) = (run next events).behind (stacksAfter e lines) := by
  induction lines generalizing e with
  | nil =>
    cases h.feedAll_run
    rfl
  | cons text lines ih =>
    obtain ⟨hBlank, middle, hWords, hLines⟩ := passes_cons_iff.mp h
    rw [List.map_cons, List.cons_append, run, step_line e hBlank, stacksAfter_cons, hWords]
    dsimp only
    rw [ih hLines]
    rfl

/-- Either an event stops the session behind lines that pass, or all events are lines that pass. -/
theorem exists_stop_or (e : Evaluator) (events : List Event) :
    (∃ lines next stop later, events = lines.map .line ++ stop :: later ∧ Passes e lines next ∧
      Stops next stop) ∨
    ∃ lines next, events = lines.map .line ∧ Passes e lines next := by
  induction events generalizing e with
  | nil => exact Or.inr ⟨[], e, rfl, passes_nil⟩
  | cons event events ih =>
    by_cases hStop : Stops e event
    · exact Or.inl ⟨[], e, event, events, rfl, passes_nil, hStop⟩
    · obtain ⟨text, middle, rfl, hBlank, hWords⟩ := exists_line_of_not_stops hStop
      rcases ih middle with ⟨lines, next, stop, later, rfl, hLines, hLater⟩ |
        ⟨lines, next, rfl, hLines⟩
      · exact Or.inl ⟨text :: lines, next, stop, later, rfl,
          passes_cons_iff.mpr ⟨hBlank, middle, hWords, hLines⟩, hLater⟩
      · exact Or.inr ⟨text :: lines, next, rfl,
          passes_cons_iff.mpr ⟨hBlank, middle, hWords, hLines⟩⟩

/-! ## What is behind -/

/-- Events at the end that have the same effect on every evaluator can be exchanged. -/
theorem run_append_congr {x y : List Event} (h : ∀ e, run e x = run e y) (before : List Event)
    (e : Evaluator) : run e (before ++ x) = run e (before ++ y) := by
  induction before generalizing e with
  | nil => exact h e
  | cons event before ih =>
    rw [List.cons_append, List.cons_append, run, run]
    cases step e event with
    | goesOn next =>
      dsimp only
      rw [ih next]
    | ends ending left => rfl

/-- The end of input makes no difference where the events end anyway. -/
theorem run_append_endOfInput (events : List Event) (e : Evaluator) :
    run e (events ++ [.endOfInput]) = run e events := by
  have hEnd : ∀ e, run e [.endOfInput] = run e [] := fun _ => rfl
  rw [run_append_congr hEnd, List.append_nil]

/-- A line with a word that fails leaves what that word has left, whatever words are behind it. -/
theorem run_line_of_failsAt {i : Nat} {fault : EvalError} {before left : Evaluator}
    (h : FailsAt e (Text.words text) i fault before left) (later : List Event) :
    run e (.line text :: later) = ⟨[], .fault fault, left⟩ := by
  have hRun := feedAll_run_error_iff.mpr ⟨i, before, h⟩
  have hBlank : Text.isBlankLine text = false := by
    rw [← Bool.not_eq_true, ← Text.words_eq_nil_iff]
    intro hNil
    rw [hNil] at hRun
    cases hRun
  rw [run, step_line e hBlank, hRun]

/-- Reading is broken off by the event, which is the ending of the session. -/
inductive BreaksOff : Event → Ending → Prop where
  | interrupted : BreaksOff .interrupted .interrupted
  | failure (message : String) : BreaksOff (.failure message) (.failure message)

theorem BreaksOff.run_cons {ending : Ending} (h : BreaksOff event ending) (e : Evaluator)
    (later : List Event) : run e (event :: later) = ⟨[], ending, e⟩ := by
  cases h <;> rfl

/-- Nothing is shown, and the session has no success. -/
theorem BreaksOff.silent {ending : Ending} (h : BreaksOff event ending) :
    ending.shown = "" ∧ ending.status = 1 := by
  cases h <;> exact ⟨rfl, rfl⟩

/-- **A session is decided where it stops.** Every sequence of events has a first one that stops the
session, or there is none and the session is the same with an end of input behind it. What stands
behind the stopping event has no effect on the report. At a word that fails, the stacks after the
earlier lines are shown and the evaluator is the one which that word has left. An interruption or a
failure to read shows those stacks only and leaves the evaluator as the words of the earlier lines
have left it. -/
theorem run_decided (e : Evaluator) :
    (∀ events,
      (∃ lines next stop later, events = lines.map .line ++ stop :: later ∧ Passes e lines next ∧
        Stops next stop) ∨
      ∃ lines next, events = lines.map .line ∧ Passes e lines next ∧
        run e events = run e (events ++ [.endOfInput])) ∧
    ∀ lines next, Passes e lines next →
      (∀ stop, Stops next stop → ∀ x y,
        run e (lines.map .line ++ stop :: x) = run e (lines.map .line ++ stop :: y)) ∧
      (∀ text i fault before left, FailsAt next (Text.words text) i fault before left → ∀ later,
        run e (lines.map .line ++ .line text :: later) =
          ⟨stacksAfter e lines, .fault fault, left⟩) ∧
      ∀ stop ending, BreaksOff stop ending → ∀ later,
        let r := run e (lines.map .line ++ stop :: later)
        r = ⟨stacksAfter e lines, ending, next⟩ ∧ r.ending.status = 1 ∧
          r.transcript = String.join ((stacksAfter e lines).map block) := by
  constructor
  · intro events
    rcases exists_stop_or e events with hStop | ⟨lines, next, hEvents, hPasses⟩
    · exact Or.inl hStop
    · exact Or.inr ⟨lines, next, hEvents, hPasses, (run_append_endOfInput events e).symm⟩
  · intro lines next hPasses
    refine ⟨?_, ?_, ?_⟩
    · intro stop hStop x y
      rw [hPasses.run_append, hPasses.run_append, hStop.run_cons x y]
    · intro text i fault before left hFails later
      rw [hPasses.run_append, run_line_of_failsAt hFails, Report.behind, List.append_nil]
    · intro stop ending hBreak later r
      obtain ⟨hShown, hStatus⟩ := hBreak.silent
      have hReport : r = ⟨stacksAfter e lines, ending, next⟩ := by
        rw [show r = _ from hPasses.run_append _, hBreak.run_cons, Report.behind, List.append_nil]
      refine ⟨hReport, by rw [hReport, hStatus], ?_⟩
      rw [hReport, Report.transcript, hShown, String.append_empty]

/-- Behind two lines, a line whose second word fails, and an interruption. -/
theorem run_decided_early_endings :
    let one : Binary64 := ⟨false, 0x3ff0000000000000, by decide⟩
    let two : Binary64 := ⟨false, 0x4000000000000000, by decide⟩
    let three : Binary64 := ⟨false, 0x4008000000000000, by decide⟩
    let next : Evaluator := ⟨.exact, .ofList [one, two]⟩
    let left : Evaluator := ⟨.exact, .ofList [three]⟩
    let shown : List Stack := [.ofList [one], .ofList [one, two]]
    Passes (.fresh .exact) ["1", "2"] next ∧ Stops next (.line "+ ^ 5") ∧
      FailsAt next (Text.words "+ ^ 5") 1 (.unknownOperator "^") left left ∧
      (∀ x y, run (.fresh .exact) ([.line "1", .line "2"] ++ .line "+ ^ 5" :: x) =
        run (.fresh .exact) ([.line "1", .line "2"] ++ .line "+ ^ 5" :: y)) ∧
      (∀ later, run (.fresh .exact) ([.line "1", .line "2"] ++ .line "+ ^ 5" :: later) =
        ⟨shown, .fault (.unknownOperator "^"), left⟩) ∧
      ∀ later, run (.fresh .exact) ([.line "1", .line "2"] ++ .interrupted :: later) =
        ⟨shown, .interrupted, next⟩ := by
  intro one two three next left shown
  have hOne : meaning .exact "1" = .number one := by decide +kernel
  have hTwo : meaning .exact "2" = .number two := by decide +kernel
  have hPlus : meaning .exact "+" = .combine .add := by decide +kernel
  have hCaret : meaning .exact "^" = .unknown := by decide +kernel
  have hSum : Operator.add.apply two one = three := by decide +kernel
  have hLines : ["1", "2"].flatMap Text.words = ["1", "2"] := by decide +kernel
  have hWords : Text.words "+ ^ 5" = ["+", "^", "5"] := by decide +kernel
  have hPasses : Passes (.fresh .exact) ["1", "2"] next := by
    refine ⟨by decide +kernel, ?_⟩
    rw [hLines, feedAll_cons_run, fresh_eq, feed_run_number hOne]
    dsimp only
    rw [feedAll_singleton_run, feed_run_number hTwo]
    rfl
  have hFails : FailsAt next (Text.words "+ ^ 5") 1 (.unknownOperator "^") left left := by
    rw [hWords]
    refine ⟨?_, "^", rfl, feed_run_unknown hCaret [three]⟩
    rw [List.take_succ_cons, List.take_zero, feedAll_singleton_run]
    show (feed "+").run ⟨.exact, ⟨[two, one]⟩⟩ = _
    rw [feed_run_combine hPlus, hSum]
    rfl
  have hStops : Stops next (.line "+ ^ 5") :=
    Or.inr ⟨.unknownOperator "^", left, feedAll_run_error_iff.mpr ⟨1, left, hFails⟩⟩
  have hShown : stacksAfter (.fresh .exact) ["1", "2"] = shown := by decide +kernel
  obtain ⟨-, hDecided⟩ := run_decided (.fresh .exact)
  obtain ⟨hLater, hFault, hBreak⟩ := hDecided ["1", "2"] next hPasses
  rw [hShown] at hFault hBreak
  exact ⟨hPasses, hStops, hFails, hLater _ hStops, hFault _ _ _ _ _ hFails,
    fun later => (hBreak _ _ .interrupted later).1⟩

end ReversePolish.Session
