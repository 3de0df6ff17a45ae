import ReversePolish.Evaluator.Basic

/-!
# Interactive sessions

A session reads lines until a blank one or the end of input, feeds the words of each line to an
evaluator, and shows the stack after every line. Then it takes the result. The first token that
fails ends the session, and so does an interruption or a failure to read; after these two nothing
is shown.
-/

namespace ReversePolish.Session

/-- What reading a line yields. -/
inductive Event where
  | line (text : String)
  | endOfInput
  | interrupted
  | failure (message : String)
  deriving DecidableEq

inductive Ending where
  | value (x : Binary64)
  | fault (error : EvalError)
  | interrupted
  | failure (message : String)
  deriving DecidableEq

namespace Ending

def shown : Ending → String
  | .value x => "\n" ++ x.text ++ "\n"
  | .fault error => error.message ++ "\n"
  | .interrupted => ""
  | .failure _ => ""

/-- The exit status: `0` for a result and `1` for anything else. -/
def status : Ending → Nat
  | .value _ => 0
  | _ => 1

/-- What is reported as an error at the end. -/
def complaint : Ending → String
  | .failure message => "Error: " ++ message ++ "\n"
  | _ => ""

end Ending

/-- A session that has ended: the stacks shown after its lines, how it ended, and the evaluator
that it left. -/
structure Report where
  shown : List Stack
  ending : Ending
  evaluator : Evaluator
  deriving DecidableEq

def block (s : Stack) : String := s.display ++ "\n"

/-- All that a session shows. -/
def Report.transcript (r : Report) : String :=
  String.join (r.shown.map block) ++ r.ending.shown

/-- What an event does to a session that has gone on until then. -/
inductive Progress where
  | goesOn (evaluator : Evaluator)
  | ends (ending : Ending) (evaluator : Evaluator)
  deriving DecidableEq

/-- Take the result, which ends the session. -/
def finish (e : Evaluator) : Ending × Evaluator :=
  match Evaluator.result.run e with
  | .ok x left => (.value x, left)
  | .error error left => (.fault error, left)

def step (e : Evaluator) : Event → Progress
  | .line text =>
    if Text.isBlankLine text then .ends (finish e).1 (finish e).2
    else match (Evaluator.feedAll (Text.words text)).run e with
      | .ok _ next => .goesOn next
      | .error error left => .ends (.fault error) left
  | .endOfInput => .ends (finish e).1 (finish e).2
  | .interrupted => .ends .interrupted e
  | .failure message => .ends (.failure message) e

/-- A whole session. Input ends where the events run out. -/
def run (e : Evaluator) : List Event → Report
  | [] => ⟨[], (finish e).1, (finish e).2⟩
  | event :: events =>
    match step e event with
    | .goesOn next =>
      let later := run next events
      { later with shown := next.stack :: later.shown }
    | .ends ending left => ⟨[], ending, left⟩

theorem step_blank (e : Evaluator) {text : String} (hBlank : Text.isBlankLine text = true) :
    step e (.line text) = .ends (finish e).1 (finish e).2 := if_pos hBlank

theorem step_line (e : Evaluator) {text : String} (hBlank : Text.isBlankLine text = false) :
    step e (.line text) =
      match (Evaluator.feedAll (Text.words text)).run e with
      | .ok _ next => .goesOn next
      | .error error left => .ends (.fault error) left := by
  rw [step, hBlank]
  rfl

end ReversePolish.Session
