import ReversePolish.Evaluator.Basic

/-!
# Scripts for an evaluator

A script is a list of calls as data. A call that fails does not end the script: the next one is
made on the evaluator that the failure left behind.
-/

namespace ReversePolish.Evaluator

inductive Step where
  | feed (token : String)
  | operand (x : Binary64)
  | operator (token : String)
  | expression (text : String)
  | result
  | reset
  | matching
  | display
  deriving DecidableEq

inductive Answer where
  | done
  | value (x : Binary64)
  | fault (error : EvalError)
  | matching (m : Matching)
  | text (s : String)
  deriving DecidableEq

/-- The answer of a calculation with the evaluator after it. -/
def answerOf {α : Type} (onValue : α → Answer) :
    EStateM.Result EvalError Evaluator α → Answer × Evaluator
  | .ok a e => (onValue a, e)
  | .error fault e => (.fault fault, e)

def perform (e : Evaluator) : Step → Answer × Evaluator
  | .feed token => answerOf (fun _ => .done) ((feed token).run e)
  | .operand x => answerOf (fun _ => .done) ((operand x).run e)
  | .operator token => answerOf (fun _ => .done) ((operator token).run e)
  | .expression text => answerOf .value ((expression text).run e)
  | .result => answerOf .value (result.run e)
  | .reset => (.done, e.reset)
  | .matching => (.matching e.matching, e)
  | .display => (.text e.stack.display, e)

/-- Make the calls of a script: each one's answer with the evaluator after it. -/
def performAll (e : Evaluator) : List Step → List (Answer × Evaluator)
  | [] => []
  | step :: script =>
    let outcome := e.perform step
    outcome :: outcome.2.performAll script

end ReversePolish.Evaluator
