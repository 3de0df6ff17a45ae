import ReversePolish.Stack.Basic

/-!
# Scripts for a stack

A script is a list of stack operations as data; performing one gives its answer and the stack
after it. Taking an operand from the empty stack answers `taken none` and changes nothing.
-/

namespace ReversePolish.Stack

inductive Step where
  | push (x : Binary64)
  | pop
  | clear
  | list
  | display
  | compare (values : List Binary64)
  deriving DecidableEq

inductive Answer where
  | done
  | taken (x : Option Binary64)
  | values (list : List Binary64)
  | text (s : String)
  | flag (b : Bool)
  deriving DecidableEq

def perform (s : Stack) : Step → Answer × Stack
  | .push x => (.done, s.push x)
  | .pop =>
    match s.pop? with
    | some (x, rest) => (.taken (some x), rest)
    | none => (.taken none, s)
  | .clear => (.done, s.clear)
  | .list => (.values s.toList, s)
  | .display => (.text s.display, s)
  | .compare values => (.flag (s.numEq (ofList values)), s)

/-- Perform a script: each operation's answer with the stack after it. -/
def performAll (s : Stack) : List Step → List (Answer × Stack)
  | [] => []
  | step :: script =>
    let outcome := s.perform step
    outcome :: outcome.2.performAll script

end ReversePolish.Stack
