import ReversePolish.Operator
import ReversePolish.Stack.Basic
import ReversePolish.Text.Pieces
import ReversePolish.Token

/-!
# The evaluator

An evaluator has a stack of operands and a way of matching operators. It is fed tokens one at a
time: an operand is pushed, an operator takes two operands and pushes its result. At the end the
result is taken, and it has to be the only operand left.

A calculation that fails keeps the stack that it had reached. What is left behind is part of the
behaviour: an unknown operator takes nothing, an operator without a second operand has taken the
first, and taking the result from several operands has removed the top one.
-/

namespace ReversePolish

/-- Why a calculation fails. -/
inductive EvalError where
  | tooFewOperands
  | tooManyOperands
  | unknownOperator (token : String)
  deriving DecidableEq

def EvalError.message : EvalError → String
  | .tooFewOperands => "Invalid expression - too few operands"
  | .tooManyOperands => "Invalid expression - too many operands"
  | .unknownOperator _ => "Invalid expression - unknown operator"

/-- A stack of operands and the way in which operators are matched. -/
structure Evaluator where
  matching : Matching
  stack : Stack
  deriving DecidableEq

/-- A calculation changes an evaluator, and may fail; the change stays when it does. -/
abbrev Calculation := EStateM EvalError Evaluator

namespace Evaluator

def fresh (matching : Matching) : Evaluator := ⟨matching, .empty⟩

/-- The evaluator that takes over a stack; the operands on it are dropped. -/
def ofStack (matching : Matching) (stack : Stack) : Evaluator := ⟨matching, stack.clear⟩

def reset (e : Evaluator) : Evaluator := { e with stack := e.stack.clear }

def operand (x : Binary64) : Calculation Unit :=
  modify (fun e => { e with stack := e.stack.push x })

def takeOperand : Calculation Binary64 := do
  let e ← get
  match e.stack.pop? with
  | none => throw .tooFewOperands
  | some (x, rest) =>
    set { e with stack := rest }
    return x

/-- Apply the operator that a token matches to the two top operands, the right one on top. The
token is looked up before any operand is taken. -/
def operator (token : String) : Calculation Unit := do
  match Operator.lookup? (← get).matching token with
  | none => throw (.unknownOperator token)
  | some op =>
    let right ← takeOperand
    let left ← takeOperand
    operand (op.apply right left)

def feed (token : String) : Calculation Unit :=
  match Token.classify token with
  | .operand x => operand x
  | .operator text => operator text

/-- Process tokens in order, up to the first that fails. -/
def feedAll : List String → Calculation Unit
  | [] => pure ()
  | token :: tokens => do
    feed token
    feedAll tokens

/-- Take the result, which has to be the only operand. -/
def result : Calculation Binary64 := do
  let x ← takeOperand
  if (← get).stack.isEmpty then return x else throw .tooManyOperands

/-- Process the pieces of an expression and take its result. Operands that were there before stay
and take part. -/
def expression (text : String) : Calculation Binary64 := do
  feedAll (Text.pieces text)
  result

/-- The value of an expression, on an evaluator of its own. -/
def evaluate (matching : Matching) (text : String) : Except EvalError Binary64 :=
  match (expression text).run (fresh matching) with
  | .ok x _ => .ok x
  | .error fault _ => .error fault

/-! ## One equation for each step -/

theorem operand_run (e : Evaluator) (x : Binary64) :
    (operand x).run e = .ok () { e with stack := e.stack.push x } := rfl

theorem operator_run (e : Evaluator) (token : String) :
    (operator token).run e =
      match Operator.lookup? e.matching token, e.stack.values with
      | none, _ => .error (.unknownOperator token) e
      | some op, right :: left :: rest =>
        .ok () { e with stack := ⟨op.apply right left :: rest⟩ }
      | some _, _ => .error .tooFewOperands { e with stack := .empty } := by
  obtain ⟨matching, ⟨values⟩⟩ := e
  show (match Operator.lookup? matching token with
    | none => (throw (EvalError.unknownOperator token) : Calculation Unit)
    | some op => do
      let right ← takeOperand
      let left ← takeOperand
      operand (op.apply right left)) ⟨matching, ⟨values⟩⟩ = _
  cases Operator.lookup? matching token with
  | none => rfl
  | some op => rcases values with _ | ⟨right, _ | ⟨left, rest⟩⟩ <;> rfl

theorem result_run (e : Evaluator) :
    result.run e =
      match e.stack.values with
      | [] => .error .tooFewOperands e
      | [x] => .ok x { e with stack := .empty }
      | _ :: y :: rest => .error .tooManyOperands { e with stack := ⟨y :: rest⟩ } := by
  obtain ⟨matching, ⟨values⟩⟩ := e
  rcases values with _ | ⟨x, _ | ⟨y, rest⟩⟩ <;> rfl

theorem feedAll_cons (token : String) (tokens : List String) :
    feedAll (token :: tokens) = (do feed token; feedAll tokens) := rfl

theorem feedAll_append (first second : List String) :
    feedAll (first ++ second) = (do feedAll first; feedAll second) := by
  induction first with
  | nil => simp [feedAll]
  | cons token tokens ih => simp [feedAll, ih]

end Evaluator

end ReversePolish
