import ReversePolish.Arguments
import ReversePolish.Help
import ReversePolish.Session
import ReversePolish.Text.Lines
import ReversePolish.Text.Visible

/-!
# The whole program

What the program does with its arguments and its input: the exit code and all that it writes. A
request for help and a usage error come first, then a flag among the tokens; after these the
program runs a session, evaluates the tokens, or shows the summary if there are none. A session
reads its input through a line editor.
-/

namespace ReversePolish.Program

/-- The exit code and the texts written to the two outputs. -/
structure Outcome where
  exitCode : Nat
  output : String
  errors : String
  deriving DecidableEq

def usageError (message : String) : Outcome :=
  ⟨2, "", "error: " ++ message ++ "\n\n" ++ Help.usage ++
    "\n\nFor more information, try '--help'.\n"⟩

/-- The answer to arguments that are not accepted. A value is quoted as far as it is visible. -/
def refuse : Refusal → Outcome
  | .help true => ⟨0, Help.full, ""⟩
  | .help false => ⟨0, Help.summary, ""⟩
  | .repeated flag =>
    usageError ("the argument '" ++ flag.written ++ "' cannot be used multiple times")
  | .unexpectedValue flag value =>
    usageError ("unexpected value '" ++ Text.visible value ++ "' for '" ++ flag.written ++
      "' found; no more were expected")

/-- The answer to a flag among the tokens. -/
def refuseStray (flag : String) : Outcome :=
  usageError ("'" ++ flag ++ "' must come before the tokens")

/-- The value or the failure of an expression, on a line of its own. -/
def reportValue : Except EvalError Binary64 → Outcome
  | .ok x => ⟨0, x.text ++ "\n", ""⟩
  | .error fault => ⟨1, fault.message ++ "\n", ""⟩

/-- The outcome of a session. A failure to read is reported as an error. -/
def reportSession (r : Session.Report) : Outcome :=
  ⟨r.ending.status, r.transcript, r.ending.complaint⟩

/-- The events of reading a text line by line through an editor. -/
def eventsWith (editor : Text.LineEditor) (input : String) : List Session.Event :=
  (editor.lines input).map .line ++ [.endOfInput]

def events (input : String) : List Session.Event := eventsWith .byCodePoint input

/-- What is left to do for accepted arguments. -/
inductive Task where
  | session (matching : Matching)
  | expression (matching : Matching) (text : String)
  | answer (outcome : Outcome)
  deriving DecidableEq

/-- The task that the arguments set. -/
def task (arguments : List String) : Task :=
  match Arguments.parse arguments with
  | .error refusal => .answer (refuse refusal)
  | .ok a =>
    match a.strayFlag? with
    | some flag => .answer (refuseStray flag)
    | none =>
      if a.interactive then .session a.matching
      else if a.tokens.isEmpty then .answer ⟨0, Help.summary, ""⟩
      else .expression a.matching (Text.spaced a.tokens)

/-- The outcome of the program for its arguments and its input, with an editor for its lines. -/
def runWith (editor : Text.LineEditor) (arguments : List String) (input : String) : Outcome :=
  match task arguments with
  | .answer outcome => outcome
  | .expression matching text => reportValue (Evaluator.evaluate matching text)
  | .session matching => reportSession (Session.run (.fresh matching) (eventsWith editor input))

/-- The outcome of the program where a backspace erases single code points. -/
def run (arguments : List String) (input : String) : Outcome :=
  runWith .byCodePoint arguments input

end ReversePolish.Program
