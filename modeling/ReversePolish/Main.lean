import ReversePolish.Program

/-!
# The command line

The outer layer: it reads lines as a session asks for them and writes what the program answers.
-/

namespace ReversePolish.Main

/-- Read the next line of the input. -/
def readEvent : IO Session.Event := do
  try
    match Text.lines (← (← IO.getStdin).getLine) with
    | [] => return .endOfInput
    | line :: _ => return .line line
  catch fault =>
    return .failure (toString fault)

/-- Write an outcome and answer its exit code. -/
def deliver (outcome : Program.Outcome) : IO UInt32 := do
  IO.print outcome.output
  IO.eprint outcome.errors
  return outcome.exitCode.toUInt32

/-- Run a session on the lines of the input, showing each stack at once. -/
partial def converse (e : Evaluator) : IO UInt32 := do
  match Session.step e (← readEvent) with
  | .goesOn next =>
    IO.print (Session.block next.stack)
    (← IO.getStdout).flush
    converse next
  | .ends ending left => deliver (Program.reportSession ⟨[], ending, left⟩)

end ReversePolish.Main

open ReversePolish

def main (arguments : List String) : IO UInt32 := do
  match Program.task arguments with
  | .answer outcome => Main.deliver outcome
  | .expression matching text => Main.deliver (Program.reportValue (Evaluator.evaluate matching text))
  | .session matching => Main.converse (.fresh matching)
