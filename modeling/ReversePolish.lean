import ReversePolish.Cursor.Script
import ReversePolish.Evaluator.Script
import ReversePolish.Main
import ReversePolish.Stack.Script
import ReversePolish.Proofs.Stack.Display
import ReversePolish.Proofs.Cursor.Consumption
import ReversePolish.Proofs.Numeral.Reading
import ReversePolish.Proofs.Numeral.Grammar
import ReversePolish.Proofs.Numeral.Value
import ReversePolish.Proofs.Evaluator.Run
import ReversePolish.Proofs.Evaluator.Outcome
import ReversePolish.Proofs.Expression.Tree
import ReversePolish.Proofs.Session.Agreement
import ReversePolish.Proofs.Evaluator.Loosening
import ReversePolish.Proofs.Expression.Substitution
import ReversePolish.Proofs.Session.Loosening
import ReversePolish.Proofs.Evaluator.Failure
import ReversePolish.Proofs.Evaluator.History
import ReversePolish.Proofs.Evaluator.Frame
import ReversePolish.Proofs.Session.Transcript
import ReversePolish.Proofs.Text.Reading
import ReversePolish.Proofs.Arguments.Layout
import ReversePolish.Proofs.Program.Outcome
import ReversePolish.Proofs.Session.LineEnds
import ReversePolish.Proofs.Numeral.Literal
import ReversePolish.Proofs.Operator.Lookup
import ReversePolish.Proofs.Arguments.Extension
import ReversePolish.Proofs.Expression.Exchange
import ReversePolish.Proofs.Operator.Application
import ReversePolish.Proofs.Binary64.Printing
import ReversePolish.Proofs.Cursor.Backtracking
import ReversePolish.Proofs.Cursor.Munch
import ReversePolish.Proofs.Stack.Conservation
