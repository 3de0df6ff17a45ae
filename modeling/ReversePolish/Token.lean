import ReversePolish.Decimal.Literal
import ReversePolish.Numeral

/-!
# Tokens

A token that is a numeral is an operand, and its value is the double nearest to the numeral. Every
other token is left for the operators to be looked up, exactly as it was given.
-/

namespace ReversePolish

/-- What a token is taken for. -/
inductive Token where
  | operand (x : Binary64)
  | operator (text : String)
  deriving DecidableEq

/-- The value of a token that is a numeral. -/
def Token.value? (token : String) : Option Binary64 := do
  let literal ← Numeral.scan? token
  let decimal ← Decimal.ofLiteral? literal.toList
  return decimal.toBinary64

/-- Take a token for an operand if it is a numeral, and for an operator otherwise. -/
def Token.classify (token : String) : Token :=
  match Token.value? token with
  | some x => .operand x
  | none => .operator token

end ReversePolish
