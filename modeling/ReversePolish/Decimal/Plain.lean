import ReversePolish.Decimal.Basic

/-!
# Positional text

A decimal is written without an exponent: a minus sign if it is negative, its whole part without
leading zeros but with at least one digit, and, where the fraction is not zero, a point and the
fraction without trailing zeros.
-/

namespace ReversePolish.Decimal

def dropTrailingZeros (digits : List Char) : List Char :=
  (digits.reverse.dropWhile (· == '0')).reverse

/-- The digits of the fraction `part / 10 ^ places`, where `part < 10 ^ places`. -/
def fractionDigits (part places : Nat) : List Char :=
  dropTrailingZeros ((Nat.toDigits 10 part).leftpad places '0')

/-- A point and the digits after it; nothing where there are none. -/
def pointed : List Char → List Char
  | [] => []
  | digits => '.' :: digits

/-- The positional text of `coefficient * 10 ^ exponent`. -/
def plainMagnitude (coefficient : Nat) (exponent : Int) : List Char :=
  match exponent with
  | .ofNat k => Nat.toDigits 10 (coefficient * Nat.pow 10 k)
  | .negSucc k =>
    let one := Nat.pow 10 (k + 1)
    Nat.toDigits 10 (coefficient / one) ++ pointed (fractionDigits (coefficient % one) (k + 1))

/-- The positional text of a decimal, its sign in front. -/
def plain (d : Decimal) : List Char :=
  (if d.negative then ['-'] else []) ++ plainMagnitude d.coefficient d.exponent

end ReversePolish.Decimal
