import ReversePolish.Decimal.Basic

/-!
# Reading a literal

A literal is cut at its exponent mark and at its point, and each part is read on its own: an
optional sign, digits with at most one point among or beside them and at least one digit, and
after an `e` or `E` a whole number with an optional sign.
-/

namespace ReversePolish.Decimal

/-- The sign that stands in front, if any, and the text after it. -/
def signOf : List Char → Bool × List Char
  | '-' :: rest => (true, rest)
  | '+' :: rest => (false, rest)
  | text => (false, text)

def isExponentMark (c : Char) : Bool := c == 'e' || c == 'E'

/-- The number that a text of decimal digits stands for; the text is not empty. -/
def natural? (text : List Char) : Option Nat :=
  if text ≠ [] ∧ text.all Char.isDigit then some (Nat.ofDigitChars 10 text 0) else none

/-- The whole number that digits with an optional sign stand for. -/
def integer? (text : List Char) : Option Int :=
  let (negative, digits) := signOf text
  (natural? digits).map (fun n => if negative then -(n : Int) else n)

/-- The exponent that follows the mantissa: zero where there is none. -/
def scale? : List Char → Option Int
  | [] => some 0
  | _ :: text => integer? text

/-- The decimal that a literal stands for. -/
def ofLiteral? (text : List Char) : Option Decimal := do
  let (negative, unsigned) := signOf text
  let mantissa := unsigned.takeWhile (!isExponentMark ·)
  let whole := mantissa.takeWhile (· != '.')
  let fraction := (mantissa.dropWhile (· != '.')).drop 1
  let coefficient ← natural? (whole ++ fraction)
  let scale ← scale? (unsigned.dropWhile (!isExponentMark ·))
  return ⟨negative, coefficient, scale - fraction.length⟩

end ReversePolish.Decimal
