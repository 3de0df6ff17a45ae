import ReversePolish.Binary64.Rounding

/-!
# Addition, subtraction, multiplication and division

Each operation computes the exact result of finite operands as a ratio of units and rounds it
once. A zero sum of operands that are not both negative is positive, any other zero takes the sign
that the exact rule gives it, and an operation without a meaningful result answers `nan`.
-/

namespace ReversePolish.Binary64

/-- A magnitude with its sign as an integer. -/
def signed (negative : Bool) (magnitude : Nat) : Int :=
  if negative then -(magnitude : Int) else magnitude

/-- The sum of two finite values, exact before the one rounding. -/
def addFinite (negX : Bool) (unitsX : Nat) (negY : Bool) (unitsY : Nat) : Binary64 :=
  let total := signed negX unitsX + signed negY unitsY
  if total = 0 then zero (negX && negY) else ofRatio (total < 0) total.natAbs 1

/-- The sum, rounded once. -/
def add (x y : Binary64) : Binary64 :=
  match x.value, y.value with
  | .finite s a, .finite t b => addFinite s a t b
  | .infinite s, .infinite t => if s = t then infinity s else nan
  | .infinite s, .finite _ _ => infinity s
  | .finite _ _, .infinite t => infinity t
  | .nan, _ => nan
  | _, .nan => nan

/-- The difference, rounded once: the sum with the opposite of the second operand. -/
def sub (x y : Binary64) : Binary64 := x.add y.neg

/-- The product, rounded once. -/
def mul (x y : Binary64) : Binary64 :=
  match x.value, y.value with
  | .finite s a, .finite t b => ofRatio (s ^^ t) (a * b) unitsPerOne
  | .infinite s, .infinite t => infinity (s ^^ t)
  | .infinite s, .finite t b => if b = 0 then nan else infinity (s ^^ t)
  | .finite s a, .infinite t => if a = 0 then nan else infinity (s ^^ t)
  | .nan, _ => nan
  | _, .nan => nan

/-- The quotient, rounded once; a number other than zero divided by zero is infinite. -/
def div (x y : Binary64) : Binary64 :=
  match x.value, y.value with
  | .finite s a, .finite t b =>
    if b = 0 then (if a = 0 then nan else infinity (s ^^ t))
    else ofRatio (s ^^ t) (a * unitsPerOne) b
  | .infinite _, .infinite _ => nan
  | .infinite s, .finite t _ => infinity (s ^^ t)
  | .finite s _, .infinite t => zero (s ^^ t)
  | .nan, _ => nan
  | _, .nan => nan

end ReversePolish.Binary64
