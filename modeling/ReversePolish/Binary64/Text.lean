import ReversePolish.Decimal.Plain

/-!
# The text of a double

A finite double is written as the decimal with the fewest significant digits that is read as the
same double; of those, the nearest to the exact value, and of two equally near ones the larger.

Every finite magnitude is a whole number of units of `10 ^ -1074`. The search takes that number
and drops as many of its low digits as possible: on the grid of multiples of `10 ^ p` only the two
neighbours of the exact value need to be tried, because the decimals that are read as one double
have no gaps. On the finest grid the exact value itself is a point, so the search ends there.
-/

namespace ReversePolish.Binary64

/-- The number of units of `10 ^ -1074` in a unit of `2 ^ -1074`, `5 ^ 1074`. -/
@[irreducible] def decimalUnitsPerUnit : Nat := Nat.pow 5 1074

/-- The exact magnitude of a finite double in units of `10 ^ -1074`. -/
def decimalUnits (x : Binary64) : Nat := decimalUnitsPerUnit * units x.magnitude

/-- The power of ten that the `p`-th place of `decimalUnits` counts. -/
def placeExponent (p : Nat) : Int := (p : Int) - 1074

/-- The multiple `c` of the `p`-th place is read as the magnitude of `x`. -/
def readsBack (x : Binary64) (p c : Nat) : Bool :=
  Decimal.nearestCode c (placeExponent p) == x.magnitude

/-- The multiple of the `p`-th place that is nearest to `x` among its two neighbours that are read
as the magnitude of `x`; the upper one if both are equally near. There is none on a place above
the leading digit. -/
def nearestOnPlace? (x : Binary64) (p : Nat) : Option Nat :=
  let place := Nat.pow 10 p
  let lower := x.decimalUnits / place
  let upper := lower + 1
  if lower = 0 then none
  else match x.readsBack p lower, x.readsBack p upper with
    | true, true => some (if 2 * (x.decimalUnits % place) < place then lower else upper)
    | true, false => some lower
    | false, true => some upper
    | false, false => none

/-- The coarsest decimal on a place below `p` that is read as `x`. -/
def shortestBelow (x : Binary64) : Nat → Decimal
  | 0 => ⟨x.negative, x.decimalUnits, placeExponent 0⟩
  | p + 1 =>
    match x.nearestOnPlace? p with
    | some c => ⟨x.negative, c, placeExponent p⟩
    | none => x.shortestBelow p

theorem shortestBelow_succ (x : Binary64) (p : Nat) :
    x.shortestBelow (p + 1) =
      match x.nearestOnPlace? p with
      | some c => ⟨x.negative, c, placeExponent p⟩
      | none => x.shortestBelow p := rfl

/-- A number of places that holds all decimal digits of `n`: a bit takes less than `0.30103` of a
place. -/
def placesFor (n : Nat) : Nat := n.log2 * 30103 / 100000 + 2

/-- The decimal with the fewest significant digits that is read as the finite double `x`. -/
def shortest (x : Binary64) : Decimal := x.shortestBelow (placesFor x.decimalUnits)

def text (x : Binary64) : String :=
  if x.isNaN then "NaN"
  else if x.isInfinite then (if x.negative then "-inf" else "inf")
  else String.ofList x.shortest.plain

end ReversePolish.Binary64
