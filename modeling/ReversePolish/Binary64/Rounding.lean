import ReversePolish.Binary64.Basic

/-!
# Rounding a ratio to the nearest double

A non-negative rational is given as a quotient of natural numbers, counted in units of
`2 ^ -1074`. It is first rounded to a significand of at most 53 bits, half to even, by `roundDiv`.
Exponent and significand then add up to the magnitude code: a significand that rounds up to
`2 ^ 53` carries into the exponent by itself, and an even code is an even significand.
-/

namespace ReversePolish.Binary64

/-- The natural number nearest to `num / den`, the even one of two equally near. -/
def roundDiv (num den : Nat) : Nat :=
  let quotient := num / den
  let twice := 2 * (num % den)
  if twice < den then quotient
  else if den < twice then quotient + 1
  else quotient + quotient % 2

/-- The power of two that a magnitude of `quotient` whole units is a multiple of: none below
`2 ^ 53`, and otherwise the one that leaves 53 bits. -/
def binade (quotient : Nat) : Nat := quotient.log2 - 52

/-- The magnitude code nearest to `num / den` units, the even one of two equally near, and
`infinityCode` from half a step above the largest finite magnitude on. -/
def nearestCode (num den : Nat) : Nat :=
  let exponent := binade (num / den)
  min infinityCode (exponent * leadingBit + roundDiv num (den <<< exponent))

theorem nearestCode_le (num den : Nat) : nearestCode num den ≤ infinityCode :=
  Nat.min_le_left _ _

/-- The double of the given sign nearest to `num / den` units. -/
def ofRatio (negative : Bool) (num den : Nat) : Binary64 :=
  ⟨negative, nearestCode num den, Nat.lt_of_le_of_lt (nearestCode_le num den) (by decide)⟩

end ReversePolish.Binary64
