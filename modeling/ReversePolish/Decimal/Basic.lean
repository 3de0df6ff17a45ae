import ReversePolish.Binary64.Rounding

/-!
# Decimals and the doubles nearest to them

A decimal is a sign, a coefficient and a power of ten. Its nearest double is that of the ratio
`coefficient * 10 ^ exponent * unitsPerOne`. Two bounds keep the powers small, so that an
exponent of any length is read: from `10 ^ 309` on every double is infinite, and a magnitude
below half a unit is zero.
-/

namespace ReversePolish

/-- The number `coefficient * 10 ^ exponent` with a sign; a zero has a sign too. -/
structure Decimal where
  negative : Bool
  coefficient : Nat
  exponent : Int
  deriving DecidableEq

namespace Decimal

open Binary64

/-- The magnitude code nearest to `coefficient * 10 ^ exponent`. A coefficient has less than
`coefficient.log2 + 2` bits, and `10 ^ k` has more than `3 * k`. -/
def nearestCode (coefficient : Nat) (exponent : Int) : Nat :=
  if coefficient = 0 then 0
  else match exponent with
    | .ofNat k =>
      if 309 ≤ k then infinityCode
      else Binary64.nearestCode (coefficient * Nat.pow 10 k * unitsPerOne) 1
    | .negSucc k =>
      if coefficient.log2 + 1076 ≤ 3 * (k + 1) then 0
      else Binary64.nearestCode (coefficient * unitsPerOne) (Nat.pow 10 (k + 1))

theorem nearestCode_le (coefficient : Nat) (exponent : Int) :
    nearestCode coefficient exponent ≤ infinityCode := by
  unfold nearestCode
  split
  · exact Nat.zero_le infinityCode
  · cases exponent with
    | ofNat k =>
      dsimp only
      split
      · exact Nat.le_refl infinityCode
      · exact Binary64.nearestCode_le (coefficient * Nat.pow 10 k * unitsPerOne) 1
    | negSucc k =>
      dsimp only
      split
      · exact Nat.zero_le infinityCode
      · exact Binary64.nearestCode_le (coefficient * unitsPerOne) (Nat.pow 10 (k + 1))

/-- The double nearest to the decimal, with the decimal's sign. -/
def toBinary64 (d : Decimal) : Binary64 :=
  ⟨d.negative, nearestCode d.coefficient d.exponent,
    Nat.lt_of_le_of_lt (nearestCode_le _ _) (by decide)⟩

end Decimal

end ReversePolish
