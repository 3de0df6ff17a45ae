import ReversePolish.Operator
import ReversePolish.Proofs.Binary64.Arithmetic
import ReversePolish.Proofs.Binary64.Word

/-!
# Applying an operator

An operator takes the right operand first, as it leaves a stack. On finite operands its result is
the exact one, rounded once; the other pairs of operands have a result without a meaning, an
infinity or a zero.

* `exact`, `sign`, `Undefined`: the exact result, the sign of the result, and the pairs of operands
  without a meaning. The first and the last are about the operands as numbers and as classes, so
  that the order of operands can be read off them.
* `apply_rounds_once`: the result for every operator and every pair of words.
-/

namespace ReversePolish.Operator

open Binary64

/-- The exact result. -/
def exact (op : Operator) (right left : ℚ) : ℚ :=
  match op with
  | .add => right + left
  | .sub => left - right
  | .mul => right * left
  | .div => left / right

/-- The sign of a result that has a meaning. A difference has the sign of the sum with the opposite
operand. -/
def sign (op : Operator) (right left : Binary64) : Bool :=
  match op with
  | .add => sumSign right left
  | .sub => sumSign left right.neg
  | .mul => right.negative ^^ left.negative
  | .div => left.negative ^^ right.negative

/-- The result has no meaning. -/
def Undefined (op : Operator) (right left : Binary64) : Prop :=
  match op with
  | .add => UndefinedSum right left
  | .sub => UndefinedDifference left right
  | .mul => UndefinedProduct right left
  | .div => UndefinedQuotient left right

/-- The operator divides, and by a zero. -/
def DividesByZero (op : Operator) (right : Binary64) : Prop := op = .div ∧ right.isZero = true

variable {op : Operator} {right left : Binary64}

theorem apply_rounds (hRight : right.isFinite = true) (hLeft : left.isFinite = true)
    (hDivisor : ¬ op.DividesByZero right) :
    RoundsTo (op.sign right left) (op.exact right.toRat left.toRat) (op.apply right left) := by
  cases op with
  | add => exact add_rounds hRight hLeft
  | sub => exact sub_rounds hLeft hRight
  | mul => exact mul_rounds hRight hLeft
  | div => exact div_rounds hLeft hRight (by simpa [DividesByZero] using hDivisor)

theorem isNaN_apply_iff : (op.apply right left).isNaN = true ↔ op.Undefined right left := by
  cases op with
  | add => exact isNaN_add_iff
  | sub => exact isNaN_sub_iff
  | mul => exact isNaN_mul_iff
  | div => exact isNaN_div_iff

/-- A result that has a meaning is infinite if the left operand is, or the right one of an operator
that does not divide, or if the divisor is a zero. -/
theorem apply_eq_infinity (hDefined : ¬ op.Undefined right left)
    (hInfinite : left.isInfinite = true ∨ (op ≠ .div ∧ right.isInfinite = true) ∨
      op.DividesByZero right) : op.apply right left = infinity (op.sign right left) := by
  cases op with
  | add => exact add_eq_infinity hDefined (by simpa [DividesByZero, or_comm] using hInfinite)
  | sub => exact sub_eq_infinity hDefined (by simpa [DividesByZero] using hInfinite)
  | mul => exact mul_eq_infinity hDefined (by simpa [DividesByZero, or_comm] using hInfinite)
  | div => exact div_eq_infinity hDefined (by simpa [DividesByZero] using hInfinite)

/-- **One rounding.** For the doubles of any two words, the right operand taken first:

* on finite operands the result is the one double that is the exact result rounded to the nearest,
  ties to even, infinite from half a step above the largest finite double on, and with the sign of
  the rule also where it is a zero; only a division by zero is no such case;
* the result is a NaN exactly if an operand is one, or for opposite infinities in a sum and equal
  ones in a difference, a zero times an infinity, a zero by a zero or an infinity by an infinity;
* of the other results a finite number by an infinity is a zero, and the rest are infinities: of the
  sign of the infinite operand in a sum, and of the product of the signs otherwise. -/
theorem apply_rounds_once (op : Operator) (rightBits leftBits : UInt64) :
    let right := ofBits rightBits
    let left := ofBits leftBits
    let result := op.apply right left
    (Interprets rightBits right ∧ Interprets leftBits left ∧ Interprets result.toBits result) ∧
    (right.isFinite = true → left.isFinite = true → ¬ op.DividesByZero right →
      ∀ x, RoundsTo (op.sign right left) (op.exact right.toRat left.toRat) x ↔ x = result) ∧
    (result.isNaN = true ↔ op.Undefined right left) ∧
    (¬ op.Undefined right left →
      (left.isInfinite = true ∨ (op ≠ .div ∧ right.isInfinite = true) ∨ op.DividesByZero right →
        result = infinity (op.sign right left)) ∧
      (op = .div → right.isInfinite = true → result = zero (op.sign right left))) := by
  intro right left result
  refine ⟨⟨interprets_ofBits _, interprets_ofBits _, interprets_toBits _⟩, ?_, isNaN_apply_iff,
    fun hDefined => ⟨apply_eq_infinity hDefined, ?_⟩⟩
  · intro hRight hLeft hDivisor x
    have hRounds := apply_rounds hRight hLeft hDivisor
    exact ⟨fun hx => hx.unique hRounds, fun hx => hx ▸ hRounds⟩
  · rintro rfl hInfinite
    exact div_eq_zero hDefined hInfinite

/-- Minus one half times the least double lies half way and is rounded to a negative zero; one by a
negative zero is a negative infinity, and one by a negative infinity a negative zero. -/
theorem apply_rounds_once_negative_zero :
    let half := ofBits 0xbfe0000000000000
    let least := ofBits 0x0000000000000001
    let one := ofBits 0x3ff0000000000000
    let minusZero := ofBits 0x8000000000000000
    let minusInfinity := ofBits 0xfff0000000000000
    (half.isFinite = true ∧ least.isFinite = true ∧ ¬ mul.DividesByZero half ∧
      mul.apply half least = minusZero ∧
      RoundsTo true (half.toRat * least.toRat) (mul.apply half least)) ∧
    (¬ div.Undefined minusZero one ∧ div.DividesByZero minusZero ∧
      div.apply minusZero one = infinity true) ∧
    (¬ div.Undefined minusInfinity one ∧ minusInfinity.isInfinite = true ∧
      div.apply minusInfinity one = zero true) := by
  intro half least one minusZero minusInfinity
  have hHalf : half.isFinite = true := by decide +kernel
  have hLeast : least.isFinite = true := by decide +kernel
  have hProduct : ¬ mul.DividesByZero half := fun h => nomatch h.1
  have hQuotient : ¬ div.Undefined minusZero one := by
    unfold Undefined UndefinedQuotient
    decide +kernel
  have hDivisor : div.DividesByZero minusZero := ⟨rfl, by decide +kernel⟩
  have hLimit : ¬ div.Undefined minusInfinity one := by
    unfold Undefined UndefinedQuotient
    decide +kernel
  have hInfinite : minusInfinity.isInfinite = true := by decide +kernel
  obtain ⟨-, hRounds, -, -⟩ := apply_rounds_once .mul 0xbfe0000000000000 0x0000000000000001
  obtain ⟨-, -, -, hByZero⟩ := apply_rounds_once .div 0x8000000000000000 0x3ff0000000000000
  obtain ⟨-, -, -, hByInfinity⟩ := apply_rounds_once .div 0xfff0000000000000 0x3ff0000000000000
  refine ⟨⟨hHalf, hLeast, hProduct, by decide +kernel, (hRounds hHalf hLeast hProduct _).mpr rfl⟩,
    ⟨hQuotient, hDivisor, (hByZero hQuotient).1 (Or.inr (Or.inr hDivisor))⟩,
    ⟨hLimit, hInfinite, (hByInfinity hLimit).2 rfl hInfinite⟩⟩

end ReversePolish.Operator
