import ReversePolish.Proofs.Binary64.Rounding

/-!
# The fields of a word

A word of 64 bits is a sign, an exponent of 11 bits and a fraction of 52 bits. Where the exponent is
zero the fraction alone counts units of `2 ^ -1074`; below the largest exponent a one stands in
front of the fraction; with the largest one the word is an infinity or a NaN. `interprets_ofBits`
says that this is what a double is, with its sign and its magnitude code.
-/

namespace ReversePolish.Binary64

variable {bits : UInt64}

def exponentField (bits : UInt64) : Nat := bits.toNat / 2 ^ 52 % 2 ^ 11

def fractionField (bits : UInt64) : Nat := bits.toNat % 2 ^ 52

/-- The magnitude of a word with an exponent below the largest one. -/
def fieldValue (bits : UInt64) : ℚ :=
  if exponentField bits = 0 then fractionField bits / 2 ^ 1074
  else (2 ^ 52 + fractionField bits) * 2 ^ exponentField bits / 2 ^ 1075

/-- The double is what the fields of the word stand for. -/
structure Interprets (bits : UInt64) (x : Binary64) : Prop where
  sign : x.negative = decide (2 ^ 63 ≤ bits.toNat)
  finite : x.isFinite = true ↔ exponentField bits < 2047
  infinite : x.isInfinite = true ↔ exponentField bits = 2047 ∧ fractionField bits = 0
  nan : x.isNaN = true ↔ exponentField bits = 2047 ∧ fractionField bits ≠ 0
  even : x.magnitude % 2 = fractionField bits % 2
  value : x.toRat = withSign x.negative (fieldValue bits)

/-- The magnitude code is the exponent with the fraction behind it. -/
theorem magnitude_ofBits (bits : UInt64) :
    (ofBits bits).magnitude = exponentField bits * leadingBit + fractionField bits := by
  have hBits := bits.toNat_lt
  simp only [ofBits, exponentField, fractionField, leadingBit]
  omega

theorem exponentField_le (bits : UInt64) : exponentField bits ≤ 2047 := by
  unfold exponentField
  omega

theorem fractionField_lt (bits : UInt64) : fractionField bits < leadingBit := by
  unfold fractionField leadingBit
  omega

theorem codeValue_fields (bits : UInt64) :
    codeValue (exponentField bits * leadingBit + fractionField bits) = fieldValue bits := by
  have hFraction := fractionField_lt bits
  unfold fieldValue codeValue
  split
  · rename_i hZero
    rw [hZero, Nat.zero_mul, Nat.zero_add, units_of_lt hFraction]
  · rename_i hNonzero
    obtain ⟨e, hExponent⟩ := Nat.exists_eq_succ_of_ne_zero hNonzero
    have hCode : exponentField bits * leadingBit + fractionField bits =
        e * leadingBit + (leadingBit + fractionField bits) := by
      rw [hExponent, Nat.succ_mul, Nat.add_assoc]
    have hLeading : (leadingBit : ℚ) = 2 ^ 52 := by norm_num [leadingBit]
    rw [hCode, units_normal (by omega) (by omega), hExponent, pow_succ _ e, pow_succ _ 1074,
      ← mul_assoc, mul_div_mul_right _ _ two_ne_zero, Nat.cast_mul, Nat.cast_add, hLeading,
      Nat.cast_pow, Nat.cast_ofNat]

theorem interprets_ofBits (bits : UInt64) : Interprets bits (ofBits bits) := by
  have hCode := magnitude_ofBits bits
  have hExponent := exponentField_le bits
  have hFraction := fractionField_lt bits
  have hLimit : infinityCode = 2047 * leadingBit := rfl
  refine ⟨rfl, ?_, ?_, ?_, ?_, ?_⟩
  · rw [isFinite, decide_eq_true_eq, hCode, hLimit]
    unfold leadingBit at *
    omega
  · rw [isInfinite, beq_iff_eq, hCode, hLimit]
    unfold leadingBit at *
    omega
  · rw [isNaN, decide_eq_true_eq, hCode, hLimit]
    unfold leadingBit at *
    omega
  · rw [hCode]
    unfold leadingBit
    omega
  · rw [toRat, hCode, codeValue_fields]

theorem interprets_toBits (x : Binary64) : Interprets x.toBits x := by
  have h := interprets_ofBits x.toBits
  rwa [ofBits_toBits] at h

end ReversePolish.Binary64
