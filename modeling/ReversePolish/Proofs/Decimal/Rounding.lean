import ReversePolish.Decimal.Basic
import ReversePolish.Proofs.Binary64.Rounding

/-!
# Rounding a decimal

A decimal is rounded as its exact number, whatever the length of its exponent. The two bounds that
keep the powers small only cut off decimals whose rounding is infinite (`two_pow_le_of_large`) or
zero (`le_of_small`).
-/

namespace ReversePolish

open Binary64

theorem Binary64.unitsPerOne_eq : unitsPerOne = 2 ^ 1074 := by
  have hShift : ∀ n : Nat, 1 <<< n = 2 ^ n := Nat.one_shiftLeft
  rw [unitsPerOne, hShift]

/-- Up to half a unit a number is rounded to zero. -/
theorem Binary64.roundsToCode_zero {u : ℚ} (h : u ≤ 1 / 2) : RoundsToCode u 0 := by
  have hMid : midpoint 0 = 1 / 2 := by
    have hUlp : ulp 0 = 1 := rfl
    rw [midpoint, hUlp, units_zero, Nat.cast_zero, Nat.cast_one, zero_add]
  refine ⟨fun k hk => absurd hk (Nat.not_lt_zero k), ?_⟩
  rw [hMid]
  rcases h.lt_or_eq with hLess | hEq
  · exact Or.inl hLess
  · exact Or.inr ⟨hEq, rfl⟩

theorem Binary64.infinityCode_le_of_large {u : ℚ} {code : Nat} (h : RoundsToCode u code)
    (hLarge : 2 ^ 2098 ≤ u) : infinityCode ≤ code := by
  have hUnits : (units infinityCode : ℚ) = 2 ^ 2098 := by
    rw [units_infinityCode, Nat.cast_pow, Nat.cast_ofNat]
  rw [← hUnits] at hLarge
  exact (roundsToCode_units infinityCode).mono h hLarge

namespace Decimal

/-- The exact magnitude of a decimal. -/
def size (d : Decimal) : ℚ := d.coefficient * 10 ^ d.exponent

theorem size_nonneg (d : Decimal) : 0 ≤ d.size :=
  mul_nonneg (Nat.cast_nonneg _) (zpow_nonneg (by norm_num) _)

/-! ## The two bounds -/

theorem two_pow_le_of_large {coefficient k : Nat} (hNonzero : coefficient ≠ 0) (hk : 309 ≤ k) :
    2 ^ 2098 ≤ coefficient * 10 ^ k * 2 ^ 1074 := by
  have hTen : 2 ^ 1024 ≤ 10 ^ 309 := by decide +kernel
  have hStep : 10 ^ 309 ≤ 10 ^ k := pow_le_pow_right₀ (by decide) hk
  calc 2 ^ 2098 = 2 ^ 1024 * 2 ^ 1074 := by rw [← pow_add]
    _ ≤ 10 ^ k * 2 ^ 1074 :=
      Nat.mul_le_mul_right _ (hTen.trans hStep)
    _ ≤ coefficient * 10 ^ k * 2 ^ 1074 :=
      Nat.mul_le_mul_right _ (Nat.le_mul_of_pos_left _ (Nat.pos_of_ne_zero hNonzero))

theorem le_of_small {coefficient k : Nat} (hk : coefficient.log2 + 1076 ≤ 3 * k) :
    coefficient * 2 ^ 1075 ≤ 10 ^ k := by
  have hBits : coefficient ≤ 2 ^ (coefficient.log2 + 1) := Nat.lt_log2_self.le
  calc coefficient * 2 ^ 1075 ≤ 2 ^ (coefficient.log2 + 1) * 2 ^ 1075 :=
        Nat.mul_le_mul_right _ hBits
    _ = 2 ^ (coefficient.log2 + 1 + 1075) := by rw [← pow_add]
    _ ≤ 2 ^ (3 * k) := Nat.pow_le_pow_right (by decide) (by omega)
    _ = (2 ^ 3) ^ k := pow_mul 2 3 k
    _ ≤ 10 ^ k := Nat.pow_le_pow_left (by decide) k

/-! ## Rounding -/

theorem nearestCode_spec (coefficient : Nat) (exponent : Int) :
    ∃ code, RoundsToCode (coefficient * 10 ^ exponent * 2 ^ 1074) code ∧
      nearestCode coefficient exponent = min infinityCode code := by
  unfold nearestCode
  split
  · rename_i hZero
    refine ⟨0, roundsToCode_zero ?_, by simp⟩
    rw [hZero, Nat.cast_zero, zero_mul, zero_mul]
    norm_num
  · rename_i hNonzero
    cases exponent with
    | ofNat k =>
      have hRatio : ((coefficient * Nat.pow 10 k * unitsPerOne : Nat) : ℚ) / (1 : Nat) =
          coefficient * 10 ^ (Int.ofNat k) * 2 ^ 1074 := by
        rw [unitsPerOne_eq, Nat.pow_eq, Int.ofNat_eq_natCast, zpow_natCast, Nat.cast_one, div_one,
          Nat.cast_mul, Nat.cast_mul, Nat.cast_pow, Nat.cast_pow, Nat.cast_ofNat, Nat.cast_ofNat]
      obtain ⟨code, hCode, hMin⟩ :=
        Binary64.nearestCode_spec (coefficient * Nat.pow 10 k * unitsPerOne) Nat.one_pos
      dsimp only
      split
      · rename_i hk
        have hLarge : infinityCode ≤ code := by
          apply infinityCode_le_of_large hCode
          rw [unitsPerOne_eq, Nat.pow_eq, Nat.cast_one, div_one]
          exact_mod_cast two_pow_le_of_large hNonzero hk
        exact ⟨code, hRatio ▸ hCode, (Nat.min_eq_left hLarge).symm⟩
      · exact ⟨code, hRatio ▸ hCode, hMin⟩
    | negSucc k =>
      have hPow : 0 < Nat.pow 10 (k + 1) := Nat.pow_pos (by decide)
      have hRatio : ((coefficient * unitsPerOne : Nat) : ℚ) / (Nat.pow 10 (k + 1) : Nat) =
          coefficient * 10 ^ (Int.negSucc k) * 2 ^ 1074 := by
        rw [unitsPerOne_eq, Nat.pow_eq, zpow_negSucc, Nat.cast_mul, Nat.cast_pow, Nat.cast_pow,
          Nat.cast_ofNat, Nat.cast_ofNat, div_eq_mul_inv, mul_right_comm]
      dsimp only
      split
      · rename_i hk
        refine ⟨0, roundsToCode_zero ?_, by simp⟩
        have hSmall : (coefficient : ℚ) * 2 ^ 1075 ≤ 10 ^ (k + 1) := by
          exact_mod_cast le_of_small hk
        have hTen : (0 : ℚ) < 10 ^ (k + 1) := by positivity
        rw [pow_succ] at hSmall
        rw [zpow_negSucc, mul_right_comm, ← div_eq_mul_inv, div_le_div_iff₀ hTen two_pos, one_mul,
          mul_assoc]
        exact hSmall
      · obtain ⟨code, hCode, hMin⟩ := Binary64.nearestCode_spec (coefficient * unitsPerOne) hPow
        exact ⟨code, hRatio ▸ hCode, hMin⟩

/-- The double of a decimal is its number, rounded. -/
theorem rounded_toBinary64 (d : Decimal) : Rounded d.negative d.size d.toBinary64 := by
  refine ⟨rfl, ?_⟩
  rw [size]
  exact nearestCode_spec d.coefficient d.exponent

end Decimal

end ReversePolish
