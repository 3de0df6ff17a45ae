import Mathlib.Data.Rat.Cast.Order
import Mathlib.Tactic.FieldSimp
import Mathlib.Tactic.Linarith
import Mathlib.Tactic.Positivity
import ReversePolish.Proofs.Binary64.Units

/-!
# The nearest code

A number of units is rounded to the code between whose half-way points it lies; on a half-way point
to the even code. Half-way points increase with the code, so there is one such code only and it
grows with the number.

* `roundsToNat_roundDiv`: a division is rounded to the nearest natural number.
* `binade_spec`, `roundsToCode_significand`: the exponent leaves a significand of 53 bits, and
  rounding the significand is rounding to its code, also where it carries.
* `nearestCode_spec`: the code of a ratio, cut off at the code of infinity.
-/

namespace ReversePolish.Binary64

/-! ## Half-way points -/

/-- Half way from the magnitude of a code to the next one, in units. -/
def midpoint (code : Nat) : ℚ := units code + ulp code / 2

theorem midpoint_add (code : Nat) : midpoint code + ulp code / 2 = units (code + 1) := by
  rw [midpoint, units_succ, Nat.cast_add]
  ring

theorem units_lt_midpoint (code : Nat) : (units code : ℚ) < midpoint code := by
  have hUlp : (0 : ℚ) < ulp code := by exact_mod_cast ulp_pos code
  rw [midpoint]
  linarith

theorem midpoint_lt_units (code : Nat) : midpoint code < units (code + 1) := by
  have hUlp : (0 : ℚ) < ulp code := by exact_mod_cast ulp_pos code
  rw [← midpoint_add]
  linarith

theorem midpoint_strictMono : StrictMono midpoint := by
  apply strictMono_nat_of_lt_succ
  intro code
  exact (midpoint_lt_units code).trans (units_lt_midpoint (code + 1))

/-- The code to which `q` units are rounded: `q` lies between the half-way points on both sides of
it, and on one of them only if the code is even. -/
structure RoundsToCode (q : ℚ) (code : Nat) : Prop where
  below : ∀ k < code, midpoint k < q ∨ (midpoint k = q ∧ code % 2 = 0)
  above : q < midpoint code ∨ (q = midpoint code ∧ code % 2 = 0)

namespace RoundsToCode

variable {q q' : ℚ} {code code' : Nat}

/-- Among the codes below only the nearest one counts. -/
theorem of_pred (hBelow : ∀ k, k + 1 = code → midpoint k < q ∨ (midpoint k = q ∧ code % 2 = 0))
    (hAbove : q < midpoint code ∨ (q = midpoint code ∧ code % 2 = 0)) : RoundsToCode q code := by
  refine ⟨?_, hAbove⟩
  intro k hk
  obtain ⟨last, rfl⟩ : ∃ last, last + 1 = code := ⟨code - 1, by omega⟩
  by_cases hLast : k = last
  · rw [hLast]
    exact hBelow last rfl
  · have hLess : midpoint k < midpoint last := midpoint_strictMono (by omega)
    rcases hBelow last rfl with h | ⟨h, -⟩
    · exact Or.inl (hLess.trans h)
    · exact Or.inl (h ▸ hLess)

theorem lt_iff (h : RoundsToCode q code) (k : Nat) :
    k < code ↔ midpoint k < q ∨ (midpoint k = q ∧ k % 2 = 1) := by
  constructor
  · intro hk
    rcases h.below k hk with hLess | ⟨hEq, hEven⟩
    · exact Or.inl hLess
    · refine Or.inr ⟨hEq, ?_⟩
      -- a half-way point further down would lie strictly below `q`
      have hNext : ¬ k + 1 < code := by
        intro hFar
        have hMid : midpoint k < midpoint (k + 1) := midpoint_strictMono (Nat.lt_succ_self k)
        rcases h.below (k + 1) hFar with h' | ⟨h', -⟩
        · linarith
        · linarith
      omega
  · intro hk
    by_contra hNot
    have hMid : midpoint code ≤ midpoint k := midpoint_strictMono.monotone (Nat.not_lt.mp hNot)
    rcases h.above with hLess | ⟨hEq, hEven⟩
    · rcases hk with hk | ⟨hk, -⟩
      · linarith
      · linarith
    · rcases hk with hk | ⟨hk, hOdd⟩
      · linarith
      · have hSame : code = k := midpoint_strictMono.injective (hEq.symm.trans hk.symm)
        omega

theorem mono (h : RoundsToCode q code) (h' : RoundsToCode q' code') (hq : q ≤ q') :
    code ≤ code' := by
  by_contra hNot
  have hLess := (h.lt_iff code').mp (Nat.not_le.mp hNot)
  have hSelf : code' < code' := by
    apply (h'.lt_iff code').mpr
    rcases hLess with hLess | ⟨hEq, hOdd⟩
    · exact Or.inl (hLess.trans_le hq)
    · rcases hq.lt_or_eq with hq | rfl
      · exact Or.inl (hEq ▸ hq)
      · exact Or.inr ⟨hEq, hOdd⟩
  omega

theorem unique (h : RoundsToCode q code) (h' : RoundsToCode q code') : code = code' :=
  Nat.le_antisymm (h.mono h' le_rfl) (h'.mono h le_rfl)

/-- What is rounded to one code has no gaps. -/
theorem between {r : ℚ} (h : RoundsToCode q code) (h' : RoundsToCode q' code) (hLow : q ≤ r)
    (hHigh : r ≤ q') : RoundsToCode r code := by
  refine ⟨?_, ?_⟩
  · intro k hk
    rcases h.below k hk with hLess | ⟨hEq, hEven⟩
    · exact Or.inl (hLess.trans_le hLow)
    · rcases hLow.lt_or_eq with hLess | rfl
      · exact Or.inl (hEq ▸ hLess)
      · exact Or.inr ⟨hEq, hEven⟩
  · rcases h'.above with hLess | ⟨hEq, hEven⟩
    · exact Or.inl (hHigh.trans_lt hLess)
    · rcases hHigh.lt_or_eq with hLess | rfl
      · exact Or.inl (hEq ▸ hLess)
      · exact Or.inr ⟨hEq, hEven⟩

end RoundsToCode

/-- The magnitude of a code is rounded to that code. -/
theorem roundsToCode_units (code : Nat) : RoundsToCode (units code) code := by
  apply RoundsToCode.of_pred
  · rintro k rfl
    exact Or.inl (midpoint_lt_units k)
  · exact Or.inl (units_lt_midpoint code)

/-! ## Rounding of a ratio -/

theorem cast_div_eq (num : Nat) {den : Nat} (hDen : 0 < den) :
    (num : ℚ) / den = (num / den : Nat) + ((num % den : Nat) : ℚ) / den := by
  have hPos : (0 : ℚ) < den := by exact_mod_cast hDen
  have hSplit : ((den * (num / den) + num % den : Nat) : ℚ) = num := by rw [Nat.div_add_mod]
  rw [← hSplit, Nat.cast_add, Nat.cast_mul]
  field_simp

/-- The number `u` is rounded to the natural number `s`: it is at most one half away, and one half
only if `s` is even. -/
structure RoundsToNat (u : ℚ) (s : Nat) : Prop where
  below : (s : ℚ) - 1 / 2 < u ∨ ((s : ℚ) - 1 / 2 = u ∧ s % 2 = 0)
  above : u < s + 1 / 2 ∨ (u = s + 1 / 2 ∧ s % 2 = 0)

theorem roundsToNat_roundDiv (num : Nat) {den : Nat} (hDen : 0 < den) :
    RoundsToNat (num / den) (roundDiv num den) := by
  have hPos : (0 : ℚ) < den := by exact_mod_cast hDen
  have hLow : (0 : ℚ) ≤ ((num % den : Nat) : ℚ) / den := by positivity
  have hHigh : ((num % den : Nat) : ℚ) / den < 1 := by
    rw [div_lt_one hPos]
    exact_mod_cast Nat.mod_lt num hDen
  rw [cast_div_eq num hDen]
  unfold roundDiv
  dsimp only
  split
  · rename_i hDown
    have hHalf : ((num % den : Nat) : ℚ) / den < 1 / 2 := by
      rw [div_lt_iff₀ hPos]
      have : (2 : ℚ) * (num % den : Nat) < den := by exact_mod_cast hDown
      linarith
    exact ⟨Or.inl (by linarith), Or.inl (by linarith)⟩
  · split
    · rename_i hUp
      have hHalf : 1 / 2 < ((num % den : Nat) : ℚ) / den := by
        rw [lt_div_iff₀ hPos]
        have : (den : ℚ) < 2 * (num % den : Nat) := by exact_mod_cast hUp
        linarith
      constructor <;> rw [Nat.cast_add_one] <;> exact Or.inl (by linarith)
    · rename_i hNotDown hNotUp
      have hTie : (2 : ℚ) * (num % den : Nat) = den := by
        exact_mod_cast (by omega : 2 * (num % den) = den)
      have hHalf : ((num % den : Nat) : ℚ) / den = 1 / 2 := by
        rw [div_eq_iff hPos.ne']
        linarith
      rw [hHalf]
      rcases Nat.mod_two_eq_zero_or_one (num / den) with hEven | hOdd
      · rw [hEven, Nat.add_zero]
        exact ⟨Or.inl (by linarith), Or.inr ⟨rfl, hEven⟩⟩
      · rw [hOdd]
        constructor
        · rw [Nat.cast_add_one]
          exact Or.inr ⟨by ring, by omega⟩
        · rw [Nat.cast_add_one]
          exact Or.inl (by linarith)

theorem roundDiv_bounds (num den : Nat) :
    num / den ≤ roundDiv num den ∧ roundDiv num den ≤ num / den + 1 := by
  unfold roundDiv
  dsimp only
  split
  · omega
  · split <;> omega

theorem pow_le_ulp {e s : Nat} (h : e = 0 ∨ leadingBit ≤ s) : 2 ^ e ≤ ulp (e * leadingBit + s) := by
  rcases h with rfl | h
  · exact ulp_pos _
  · apply Nat.pow_le_pow_right (by decide)
    have : e + 1 ≤ (e * leadingBit + s) / leadingBit := by
      rw [Nat.le_div_iff_mul_le leadingBit_pos, Nat.add_mul]
      omega
    omega

/-- Rounding to a significand is rounding to its code. A ratio is not below the least significand
of 53 bits, so that the closer neighbour below a power of two does no harm. -/
theorem roundsToCode_significand {u : ℚ} {e s : Nat} (hFits : Fits e s) (hRound : RoundsToNat u s)
    (hLeast : e = 0 ∨ (leadingBit : ℚ) ≤ u) : RoundsToCode (u * 2 ^ e) (e * leadingBit + s) := by
  have hPow : (0 : ℚ) < 2 ^ e := by positivity
  have hUnits : (units (e * leadingBit + s) : ℚ) = s * 2 ^ e := by
    rw [units_significand hFits]
    push_cast
    ring
  have hParity : (e * leadingBit + s) % 2 = s % 2 := by
    have : leadingBit % 2 = 0 := rfl
    rw [Nat.add_mod, Nat.mul_mod, this]
    omega
  apply RoundsToCode.of_pred
  · intro k hk
    rw [hParity]
    have hMid : midpoint k = s * 2 ^ e - ulp k / 2 := by
      have := midpoint_add k
      rw [hk, hUnits] at this
      linarith
    rw [hMid]
    by_cases hGap : e = 0 ∨ leadingBit < s
    · -- the neighbour below has the same exponent
      have hUlp : (2 : ℚ) ^ e ≤ ulp k := by
        have hPositive : 0 < s := by rcases hGap with rfl | hGap <;> omega
        have hCode : k = e * leadingBit + (s - 1) := by omega
        rw [hCode]
        exact_mod_cast pow_le_ulp (by omega)
      rcases hRound.below with hLess | ⟨hEq, hEven⟩
      · have := mul_lt_mul_of_pos_right hLess hPow
        exact Or.inl (by linarith)
      · have : ((s : ℚ) - 1 / 2) * 2 ^ e = u * 2 ^ e := by rw [hEq]
        rcases hUlp.lt_or_eq with hUlp | hUlp
        · exact Or.inl (by linarith)
        · exact Or.inr ⟨by linarith, hEven⟩
    · have hSignificand : s = leadingBit := by
        have := hFits.low
        omega
      have hLow : (leadingBit : ℚ) ≤ u := hLeast.resolve_left (by omega)
      have hUlp : (0 : ℚ) < ulp k := by exact_mod_cast ulp_pos k
      have := mul_le_mul_of_nonneg_right hLow hPow.le
      rw [hSignificand]
      exact Or.inl (by linarith)
  · rw [hParity, midpoint, hUnits]
    have hUlp : (2 : ℚ) ^ e ≤ ulp (e * leadingBit + s) := by
      exact_mod_cast pow_le_ulp hFits.low
    rcases hRound.above with hLess | ⟨hEq, hEven⟩
    · have := mul_lt_mul_of_pos_right hLess hPow
      exact Or.inl (by linarith)
    · have : u * 2 ^ e = (s + 1 / 2) * 2 ^ e := by rw [hEq]
      rcases hUlp.lt_or_eq with hUlp | hUlp
      · exact Or.inl (by linarith)
      · exact Or.inr ⟨by linarith, hEven⟩

/-! ## The code of a ratio -/

/-- The exponent leaves 53 bits. -/
theorem binade_spec (quotient : Nat) :
    quotient / 2 ^ binade quotient < 2 * leadingBit ∧
      (binade quotient = 0 ∨ leadingBit ≤ quotient / 2 ^ binade quotient) := by
  have hBit : leadingBit = 2 ^ 52 := rfl
  have hPow : 0 < 2 ^ binade quotient := Nat.two_pow_pos _
  constructor
  · rw [Nat.div_lt_iff_lt_mul hPow, hBit, ← Nat.pow_succ', ← Nat.pow_add]
    have hLog : quotient.log2 + 1 ≤ 52 + 1 + binade quotient := by
      unfold binade
      omega
    exact Nat.lt_log2_self.trans_le (Nat.pow_le_pow_right (by decide) hLog)
  · by_cases hSmall : quotient.log2 ≤ 52
    · exact Or.inl (Nat.sub_eq_zero_of_le hSmall)
    · refine Or.inr ?_
      have hNonzero : quotient ≠ 0 := by
        rintro rfl
        exact hSmall (by decide)
      have hLog : 52 + binade quotient = quotient.log2 := by
        unfold binade
        omega
      rw [Nat.le_div_iff_mul_le hPow, hBit, ← Nat.pow_add, hLog]
      exact Nat.log2_self_le hNonzero

/-- A ratio is rounded to its nearest code. -/
theorem nearestCode_spec (num : Nat) {den : Nat} (hDen : 0 < den) :
    ∃ code, RoundsToCode (num / den) code ∧ nearestCode num den = min infinityCode code := by
  set e := binade (num / den) with hExponent
  have hPow : 0 < 2 ^ e := Nat.two_pow_pos e
  have hScaled : 0 < den * 2 ^ e := Nat.mul_pos hDen hPow
  obtain ⟨hHigh, hLow⟩ := binade_spec (num / den)
  rw [← hExponent, Nat.div_div_eq_div_mul] at hHigh hLow
  set s := roundDiv num (den * 2 ^ e) with hSignificand
  have hRound : RoundsToNat (num / (den * 2 ^ e : Nat)) s := roundsToNat_roundDiv num hScaled
  have hBounds : num / (den * 2 ^ e) ≤ s ∧ s ≤ num / (den * 2 ^ e) + 1 := roundDiv_bounds _ _
  have hFits : Fits e s := ⟨by omega, by omega⟩
  have hLeast : e = 0 ∨ (leadingBit : ℚ) ≤ num / (den * 2 ^ e : Nat) := by
    rcases hLow with hLow | hLow
    · exact Or.inl hLow
    · refine Or.inr ?_
      rw [le_div_iff₀ (by exact_mod_cast hScaled)]
      exact_mod_cast (Nat.le_div_iff_mul_le hScaled).mp hLow
  refine ⟨e * leadingBit + s, ?_, ?_⟩
  · have hQuotient : (num : ℚ) / den = num / (den * 2 ^ e : Nat) * 2 ^ e := by
      have : (0 : ℚ) < den := by exact_mod_cast hDen
      push_cast
      field_simp
    rw [hQuotient]
    exact roundsToCode_significand hFits hRound hLeast
  · rw [nearestCode, ← hExponent, Nat.shiftLeft_eq]

end ReversePolish.Binary64
