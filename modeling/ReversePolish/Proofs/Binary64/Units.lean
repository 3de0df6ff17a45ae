import Mathlib.Tactic.Ring
import Mathlib.Order.Monotone.Basic
import ReversePolish.Binary64.Rounding

/-!
# Magnitude codes as numbers of units

`units` goes on past the code of infinity, as if there were no largest exponent. As a function on
all natural numbers it is strictly increasing, with the distance `ulp` from one code to the next.

* `units_succ`: the distance of neighbours; hence `units_strictMono`.
* `units_significand`: the code `e * leadingBit + s` stands for `s * 2 ^ e` as long as the
  significand `s` belongs to the exponent `e`, the carry `s = 2 * leadingBit` included.
-/

namespace ReversePolish.Binary64

/-- The distance from the magnitude of a code to the next one. -/
def ulp (code : Nat) : Nat := 2 ^ (code / leadingBit - 1)

theorem leadingBit_pos : 0 < leadingBit := by decide

theorem ulp_pos (code : Nat) : 0 < ulp code := Nat.two_pow_pos _

theorem units_of_lt {code : Nat} (h : code < leadingBit) : units code = code := if_pos h

theorem units_of_le {code : Nat} (h : leadingBit ≤ code) :
    units code = (leadingBit + code % leadingBit) * ulp code := by
  rw [units, if_neg (Nat.not_lt.mpr h), Nat.shiftLeft_eq]
  rfl

/-- An exponent `e` with a significand of 53 bits. -/
theorem units_normal {e s : Nat} (hLow : leadingBit ≤ s) (hHigh : s < 2 * leadingBit) :
    units (e * leadingBit + s) = s * 2 ^ e := by
  have hCode : e * leadingBit + s = (s - leadingBit) + leadingBit * (e + 1) := by
    rw [Nat.mul_comm leadingBit, Nat.add_mul]
    omega
  have hFraction : s - leadingBit < leadingBit := by omega
  have hMod : (e * leadingBit + s) % leadingBit = s - leadingBit := by
    rw [hCode, Nat.add_mul_mod_self_left, Nat.mod_eq_of_lt hFraction]
  have hDiv : (e * leadingBit + s) / leadingBit = e + 1 := by
    rw [hCode, Nat.add_mul_div_left _ _ leadingBit_pos, Nat.div_eq_of_lt hFraction, Nat.zero_add]
  have hLarge : leadingBit ≤ e * leadingBit + s := by omega
  rw [units_of_le hLarge, ulp, hMod, hDiv, Nat.add_sub_cancel, Nat.add_sub_cancel' hLow]

/-- The significand of a code belongs to the exponent `e`: it has 53 bits, or fewer where `e` is
the least exponent, or it has just carried. -/
structure Fits (e s : Nat) : Prop where
  low : e = 0 ∨ leadingBit ≤ s
  high : s ≤ 2 * leadingBit

theorem units_significand {e s : Nat} (h : Fits e s) : units (e * leadingBit + s) = s * 2 ^ e := by
  obtain ⟨hLow, hHigh⟩ := h
  by_cases hSmall : s < leadingBit
  · obtain rfl : e = 0 := by omega
    rw [Nat.zero_mul, Nat.zero_add, units_of_lt hSmall, Nat.pow_zero, Nat.mul_one]
  · by_cases hCarry : s = 2 * leadingBit
    · -- the carry is the first significand of the next exponent
      have hNext : e * leadingBit + s = (e + 1) * leadingBit + leadingBit := by
        rw [hCarry, Nat.add_mul]
        omega
      have hLead : leadingBit < 2 * leadingBit := by
        have := leadingBit_pos
        omega
      rw [hNext, units_normal (Nat.le_refl _) hLead, hCarry, Nat.pow_succ]
      ring
    · exact units_normal (by omega) (by omega)

theorem exists_code_eq (code : Nat) : ∃ e s, code = e * leadingBit + s ∧ s < 2 * leadingBit ∧
    (e = 0 ∨ leadingBit ≤ s) ∧ ulp code = 2 ^ e := by
  by_cases hSmall : code < leadingBit
  · refine ⟨0, code, by omega, by omega, Or.inl rfl, ?_⟩
    rw [ulp, Nat.div_eq_of_lt hSmall]
  · have hDiv : 1 ≤ code / leadingBit :=
      (Nat.one_le_div_iff leadingBit_pos).mpr (Nat.not_lt.mp hSmall)
    have hSplit := Nat.div_add_mod' code leadingBit
    have hMod := Nat.mod_lt code leadingBit_pos
    refine ⟨code / leadingBit - 1, leadingBit + code % leadingBit, ?_, by omega,
      Or.inr (Nat.le_add_right _ _), rfl⟩
    rw [Nat.sub_mul]
    have : leadingBit ≤ code / leadingBit * leadingBit := Nat.le_mul_of_pos_left _ hDiv
    omega

/-- The magnitudes of neighbouring codes. -/
theorem units_succ (code : Nat) : units (code + 1) = units code + ulp code := by
  obtain ⟨e, s, hCode, hHigh, hLow, hUlp⟩ := exists_code_eq code
  have hFits : Fits e s := ⟨hLow, by omega⟩
  have hNext : Fits e (s + 1) := ⟨by omega, by omega⟩
  have hSucc : code + 1 = e * leadingBit + (s + 1) := by omega
  rw [hUlp, hSucc, units_significand hNext, hCode, units_significand hFits]
  ring

theorem units_strictMono : StrictMono units := by
  apply strictMono_nat_of_lt_succ
  intro code
  rw [units_succ]
  have := ulp_pos code
  omega

@[simp] theorem units_zero : units 0 = 0 := rfl

theorem units_infinityCode : units infinityCode = 2 ^ 2098 := by
  have hCode : infinityCode = 2046 * leadingBit + leadingBit := rfl
  have hFits : Fits 2046 leadingBit := ⟨by omega, by omega⟩
  rw [hCode, units_significand hFits]
  decide +kernel

end ReversePolish.Binary64
