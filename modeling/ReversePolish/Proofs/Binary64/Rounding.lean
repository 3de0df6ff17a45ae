import Mathlib.Order.WithBot
import ReversePolish.Binary64.Arithmetic
import ReversePolish.Proofs.Binary64.Nearest

/-!
# Rounding to the nearest double

`RoundsTo` says with exact values and distances only what it is for a double to be a number rounded
to the nearest, ties to even. `Rounded` says the same with codes, and is what calculations satisfy.

* `RoundsToCode.nearer_or_tie`: the code of a number is nearer to it than every other code, or as
  near and even.
* `Rounded.isFinite_iff`, `Rounded.eq_zero_iff`: where overflow begins, and how far zero reaches.
* `Rounded.roundsTo`: rounding by codes is rounding to the nearest.
* `Rounded.extended_le`: rounding is monotone, with both infinities at the ends of the line.
* `RoundsTo.unique`: a number with a sign is rounded to one double only.
-/

namespace ReversePolish.Binary64

/-! ## Exact values -/

/-- A magnitude with its sign. -/
def withSign (negative : Bool) (p : ℚ) : ℚ := if negative then -p else p

/-- The exact magnitude of a code. -/
def codeValue (code : Nat) : ℚ := units code / 2 ^ 1074

/-- The exact value of a finite double. -/
def toRat (x : Binary64) : ℚ := withSign x.negative (codeValue x.magnitude)

/-- The double `x` is finite and nearest to `q` among the finite doubles, and its significand is
even if another number is equally near. -/
structure IsNearest (q : ℚ) (x : Binary64) : Prop where
  finite : x.isFinite = true
  abs_sub_le : ∀ y : Binary64, y.isFinite = true → |x.toRat - q| ≤ |y.toRat - q|
  even : ∀ y : Binary64, y.isFinite = true → y.toRat ≠ x.toRat → |y.toRat - q| = |x.toRat - q| →
    x.magnitude % 2 = 0

/-- Half way from the largest finite double to the next power of two. -/
def overflow : ℚ := 2 ^ 1024 - 2 ^ 970

/-- The double `x` is `q` rounded to the nearest, with the given sign also where it is a zero. -/
structure RoundsTo (negative : Bool) (q : ℚ) (x : Binary64) : Prop where
  sign : x.negative = negative
  nearest : |q| < overflow → IsNearest q x
  infinite : overflow ≤ |q| → x = infinity negative

/-- A double as a point of the line with both infinities. -/
def extended (x : Binary64) : WithBot (WithTop ℚ) :=
  if x.isFinite then ((x.toRat : WithTop ℚ) : WithBot (WithTop ℚ))
  else if x.negative then ⊥ else ((⊤ : WithTop ℚ) : WithBot (WithTop ℚ))

theorem scale_pos : (0 : ℚ) < 2 ^ 1074 := pow_pos two_pos 1074

@[simp] theorem codeValue_zero : codeValue 0 = 0 := by
  rw [codeValue, units_zero, Nat.cast_zero, zero_div]

theorem codeValue_nonneg (code : Nat) : 0 ≤ codeValue code :=
  div_nonneg (Nat.cast_nonneg _) scale_pos.le

theorem codeValue_monotone : Monotone codeValue := by
  intro k l hkl
  apply div_le_div_of_nonneg_right _ scale_pos.le
  exact_mod_cast units_strictMono.monotone hkl

theorem abs_codeValue_sub (code : Nat) (p : ℚ) :
    |codeValue code - p| = |(units code : ℚ) - p * 2 ^ 1074| / 2 ^ 1074 := by
  rw [codeValue, div_sub' scale_pos.ne', abs_div, abs_of_pos scale_pos, mul_comm]

theorem abs_withSign_sub (negative : Bool) (p q : ℚ) :
    |withSign negative p - withSign negative q| = |p - q| := by
  cases negative
  · rfl
  · have hNeg : withSign true p - withSign true q = -(p - q) := by
      simp only [withSign, if_true]
      ring
    rw [hNeg, abs_neg]

theorem abs_withSign (negative : Bool) {p : ℚ} (hp : 0 ≤ p) : |withSign negative p| = p := by
  cases negative
  · exact abs_of_nonneg hp
  · simp only [withSign, if_true, abs_neg]
    exact abs_of_nonneg hp

/-! ## Distances of codes -/

theorem abs_sub_lt_of_lt {a b q : ℚ} (hab : a < b) (h : 2 * q < a + b) : |a - q| < |b - q| := by
  have := le_abs_self (b - q)
  rw [abs_lt]
  constructor <;> linarith

theorem abs_sub_lt_of_gt {a b q : ℚ} (hab : a < b) (h : a + b < 2 * q) : |b - q| < |a - q| := by
  have := neg_le_abs (a - q)
  rw [abs_lt]
  constructor <;> linarith

theorem abs_sub_eq_of_eq {a b q : ℚ} (h : a + b = 2 * q) : |a - q| = |b - q| := by
  have hNeg : a - q = -(b - q) := by linarith
  rw [hNeg, abs_neg]

/-- Every other code is further away, or it is as far away and the code is even. -/
theorem RoundsToCode.nearer_or_tie {u : ℚ} {code : Nat} (h : RoundsToCode u code) {k : Nat}
    (hk : k ≠ code) : |(units code : ℚ) - u| < |(units k : ℚ) - u| ∨
      (|(units code : ℚ) - u| = |(units k : ℚ) - u| ∧ code % 2 = 0) := by
  rcases Nat.lt_or_gt_of_ne hk with hk | hk
  · -- the half-way point below the code decides
    obtain ⟨last, rfl⟩ : ∃ last, code = last + 1 := ⟨code - 1, by omega⟩
    have hUnits : (units k : ℚ) < units (last + 1) := by exact_mod_cast units_strictMono hk
    have hFar : (units k : ℚ) ≤ units last := by
      exact_mod_cast units_strictMono.monotone (Nat.lt_succ_iff.mp hk)
    have hMid : (units last : ℚ) + units (last + 1) = 2 * midpoint last := by
      rw [← midpoint_add, midpoint]
      ring
    rcases h.below last (Nat.lt_succ_self last) with hLess | ⟨hEq, hEven⟩
    · exact Or.inl (abs_sub_lt_of_gt hUnits (by linarith))
    · rcases hFar.lt_or_eq with hFar | hNext
      · exact Or.inl (abs_sub_lt_of_gt hUnits (by linarith))
      · exact Or.inr ⟨(abs_sub_eq_of_eq (by linarith)).symm, hEven⟩
  · have hUnits : (units code : ℚ) < units k := by exact_mod_cast units_strictMono hk
    have hFar : (units (code + 1) : ℚ) ≤ units k := by
      exact_mod_cast units_strictMono.monotone (Nat.succ_le_iff.mpr hk)
    have hMid : (units code : ℚ) + units (code + 1) = 2 * midpoint code := by
      rw [← midpoint_add, midpoint]
      ring
    rcases h.above with hLess | ⟨hEq, hEven⟩
    · exact Or.inl (abs_sub_lt_of_lt hUnits (by linarith))
    · rcases hFar.lt_or_eq with hFar | hNext
      · exact Or.inl (abs_sub_lt_of_lt hUnits (by linarith))
      · exact Or.inr ⟨abs_sub_eq_of_eq (by linarith), hEven⟩

theorem RoundsToCode.abs_sub_le {u : ℚ} {code : Nat} (h : RoundsToCode u code) (k : Nat) :
    |(units code : ℚ) - u| ≤ |(units k : ℚ) - u| := by
  by_cases hk : k = code
  · rw [hk]
  · rcases h.nearer_or_tie hk with hNearer | ⟨hTie, -⟩
    · exact hNearer.le
    · exact hTie.le

/-! ## Rounded magnitudes -/

theorem eq_of_sign_of_magnitude {x y : Binary64} (hSign : x.negative = y.negative)
    (hMagnitude : x.magnitude = y.magnitude) : x = y := by
  obtain ⟨s, m, hm⟩ := x
  obtain ⟨s', m', hm'⟩ := y
  simp only at hSign hMagnitude
  subst hSign hMagnitude
  rfl

/-- The double with the given sign whose magnitude is the code of `p`, or infinity for a code past
all finite ones. -/
structure Rounded (negative : Bool) (p : ℚ) (x : Binary64) : Prop where
  sign : x.negative = negative
  code : ∃ code, RoundsToCode (p * 2 ^ 1074) code ∧ x.magnitude = min infinityCode code

theorem overflow_eq : overflow * 2 ^ 1074 = midpoint (infinityCode - 1) := by
  have hUlp : ulp (infinityCode - 1) = 2 ^ 2045 := by
    have hDiv : (infinityCode - 1) / leadingBit - 1 = 2045 := by decide +kernel
    rw [ulp, hDiv]
  have hMid := midpoint_add (infinityCode - 1)
  have hNext : infinityCode - 1 + 1 = infinityCode := rfl
  have hHalf : (2 : ℚ) ^ 2045 / 2 = 2 ^ 2044 := by
    rw [pow_succ, mul_div_cancel_right₀ _ two_ne_zero]
  rw [hNext, units_infinityCode, hUlp, Nat.cast_pow, Nat.cast_pow, Nat.cast_ofNat, hHalf] at hMid
  have hSplit : overflow * 2 ^ 1074 = 2 ^ 2098 - 2 ^ 2044 := by
    rw [overflow, sub_mul, ← pow_add, ← pow_add]
  rw [hSplit]
  exact (eq_sub_of_add_eq hMid).symm

namespace Rounded

variable {negative negative' : Bool} {p p' : ℚ} {x x' : Binary64}

theorem unique (h : Rounded negative p x) (h' : Rounded negative p x') : x = x' := by
  obtain ⟨hSign, code, hCode, hMagnitude⟩ := h
  obtain ⟨hSign', code', hCode', hMagnitude'⟩ := h'
  obtain rfl := hCode.unique hCode'
  exact eq_of_sign_of_magnitude (hSign.trans hSign'.symm) (hMagnitude.trans hMagnitude'.symm)

theorem magnitude_le (h : Rounded negative p x) (h' : Rounded negative' p' x') (hp : p ≤ p') :
    x.magnitude ≤ x'.magnitude := by
  obtain ⟨-, code, hCode, hMagnitude⟩ := h
  obtain ⟨-, code', hCode', hMagnitude'⟩ := h'
  have hScaled : p * 2 ^ 1074 ≤ p' * 2 ^ 1074 := mul_le_mul_of_nonneg_right hp scale_pos.le
  have := hCode.mono hCode' hScaled
  omega

/-- The magnitude is finite below the overflow threshold, and infinite from there on. -/
theorem isFinite_iff (h : Rounded negative p x) : x.isFinite = true ↔ p < overflow := by
  obtain ⟨-, code, hCode, hMagnitude⟩ := h
  have hPast := hCode.lt_iff (infinityCode - 1)
  have hOdd : (infinityCode - 1) % 2 = 1 := rfl
  rw [← overflow_eq, hOdd] at hPast
  simp only [and_true] at hPast
  rw [mul_lt_mul_iff_left₀ scale_pos, mul_left_inj' scale_pos.ne', ← le_iff_lt_or_eq] at hPast
  rw [isFinite, decide_eq_true_eq, hMagnitude, ← not_le (a := overflow), ← hPast]
  have : 0 < infinityCode := by decide
  omega

theorem eq_infinity (h : Rounded negative p x) (hp : overflow ≤ p) : x = infinity negative := by
  have hNot : ¬ x.isFinite = true := by
    rw [h.isFinite_iff]
    exact not_lt.mpr hp
  obtain ⟨hSign, code, -, hMagnitude⟩ := h
  rw [isFinite, decide_eq_true_eq] at hNot
  apply eq_of_sign_of_magnitude hSign
  show x.magnitude = infinityCode
  omega

theorem magnitude_eq_zero_iff (h : Rounded negative p x) : x.magnitude = 0 ↔ p ≤ 1 / 2 ^ 1075 := by
  obtain ⟨-, code, hCode, hMagnitude⟩ := h
  have hPositive := hCode.lt_iff 0
  have hMid : midpoint 0 = 1 / 2 ^ 1075 * 2 ^ 1074 := by
    have hUlp : ulp 0 = 1 := rfl
    rw [midpoint, hUlp, units_zero, pow_succ]
    field_simp
    norm_num
  rw [hMid, mul_lt_mul_iff_left₀ scale_pos] at hPositive
  simp only [Nat.zero_mod, zero_ne_one, and_false, or_false] at hPositive
  rw [hMagnitude, ← not_lt, ← hPositive]
  have : 0 < infinityCode := by decide
  omega

theorem eq_zero_iff (h : Rounded negative p x) : x = zero negative ↔ p ≤ 1 / 2 ^ 1075 := by
  rw [← h.magnitude_eq_zero_iff]
  constructor
  · rintro rfl
    rfl
  · intro hMagnitude
    exact eq_of_sign_of_magnitude h.sign hMagnitude

end Rounded

/-- For every double of either sign there is a magnitude of the given sign that is not further away,
and as far away only if it is the same number. -/
theorem exists_code_same_sign (negative : Bool) {p : ℚ} (hp : 0 ≤ p) (y : Binary64) :
    ∃ k, |codeValue k - p| ≤ |y.toRat - withSign negative p| ∧
      (|codeValue k - p| = |y.toRat - withSign negative p| →
        y.toRat = withSign negative (codeValue k)) := by
  by_cases hSign : y.negative = negative
  · refine ⟨y.magnitude, ?_, fun _ => ?_⟩
    · rw [toRat, hSign, abs_withSign_sub]
    · rw [toRat, hSign]
  · -- on the other side of zero, zero is nearer
    have hNonneg := codeValue_nonneg y.magnitude
    have hFlip : y.toRat = withSign negative (-codeValue y.magnitude) := by
      rw [toRat, Bool.eq_not_of_ne hSign]
      cases negative <;> simp [withSign]
    have hZero : |codeValue 0 - p| = p := by
      rw [codeValue_zero, zero_sub, abs_neg, abs_of_nonneg hp]
    have hDistance : |y.toRat - withSign negative p| = codeValue y.magnitude + p := by
      rw [hFlip, abs_withSign_sub, ← neg_add', abs_neg, abs_of_nonneg (add_nonneg hNonneg hp)]
    refine ⟨0, ?_, ?_⟩
    · rw [hZero, hDistance]
      linarith
    · intro hTie
      rw [hZero, hDistance] at hTie
      have hNone : codeValue y.magnitude = 0 := by linarith
      rw [hFlip, hNone, codeValue_zero, neg_zero]

theorem Rounded.isNearest {negative : Bool} {p : ℚ} {x : Binary64} (hp : 0 ≤ p)
    (h : Rounded negative p x) (hFinite : x.isFinite = true) :
    IsNearest (withSign negative p) x := by
  obtain ⟨hSign, code, hCode, hMagnitude⟩ := h
  have hLess : x.magnitude < infinityCode := by
    rw [isFinite, decide_eq_true_eq] at hFinite
    exact hFinite
  obtain rfl : x.magnitude = code := by omega
  have hDistance : |x.toRat - withSign negative p| = |codeValue x.magnitude - p| := by
    rw [toRat, hSign, abs_withSign_sub]
  have hNearest (k : Nat) : |codeValue x.magnitude - p| ≤ |codeValue k - p| := by
    rw [abs_codeValue_sub, abs_codeValue_sub]
    exact div_le_div_of_nonneg_right (hCode.abs_sub_le k) scale_pos.le
  refine ⟨hFinite, ?_, ?_⟩
  · intro y _
    obtain ⟨k, hk, -⟩ := exists_code_same_sign negative hp y
    rw [hDistance]
    exact (hNearest k).trans hk
  · intro y _ hOther hTie
    obtain ⟨k, hk, hSame⟩ := exists_code_same_sign negative hp y
    rw [hTie, hDistance] at hk hSame
    have hEqual := hk.antisymm (hNearest k)
    have hNot : k ≠ x.magnitude := by
      rintro rfl
      apply hOther
      rw [hSame hEqual, toRat, hSign]
    rw [abs_codeValue_sub, abs_codeValue_sub, div_left_inj' scale_pos.ne'] at hEqual
    rcases hCode.nearer_or_tie hNot with hNearer | ⟨-, hEven⟩
    · exact absurd hEqual hNearer.ne'
    · exact hEven

/-- Rounding by codes is rounding to the nearest. -/
theorem Rounded.roundsTo {negative : Bool} {p : ℚ} {x : Binary64} (hp : 0 ≤ p)
    (h : Rounded negative p x) : RoundsTo negative (withSign negative p) x := by
  refine ⟨h.sign, ?_, ?_⟩
  · intro hLess
    rw [abs_withSign negative hp] at hLess
    exact h.isNearest hp (h.isFinite_iff.mpr hLess)
  · intro hOver
    rw [abs_withSign negative hp] at hOver
    exact h.eq_infinity hOver

/-! ## Order -/

theorem withSign_codeValue_le {negative negative' : Bool} {a b : Nat}
    (h : signed negative a ≤ signed negative' b) :
    withSign negative (codeValue a) ≤ withSign negative' (codeValue b) := by
  cases negative <;> cases negative' <;> simp only [signed, withSign, if_true, if_false,
    Bool.false_eq_true] at h ⊢
  · exact codeValue_monotone (by omega)
  · obtain ⟨rfl, rfl⟩ : a = 0 ∧ b = 0 := by omega
    simp
  · exact (neg_nonpos.mpr (codeValue_nonneg a)).trans (codeValue_nonneg b)
  · exact neg_le_neg (codeValue_monotone (by omega))

/-- The signed codes are in the order of the doubles. -/
theorem extended_le_of_signed_le {x y : Binary64}
    (h : signed x.negative x.magnitude ≤ signed y.negative y.magnitude) :
    x.extended ≤ y.extended := by
  have hInfinity : 0 < infinityCode := by decide
  have hx : x.isFinite = true ↔ x.magnitude < infinityCode := decide_eq_true_iff
  have hy : y.isFinite = true ↔ y.magnitude < infinityCode := decide_eq_true_iff
  unfold extended
  by_cases hFiniteX : x.isFinite = true
  · by_cases hFiniteY : y.isFinite = true
    · rw [if_pos hFiniteX, if_pos hFiniteY, WithBot.coe_le_coe, WithTop.coe_le_coe]
      exact withSign_codeValue_le h
    · have hSign : y.negative = false := by
        rw [hx] at hFiniteX
        rw [hy] at hFiniteY
        by_contra hNegative
        rw [Bool.not_eq_false] at hNegative
        cases hSignX : x.negative <;> simp only [hSignX, hNegative, signed, if_true, if_false,
          Bool.false_eq_true] at h <;> omega
      rw [if_pos hFiniteX, if_neg hFiniteY, hSign]
      exact WithBot.coe_le_coe.mpr le_top
  · cases hSign : x.negative
    · have hPast : ¬ y.isFinite = true ∧ y.negative = false := by
        rw [hx] at hFiniteX
        rw [hy]
        cases hSignY : y.negative <;> simp only [hSign, hSignY, signed, if_true, if_false,
          Bool.false_eq_true] at h
        · exact ⟨by omega, rfl⟩
        · omega
      rw [if_neg hFiniteX, if_neg hPast.1, hPast.2]
    · rw [if_neg hFiniteX]
      exact bot_le

/-- Rounding is monotone. -/
theorem Rounded.extended_le {negative negative' : Bool} {p p' : ℚ} {x x' : Binary64}
    (hp : 0 ≤ p) (hp' : 0 ≤ p') (h : Rounded negative p x) (h' : Rounded negative' p' x')
    (hLe : withSign negative p ≤ withSign negative' p') : x.extended ≤ x'.extended := by
  apply extended_le_of_signed_le
  rw [h.sign, h'.sign]
  cases negative <;> cases negative' <;> simp only [signed, withSign, if_true, if_false,
    Bool.false_eq_true] at hLe ⊢
  · have := h.magnitude_le h' hLe
    omega
  · -- only zero is on both sides of zero
    obtain ⟨rfl, rfl⟩ : p = 0 ∧ p' = 0 := ⟨by linarith, by linarith⟩
    have hTiny : (0 : ℚ) ≤ 1 / 2 ^ 1075 := by positivity
    have hZero := h.magnitude_eq_zero_iff.mpr hTiny
    have hZero' := h'.magnitude_eq_zero_iff.mpr hTiny
    omega
  · omega
  · have := h'.magnitude_le h (neg_le_neg_iff.mp hLe)
    omega

/-- A ratio of units is rounded. -/
theorem rounded_ofRatio (negative : Bool) (num : Nat) {den : Nat} (hDen : 0 < den) :
    Rounded negative (num / den / 2 ^ 1074) (ofRatio negative num den) := by
  refine ⟨rfl, ?_⟩
  rw [div_mul_cancel₀ _ scale_pos.ne']
  exact nearestCode_spec num hDen

/-! ## Only one double is nearest -/

theorem codeValue_strictMono : StrictMono codeValue := by
  intro k l hkl
  apply div_lt_div_of_pos_right _ scale_pos
  exact_mod_cast units_strictMono hkl

theorem withSign_withSign (s : Bool) (p : ℚ) : withSign s (withSign s p) = p := by
  cases s <;> simp [withSign]

theorem abs_toRat_sub (x : Binary64) (q : ℚ) :
    |x.toRat - q| = |codeValue x.magnitude - withSign x.negative q| := by
  rw [toRat, ← abs_withSign_sub x.negative (codeValue x.magnitude), withSign_withSign]

/-- Of two doubles of one sign that are both nearest, neither is larger: they would be equally near
and both even, so that a code lies between them, and its magnitude is nearer. -/
theorem IsNearest.magnitude_le {x y : Binary64} {q : ℚ} (hx : IsNearest q x) (hy : IsNearest q y)
    (hSign : y.negative = x.negative) : y.magnitude ≤ x.magnitude := by
  by_contra hNot
  have hLess : x.magnitude < y.magnitude := Nat.not_le.mp hNot
  have hTie := (hy.abs_sub_le x hx.finite).antisymm (hx.abs_sub_le y hy.finite)
  have hValues : codeValue x.magnitude < codeValue y.magnitude := codeValue_strictMono hLess
  have hOther : y.toRat ≠ x.toRat := by
    intro hSame
    rw [toRat, toRat, hSign] at hSame
    have hEqual := congrArg (withSign x.negative) hSame
    rw [withSign_withSign, withSign_withSign] at hEqual
    exact hValues.ne' hEqual
  have hEvenX := hx.even y hy.finite hOther hTie
  have hEvenY := hy.even x hx.finite hOther.symm hTie.symm
  have hFinite : y.magnitude < infinityCode := by simpa [isFinite] using hy.finite
  -- the code between them
  let z : Binary64 := ⟨x.negative, x.magnitude + 1, by have := y.magnitude_lt; omega⟩
  have hFiniteZ : z.isFinite = true := decide_eq_true (by omega : x.magnitude + 1 < infinityCode)
  have hBelow : codeValue x.magnitude < codeValue z.magnitude :=
    codeValue_strictMono (Nat.lt_succ_self _)
  have hAbove : codeValue z.magnitude < codeValue y.magnitude :=
    codeValue_strictMono (by omega : x.magnitude + 1 < y.magnitude)
  have hNearest := hx.abs_sub_le z hFiniteZ
  rw [abs_toRat_sub, abs_toRat_sub, hSign] at hTie
  rw [abs_toRat_sub, abs_toRat_sub z] at hNearest
  have hMiddle : codeValue x.magnitude + codeValue y.magnitude = 2 * withSign x.negative q := by
    rcases abs_eq_abs.mp hTie with hSame | hOpposite <;> linarith
  have hNearer : |codeValue z.magnitude - withSign x.negative q| <
      |codeValue x.magnitude - withSign x.negative q| := by
    rw [abs_lt, abs_of_neg (by linarith)]
    constructor <;> linarith
  exact absurd hNearest hNearer.not_ge

/-- A number with a sign is rounded to one double only. -/
theorem RoundsTo.unique {negative : Bool} {q : ℚ} {x y : Binary64} (hx : RoundsTo negative q x)
    (hy : RoundsTo negative q y) : x = y := by
  rcases lt_or_ge |q| overflow with hLess | hOver
  · have hSign : x.negative = y.negative := hx.sign.trans hy.sign.symm
    have hNearX := hx.nearest hLess
    have hNearY := hy.nearest hLess
    exact eq_of_sign_of_magnitude hSign
      ((hNearY.magnitude_le hNearX hSign).antisymm (hNearX.magnitude_le hNearY hSign.symm))
  · rw [hx.infinite hOver, hy.infinite hOver]

end ReversePolish.Binary64
