import ReversePolish.Proofs.Decimal.Rounding

/-!
# The four operations

Each operation on finite doubles is the exact result rounded once. The sign that comes with the
rounding is the sign of the exact result, or that of a zero where the exact result is zero; so it is
also the sign of a result that is too small. Operands without an exact result are classified by
their values: the result has no meaning, or it is an infinity or a zero with the sign of the rule.

* `value_cases`: every double is a finite number, an infinity or a NaN.
* `add_rounds`, `sub_rounds`, `mul_rounds`, `div_rounds`: finite operands.
* `isNaN_add_iff` and its like: where a result has no meaning.
* `add_eq_infinity` and its like: the remaining operands.
-/

namespace ReversePolish.Binary64

variable {x y : Binary64}

/-! ## Classes of doubles -/

theorem value_cases (x : Binary64) :
    x.value = .nan ∨ x.value = .infinite x.negative ∨
      x.value = .finite x.negative (units x.magnitude) := by
  unfold value
  split
  · exact Or.inl rfl
  · split
    · exact Or.inr (Or.inl rfl)
    · exact Or.inr (Or.inr rfl)

theorem isNaN_iff : x.isNaN = true ↔ x.value = .nan := by
  unfold value
  split
  · simp [*]
  · split <;> simp [*]

theorem isInfinite_iff : x.isInfinite = true ↔ x.value = .infinite x.negative := by
  unfold value
  split
  · rename_i hNaN
    simp only [isNaN, decide_eq_true_eq] at hNaN
    simp only [isInfinite, beq_iff_eq, reduceCtorEq, iff_false]
    omega
  · split <;> simp [*]

theorem isFinite_iff_value :
    x.isFinite = true ↔ x.value = .finite x.negative (units x.magnitude) := by
  unfold value
  simp only [isNaN, isInfinite, isFinite, decide_eq_true_eq, beq_iff_eq]
  split
  · simp only [reduceCtorEq, iff_false]
    omega
  · split
    · simp only [reduceCtorEq, iff_false]
      omega
    · simp only [iff_true]
      omega

theorem units_eq_zero_iff {code : Nat} : units code = 0 ↔ code = 0 := by
  rw [← units_zero]
  exact units_strictMono.injective.eq_iff

theorem isZero_iff_value : x.isZero = true ↔ x.value = .finite x.negative 0 := by
  constructor
  · intro h
    have hCode : x.magnitude = 0 := eq_of_beq h
    have hFinite : x.isFinite = true := by
      rw [isFinite, hCode]
      decide
    rw [isFinite_iff_value.mp hFinite, hCode, units_zero]
  · intro h
    rcases x.value_cases with hx | hx | hx
    · simp [hx] at h
    · simp [hx] at h
    · rw [hx, Value.finite.injEq, units_eq_zero_iff] at h
      exact beq_iff_eq.mpr h.2

theorem isZero_iff_units : x.isZero = true ↔ units x.magnitude = 0 := by
  rw [isZero, beq_iff_eq, units_eq_zero_iff]

theorem not_isInfinite_of_isFinite (h : x.isFinite = true) : x.isInfinite = false := by
  rw [isFinite, decide_eq_true_eq] at h
  exact beq_eq_false_iff_ne.mpr h.ne

@[simp] theorem isNaN_nan : nan.isNaN = true := by decide +kernel

@[simp] theorem isNaN_infinity (negative : Bool) : (infinity negative).isNaN = false :=
  decide_eq_false (Nat.lt_irrefl infinityCode)

@[simp] theorem isNaN_zero (negative : Bool) : (zero negative).isNaN = false :=
  decide_eq_false (Nat.not_lt_zero infinityCode)

@[simp] theorem isNaN_ofRatio (negative : Bool) (num den : Nat) :
    (ofRatio negative num den).isNaN = false := by
  have hLe := nearestCode_le num den
  rw [isNaN, decide_eq_false_iff_not]
  exact Nat.not_lt.mpr hLe

/-! ## Exact values with signs -/

@[simp] theorem withSign_zero (negative : Bool) : withSign negative 0 = 0 := by
  cases negative <;> simp [withSign]

theorem withSign_mul (s t : Bool) (p q : ℚ) :
    withSign s p * withSign t q = withSign (s ^^ t) (p * q) := by
  cases s <;> cases t <;> simp [withSign]

theorem withSign_div (s t : Bool) (p q : ℚ) :
    withSign s p / withSign t q = withSign (s ^^ t) (p / q) := by
  cases s <;> cases t <;> simp [withSign, neg_div, div_neg]

theorem withSign_natAbs (n : Int) : withSign (decide (n < 0)) (n.natAbs : ℚ) = n := by
  rcases lt_or_ge n 0 with hNegative | hNonneg
  · rw [decide_eq_true hNegative, withSign, if_pos rfl, Nat.cast_natAbs, abs_of_neg hNegative,
      ← Int.cast_neg, Int.neg_neg]
  · rw [decide_eq_false hNonneg.not_gt, withSign, if_neg Bool.false_ne_true, Nat.cast_natAbs,
      abs_of_nonneg hNonneg]

theorem withSign_div_scale (negative : Bool) (p : ℚ) :
    withSign negative p / 2 ^ 1074 = withSign negative (p / 2 ^ 1074) := by
  cases negative <;> simp [withSign, neg_div]

/-- The units of a double as an integer are its exact value on the scale of units. -/
theorem signed_div_scale (x : Binary64) :
    (signed x.negative (units x.magnitude) : ℚ) / 2 ^ 1074 = x.toRat := by
  have hSigned : (signed x.negative (units x.magnitude) : ℚ) =
      withSign x.negative (units x.magnitude) := by
    cases x.negative <;> simp [signed, withSign]
  rw [hSigned, withSign_div_scale, toRat, codeValue]

theorem toRat_neg (x : Binary64) : x.neg.toRat = -x.toRat := by
  unfold toRat neg
  cases x.negative <;> simp [withSign]

/-! ## Rounding the exact result -/

theorem roundsTo_ofRatio (negative : Bool) (num : Nat) {den : Nat} (hDen : 0 < den) :
    RoundsTo negative (withSign negative (num / den / 2 ^ 1074)) (ofRatio negative num den) :=
  (rounded_ofRatio negative num hDen).roundsTo (by positivity)

theorem roundsTo_zero (negative : Bool) : RoundsTo negative 0 (zero negative) := by
  have hZero : Rounded negative 0 (zero negative) :=
    ⟨rfl, 0, roundsToCode_zero (by norm_num), rfl⟩
  have hRounds := hZero.roundsTo le_rfl
  rwa [withSign_zero] at hRounds

/-! ## Sums -/

/-- The sign of a sum. An infinite operand decides it, or else the exact sum; a sum that is zero is
negative only if both operands are. -/
def sumSign (x y : Binary64) : Bool :=
  if x.isInfinite then x.negative
  else if y.isInfinite then y.negative
  else if x.toRat + y.toRat = 0 then x.negative && y.negative
  else decide (x.toRat + y.toRat < 0)

theorem sumSign_of_isFinite (hx : x.isFinite = true) (hy : y.isFinite = true) :
    sumSign x y = if x.toRat + y.toRat = 0 then x.negative && y.negative
      else decide (x.toRat + y.toRat < 0) := by
  rw [sumSign, not_isInfinite_of_isFinite hx, not_isInfinite_of_isFinite hy]
  rfl

theorem add_rounds (hx : x.isFinite = true) (hy : y.isFinite = true) :
    RoundsTo (sumSign x y) (x.toRat + y.toRat) (x.add y) := by
  have hSum : x.add y =
      addFinite x.negative (units x.magnitude) y.negative (units y.magnitude) := by
    rw [add, isFinite_iff_value.mp hx, isFinite_iff_value.mp hy]
  rw [sumSign_of_isFinite hx hy, hSum, addFinite]
  set total := signed x.negative (units x.magnitude) + signed y.negative (units y.magnitude)
    with hTotal
  have hExact : (total : ℚ) / 2 ^ 1074 = x.toRat + y.toRat := by
    rw [hTotal, Int.cast_add, add_div, signed_div_scale, signed_div_scale]
  have hZero : x.toRat + y.toRat = 0 ↔ total = 0 := by
    rw [← hExact, div_eq_zero_iff, or_iff_left scale_pos.ne', Int.cast_eq_zero]
  have hNegative : x.toRat + y.toRat < 0 ↔ total < 0 := by
    rw [← hExact, div_lt_iff₀ scale_pos, zero_mul, Int.cast_lt_zero]
  by_cases hNone : total = 0
  · rw [if_pos hNone, if_pos (hZero.mpr hNone), hZero.mpr hNone]
    exact roundsTo_zero _
  · rw [if_neg hNone, if_neg (mt hZero.mp hNone), decide_eq_decide.mpr hNegative, ← hExact]
    have hRounds := roundsTo_ofRatio (decide (total < 0)) total.natAbs Nat.one_pos
    rwa [Nat.cast_one, div_one, ← withSign_div_scale, withSign_natAbs] at hRounds

/-- The sum has no meaning: an operand has none, or the operands are opposite infinities. -/
def UndefinedSum (x y : Binary64) : Prop :=
  x.isNaN = true ∨ y.isNaN = true ∨
    (x.isInfinite = true ∧ y.isInfinite = true ∧ x.negative ≠ y.negative)

theorem undefinedSum_iff_value : UndefinedSum x y ↔
    x.value = .nan ∨ y.value = .nan ∨
      (x.value = .infinite x.negative ∧ y.value = .infinite y.negative ∧
        x.negative ≠ y.negative) := by
  rw [UndefinedSum, isNaN_iff, isNaN_iff, isInfinite_iff, isInfinite_iff]

theorem isNaN_addFinite (s : Bool) (a : Nat) (t : Bool) (b : Nat) :
    (addFinite s a t b).isNaN = false := by
  rw [addFinite]
  split <;> simp

theorem isNaN_add_iff : (x.add y).isNaN = true ↔ UndefinedSum x y := by
  rw [undefinedSum_iff_value, add]
  rcases x.value_cases with hx | hx | hx <;> rcases y.value_cases with hy | hy | hy
  all_goals simp only [hx, hy, isNaN_addFinite, isNaN_infinity, isNaN_nan]
  case inr.inl.inr.inl => split <;> simp [*]
  all_goals simp

/-- With an infinite operand a sum that has a meaning is infinite. -/
theorem add_eq_infinity (hDefined : ¬ UndefinedSum x y)
    (hInfinite : x.isInfinite = true ∨ y.isInfinite = true) : x.add y = infinity (sumSign x y) := by
  rw [undefinedSum_iff_value] at hDefined
  unfold sumSign add
  simp only [isInfinite_iff] at hInfinite ⊢
  rcases x.value_cases with hx | hx | hx <;> rcases y.value_cases with hy | hy | hy
  all_goals simp_all

/-! ## Differences -/

theorem isFinite_neg (x : Binary64) : x.neg.isFinite = x.isFinite := rfl

theorem isInfinite_neg (x : Binary64) : x.neg.isInfinite = x.isInfinite := rfl

theorem isNaN_neg (x : Binary64) : x.neg.isNaN = x.isNaN := rfl

theorem sub_rounds (hx : x.isFinite = true) (hy : y.isFinite = true) :
    RoundsTo (sumSign x y.neg) (x.toRat - y.toRat) (x.sub y) := by
  have hRounds := add_rounds hx ((isFinite_neg y).trans hy)
  rwa [toRat_neg, ← sub_eq_add_neg] at hRounds

/-- The difference has no meaning: an operand has none, or the operands are equal infinities. -/
def UndefinedDifference (x y : Binary64) : Prop :=
  x.isNaN = true ∨ y.isNaN = true ∨
    (x.isInfinite = true ∧ y.isInfinite = true ∧ x.negative = y.negative)

theorem undefinedSum_neg_iff : UndefinedSum x y.neg ↔ UndefinedDifference x y := by
  have hSigns : x.negative ≠ y.neg.negative ↔ x.negative = y.negative := Bool.ne_not
  rw [UndefinedSum, UndefinedDifference, isNaN_neg, isInfinite_neg, hSigns]

theorem isNaN_sub_iff : (x.sub y).isNaN = true ↔ UndefinedDifference x y :=
  isNaN_add_iff.trans undefinedSum_neg_iff

/-- With an infinite operand a difference that has a meaning is infinite. -/
theorem sub_eq_infinity (hDefined : ¬ UndefinedDifference x y)
    (hInfinite : x.isInfinite = true ∨ y.isInfinite = true) :
    x.sub y = infinity (sumSign x y.neg) :=
  add_eq_infinity (mt undefinedSum_neg_iff.mp hDefined) hInfinite

/-! ## Products -/

theorem mul_rounds (hx : x.isFinite = true) (hy : y.isFinite = true) :
    RoundsTo (x.negative ^^ y.negative) (x.toRat * y.toRat) (x.mul y) := by
  have hPos : 0 < unitsPerOne := by decide +kernel
  have hRounds := roundsTo_ofRatio (x.negative ^^ y.negative)
    (units x.magnitude * units y.magnitude) hPos
  have hExact : ((units x.magnitude * units y.magnitude : Nat) : ℚ) / unitsPerOne / 2 ^ 1074 =
      codeValue x.magnitude * codeValue y.magnitude := by
    rw [unitsPerOne_eq, codeValue, codeValue, Nat.cast_mul, Nat.cast_pow, Nat.cast_ofNat, div_div,
      div_mul_div_comm]
  rw [hExact, ← withSign_mul] at hRounds
  rw [mul, isFinite_iff_value.mp hx, isFinite_iff_value.mp hy]
  exact hRounds

/-- The product has no meaning: an operand has none, or one is infinite and the other is a zero. -/
def UndefinedProduct (x y : Binary64) : Prop :=
  x.isNaN = true ∨ y.isNaN = true ∨
    (x.isInfinite = true ∧ y.isZero = true) ∨ (x.isZero = true ∧ y.isInfinite = true)

theorem undefinedProduct_iff_value : UndefinedProduct x y ↔
    x.value = .nan ∨ y.value = .nan ∨
      (x.value = .infinite x.negative ∧ y.value = .finite y.negative 0) ∨
      (x.value = .finite x.negative 0 ∧ y.value = .infinite y.negative) := by
  rw [UndefinedProduct, isNaN_iff, isNaN_iff, isInfinite_iff, isInfinite_iff, isZero_iff_value,
    isZero_iff_value]

theorem isNaN_mul_iff : (x.mul y).isNaN = true ↔ UndefinedProduct x y := by
  rw [undefinedProduct_iff_value, mul]
  rcases x.value_cases with hx | hx | hx <;> rcases y.value_cases with hy | hy | hy
  all_goals simp only [hx, hy, isNaN_ofRatio, isNaN_infinity, isNaN_nan]
  case inr.inl.inr.inr => split <;> simp [*]
  case inr.inr.inr.inl => split <;> simp [*]
  all_goals simp

/-- With an infinite operand a product that has a meaning is infinite. -/
theorem mul_eq_infinity (hDefined : ¬ UndefinedProduct x y)
    (hInfinite : x.isInfinite = true ∨ y.isInfinite = true) :
    x.mul y = infinity (x.negative ^^ y.negative) := by
  rw [undefinedProduct_iff_value] at hDefined
  rw [isInfinite_iff, isInfinite_iff] at hInfinite
  unfold mul
  rcases x.value_cases with hx | hx | hx <;> rcases y.value_cases with hy | hy | hy
  all_goals simp_all

/-! ## Quotients -/

theorem div_rounds (hx : x.isFinite = true) (hy : y.isFinite = true) (hZero : y.isZero = false) :
    RoundsTo (x.negative ^^ y.negative) (x.toRat / y.toRat) (x.div y) := by
  have hUnits : units y.magnitude ≠ 0 := by
    rw [Ne, ← isZero_iff_units, hZero]
    exact Bool.false_ne_true
  have hRounds := roundsTo_ofRatio (x.negative ^^ y.negative)
    (units x.magnitude * unitsPerOne) (Nat.pos_of_ne_zero hUnits)
  have hExact : ((units x.magnitude * unitsPerOne : Nat) : ℚ) / units y.magnitude / 2 ^ 1074 =
      codeValue x.magnitude / codeValue y.magnitude := by
    rw [unitsPerOne_eq, codeValue, codeValue, div_div_div_cancel_right₀ scale_pos.ne', Nat.cast_mul,
      Nat.cast_pow, Nat.cast_ofNat, div_right_comm, mul_div_cancel_right₀ _ scale_pos.ne']
  rw [hExact, ← withSign_div] at hRounds
  rw [div, isFinite_iff_value.mp hx, isFinite_iff_value.mp hy]
  dsimp only
  rw [if_neg hUnits]
  exact hRounds

/-- The quotient has no meaning: an operand has none, or both are zeros, or both are infinite. -/
def UndefinedQuotient (x y : Binary64) : Prop :=
  x.isNaN = true ∨ y.isNaN = true ∨
    (x.isZero = true ∧ y.isZero = true) ∨ (x.isInfinite = true ∧ y.isInfinite = true)

theorem undefinedQuotient_iff_value : UndefinedQuotient x y ↔
    x.value = .nan ∨ y.value = .nan ∨
      (x.value = .finite x.negative 0 ∧ y.value = .finite y.negative 0) ∨
      (x.value = .infinite x.negative ∧ y.value = .infinite y.negative) := by
  rw [UndefinedQuotient, isNaN_iff, isNaN_iff, isInfinite_iff, isInfinite_iff, isZero_iff_value,
    isZero_iff_value]

theorem isNaN_div_iff : (x.div y).isNaN = true ↔ UndefinedQuotient x y := by
  rw [undefinedQuotient_iff_value, div]
  rcases x.value_cases with hx | hx | hx <;> rcases y.value_cases with hy | hy | hy
  all_goals simp only [hx, hy, isNaN_infinity, isNaN_zero, isNaN_nan]
  case inr.inr.inr.inr =>
    split
    · split <;> simp [*]
    · simp [*]
  all_goals simp

/-- A quotient that has a meaning is infinite if the dividend is, or if the divisor is a zero. -/
theorem div_eq_infinity (hDefined : ¬ UndefinedQuotient x y)
    (hInfinite : x.isInfinite = true ∨ y.isZero = true) :
    x.div y = infinity (x.negative ^^ y.negative) := by
  rw [undefinedQuotient_iff_value] at hDefined
  rw [isInfinite_iff, isZero_iff_value] at hInfinite
  unfold div
  rcases x.value_cases with hx | hx | hx <;> rcases y.value_cases with hy | hy | hy
  all_goals simp_all

/-- A quotient that has a meaning is a zero if the divisor is infinite. -/
theorem div_eq_zero (hDefined : ¬ UndefinedQuotient x y) (hInfinite : y.isInfinite = true) :
    x.div y = zero (x.negative ^^ y.negative) := by
  rw [undefinedQuotient_iff_value] at hDefined
  rw [isInfinite_iff] at hInfinite
  unfold div
  rcases x.value_cases with hx | hx | hx <;> rcases y.value_cases with hy | hy | hy
  all_goals simp_all

end ReversePolish.Binary64
