import ReversePolish.Proofs.Decimal.Plain

/-!
# Significant figures

The significant figures of a numeral are its digits from the first one that is not zero to the last
one that is not zero. How many there are does not depend on the spelling: it is the least `k` for
which the number that the numeral denotes is a natural number below `10 ^ k` times a power of ten
(`Numeral.length_significant_le_iff`).

* `ofDigitChars_lt`, `pow_le_ofDigitChars_cons`, `ofDigitChars_concat_mod`: what the number of the
  digits, the first digit and the last digit say about a natural number.
* `HasFigures.lt_of_mod`: a natural number that does not end in a zero has all its digits.
-/

namespace ReversePolish

open Numeral (digits)

variable {text : List Char} {c : Char} {q : ℚ} {k N : Nat}

/-! ## Numbers with few figures -/

/-- The number `q` is written with `k` digits and zeros: it is a natural number of at most `k`
digits, times a power of ten. -/
def HasFigures (q : ℚ) (k : Nat) : Prop := ∃ m : Nat, ∃ i : Int, m < 10 ^ k ∧ q = m * 10 ^ i

theorem HasFigures.mul_zpow (h : HasFigures q k) (j : Int) : HasFigures (q * 10 ^ j) k := by
  obtain ⟨m, i, hm, rfl⟩ := h
  exact ⟨m, i + j, hm, by rw [zpow_add₀ (by norm_num), mul_assoc]⟩

theorem hasFigures_mul_zpow_iff (j : Int) : HasFigures (q * 10 ^ j) k ↔ HasFigures q k := by
  have hTen : (10 : ℚ) ^ j ≠ 0 := zpow_ne_zero j (by norm_num)
  refine ⟨fun h => ?_, fun h => h.mul_zpow j⟩
  have hBack := h.mul_zpow (-j)
  rwa [zpow_neg, mul_inv_cancel_right₀ hTen] at hBack

/-- A natural number that does not end in a zero cannot be written with fewer digits. -/
theorem HasFigures.lt_of_mod (h : HasFigures (N : ℚ) k) (hLast : N % 10 ≠ 0) : N < 10 ^ k := by
  obtain ⟨m, i, hm, hValue⟩ := h
  cases i with
  | ofNat i =>
    rw [Int.ofNat_eq_natCast, zpow_natCast] at hValue
    have hProduct : N = m * 10 ^ i := by exact_mod_cast hValue
    cases i with
    | zero => rwa [hProduct, pow_zero, mul_one]
    | succ i =>
      refine absurd ?_ hLast
      rw [hProduct, pow_succ, ← mul_assoc, Nat.mul_mod_left]
  | negSucc i =>
    rw [zpow_negSucc, eq_mul_inv_iff_mul_eq₀ (by positivity)] at hValue
    have hProduct : N * 10 ^ (i + 1) = m := by exact_mod_cast hValue
    have hPow : 0 < 10 ^ (i + 1) := Nat.pow_pos (by decide)
    exact ((Nat.le_mul_of_pos_right N hPow).trans_eq hProduct).trans_lt hm

/-! ## The digits of a natural number -/

theorem ofDigitChars_ten_cons (c : Char) (text : List Char) :
    Nat.ofDigitChars 10 (c :: text) 0 =
      10 ^ text.length * (c.toNat - 48) + Nat.ofDigitChars 10 text 0 := by
  rw [Nat.ofDigitChars_cons, Nat.ofDigitChars_eq_ofDigitChars_zero, Nat.mul_zero, Nat.zero_add]
  rfl

/-- The digit that is written `0` is the only one that is worth nothing. -/
theorem digit_range (hDigit : c ∈ digits) : c.toNat - 48 ≤ 9 ∧ (c ≠ '0' → 1 ≤ c.toNat - 48) := by
  have hAll : digits.all (fun c => decide (c.toNat - 48 ≤ 9 ∧ (c ≠ '0' → 1 ≤ c.toNat - 48))) =
      true := by decide
  exact of_decide_eq_true (List.all_eq_true.mp hAll c hDigit)

theorem ofDigitChars_lt (hDigits : ∀ c ∈ text, c ∈ digits) :
    Nat.ofDigitChars 10 text 0 < 10 ^ text.length := by
  induction text with
  | nil => decide
  | cons c text ih =>
    have hDigit : c.toNat - 48 ≤ 9 := (digit_range (hDigits c List.mem_cons_self)).1
    have hRest := ih (fun d hd => hDigits d (List.mem_cons_of_mem c hd))
    have hScaled := Nat.mul_le_mul_left (10 ^ text.length) hDigit
    rw [ofDigitChars_ten_cons, List.length_cons, pow_succ]
    omega

/-- The first digit is not zero. -/
theorem pow_le_ofDigitChars_cons (hDigit : c ∈ digits) (hFirst : c ≠ '0') :
    10 ^ text.length ≤ Nat.ofDigitChars 10 (c :: text) 0 := by
  have hOne : 1 ≤ c.toNat - 48 := (digit_range hDigit).2 hFirst
  have hScaled := Nat.mul_le_mul_left (10 ^ text.length) hOne
  rw [ofDigitChars_ten_cons]
  omega

/-- The last digit is not zero. -/
theorem ofDigitChars_concat_mod (hDigit : c ∈ digits) (hLast : c ≠ '0') :
    Nat.ofDigitChars 10 (text ++ [c]) 0 % 10 ≠ 0 := by
  obtain ⟨hHigh, hLow⟩ := digit_range hDigit
  have hOne : 1 ≤ c.toNat - 48 := hLow hLast
  have hZero : '0'.toNat = 48 := rfl
  rw [Nat.ofDigitChars_append, Nat.ofDigitChars_cons, Nat.ofDigitChars_nil, hZero]
  omega

/-! ## Leaving out the zeros at both ends -/

/-- The digits from the first one that is not zero to the last one that is not zero. -/
def stripZeros (text : List Char) : List Char :=
  Decimal.dropTrailingZeros (text.dropWhile (· == '0'))

theorem ofDigitChars_dropWhile (text : List Char) :
    Nat.ofDigitChars 10 (text.dropWhile (· == '0')) 0 = Nat.ofDigitChars 10 text 0 := by
  induction text with
  | nil => rfl
  | cons c text ih =>
    by_cases hZero : c = '0'
    · subst hZero
      exact ih
    · rw [List.dropWhile_cons_of_neg (by simpa using hZero)]

theorem ne_zero_of_mem_head?_dropWhile (text : List Char) :
    ∀ c ∈ (text.dropWhile (· == '0')).head?, c ≠ '0' := by
  intro c hc
  have hHead := List.head?_dropWhile_not (· == '0') text
  rw [Option.mem_def.mp hc] at hHead
  simpa using hHead

theorem Decimal.ne_zero_of_mem_getLast?_dropTrailingZeros (text : List Char) :
    ∀ c ∈ (dropTrailingZeros text).getLast?, c ≠ '0' := by
  rw [dropTrailingZeros, List.getLast?_reverse]
  exact ne_zero_of_mem_head?_dropWhile _

theorem exists_stripZeros_append (text : List Char) :
    ∃ zeros, stripZeros text ++ List.replicate zeros '0' = text.dropWhile (· == '0') :=
  Decimal.exists_dropTrailingZeros_append _

theorem ne_zero_of_mem_head?_stripZeros (text : List Char) :
    ∀ c ∈ (stripZeros text).head?, c ≠ '0' := by
  intro c hc
  obtain ⟨zeros, hSplit⟩ := exists_stripZeros_append text
  apply ne_zero_of_mem_head?_dropWhile text
  rw [← hSplit, List.head?_append, Option.mem_def.mp hc]
  rfl

theorem mem_digits_of_mem_stripZeros (hDigits : ∀ c ∈ text, c ∈ digits) :
    ∀ c ∈ stripZeros text, c ∈ digits := by
  intro c hc
  obtain ⟨zeros, hSplit⟩ := exists_stripZeros_append text
  have hMem : c ∈ text.dropWhile (· == '0') := by
    rw [← hSplit]
    exact List.mem_append_left _ hc
  exact hDigits c ((List.dropWhile_sublist _).mem hMem)

/-- Only a power of ten is left out. -/
theorem exists_ofDigitChars_stripZeros (text : List Char) :
    ∃ zeros, Nat.ofDigitChars 10 text 0 = Nat.ofDigitChars 10 (stripZeros text) 0 * 10 ^ zeros := by
  obtain ⟨zeros, hSplit⟩ := exists_stripZeros_append text
  refine ⟨zeros, ?_⟩
  rw [← ofDigitChars_dropWhile, ← hSplit, Nat.ofDigitChars_append, Nat.ofDigitChars_replicate_zero,
    mul_comm]

theorem ofDigitChars_stripZeros_mod (hDigits : ∀ c ∈ text, c ∈ digits)
    (hNil : stripZeros text ≠ []) : Nat.ofDigitChars 10 (stripZeros text) 0 % 10 ≠ 0 := by
  rw [← List.dropLast_append_getLast hNil]
  apply ofDigitChars_concat_mod (mem_digits_of_mem_stripZeros hDigits _ (List.getLast_mem hNil))
  exact Decimal.ne_zero_of_mem_getLast?_dropTrailingZeros _ _ (List.getLast?_eq_some_getLast hNil)

/-- The significant digits are as many as the number needs. -/
theorem length_stripZeros_le_iff (hDigits : ∀ c ∈ text, c ∈ digits) :
    (stripZeros text).length ≤ k ↔ HasFigures (Nat.ofDigitChars 10 text 0 : Nat) k := by
  have hMem := mem_digits_of_mem_stripZeros hDigits
  obtain ⟨zeros, hValue⟩ := exists_ofDigitChars_stripZeros text
  have hCast : ((Nat.ofDigitChars 10 text 0 : Nat) : ℚ) =
      (Nat.ofDigitChars 10 (stripZeros text) 0 : Nat) * 10 ^ (zeros : Int) := by
    rw [hValue, Nat.cast_mul, Nat.cast_pow, Nat.cast_ofNat, zpow_natCast]
  rw [hCast, hasFigures_mul_zpow_iff]
  constructor
  · intro hLength
    have hLess := (ofDigitChars_lt hMem).trans_le (pow_le_pow_right₀ (by decide) hLength)
    exact ⟨_, 0, hLess, by rw [zpow_zero, mul_one]⟩
  · intro hFigures
    rcases hText : stripZeros text with - | ⟨c, rest⟩
    · exact Nat.zero_le k
    · have hNil : stripZeros text ≠ [] := by simp [hText]
      have hLess := hFigures.lt_of_mod (ofDigitChars_stripZeros_mod hDigits hNil)
      have hFirst : c ≠ '0' := ne_zero_of_mem_head?_stripZeros text c (by rw [hText]; rfl)
      rw [hText] at hLess hMem
      have hLow : 10 ^ rest.length ≤ Nat.ofDigitChars 10 (c :: rest) 0 :=
        pow_le_ofDigitChars_cons (hMem c List.mem_cons_self) hFirst
      exact (Nat.pow_lt_pow_iff_right (by decide)).mp (hLow.trans_lt hLess)

/-! ## The significant figures of a numeral -/

namespace Numeral

/-- The digits of the mantissa without the zeros in front and at the end. -/
def significant (n : Numeral) : List Char := stripZeros n.mantissa.figures

/-- The number alone says how many significant figures there are. -/
theorem length_significant_le_iff (n : Numeral) :
    n.significant.length ≤ k ↔ HasFigures n.size k := by
  rw [significant, length_stripZeros_le_iff n.mantissa.figures_digits,
    ← n.size_decimal, Decimal.size, hasFigures_mul_zpow_iff]
  rfl

end Numeral

end ReversePolish
