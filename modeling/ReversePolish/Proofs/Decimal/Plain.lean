import ReversePolish.Decimal.Plain
import ReversePolish.Proofs.Numeral.Number

/-!
# The positional text of a decimal

The text of a decimal without an exponent is a numeral of the same number and the same sign. Before
the point stands the quotient by a power of ten, behind it the remainder, padded with zeros in
front; the zeros at the end that are dropped count for nothing.

* `fractionValue_fractionDigits`: the digits behind the point are worth the remainder.
* `exists_mantissa`: the text of a magnitude is a mantissa of the same number.
* `exists_numeral`: the text of a decimal is a numeral.
-/

namespace ReversePolish

open Numeral (digits signs)

/-! ## Digits -/

theorem mem_digits_of_isDigit {c : Char} (h : c.isDigit = true) : c ∈ digits := by
  have hAll : ∀ n < 58, 48 ≤ n → Char.ofNat n ∈ digits := by decide
  obtain ⟨hLow, hHigh⟩ := Char.isDigit_iff_toNat.mp h
  rw [← Char.ofNat_toNat c]
  exact hAll c.toNat (Nat.lt_succ_of_le hHigh) hLow

theorem mem_digits_of_mem_toDigits {n : Nat} : ∀ c ∈ Nat.toDigits 10 n, c ∈ digits :=
  fun _ hc => mem_digits_of_isDigit (Nat.isDigit_of_mem_toDigits (by decide) (by decide) hc)

namespace Decimal

/-- Only zeros are dropped. -/
theorem exists_dropTrailingZeros_append (part : List Char) :
    ∃ zeros, dropTrailingZeros part ++ List.replicate zeros '0' = part := by
  refine ⟨(part.reverse.takeWhile (· == '0')).length, ?_⟩
  have hZeros : part.reverse.takeWhile (· == '0') =
      List.replicate (part.reverse.takeWhile (· == '0')).length '0' := by
    rw [List.eq_replicate_length]
    intro c hc
    have hAll : (part.reverse.takeWhile (· == '0')).all (· == '0') = true := List.all_takeWhile
    exact eq_of_beq (List.all_eq_true.mp hAll c hc)
  have hSplit : part.reverse.takeWhile (· == '0') ++ part.reverse.dropWhile (· == '0') =
      part.reverse := List.takeWhile_append_dropWhile
  rw [dropTrailingZeros, ← List.reverse_replicate, ← hZeros, ← List.reverse_append, hSplit,
    List.reverse_reverse]

theorem fractionValue_append_zeros (part : List Char) (zeros : Nat) :
    fractionValue (part ++ List.replicate zeros '0') = fractionValue part := by
  have hTen : (10 : ℚ) ≠ 0 := by norm_num
  rw [fractionValue, fractionValue, Nat.ofDigitChars_append, Nat.ofDigitChars_replicate_zero,
    List.length_append, List.length_replicate, pow_add]
  push_cast
  field_simp

theorem fractionValue_dropTrailingZeros (part : List Char) :
    fractionValue (dropTrailingZeros part) = fractionValue part := by
  obtain ⟨zeros, hPart⟩ := exists_dropTrailingZeros_append part
  conv_rhs => rw [← hPart, fractionValue_append_zeros]

theorem fractionValue_leftpad {part places : Nat} (hPlaces : 0 < places)
    (hPart : part < 10 ^ places) :
    fractionValue ((Nat.toDigits 10 part).leftpad places '0') = part / 10 ^ places := by
  have hLength : ((Nat.toDigits 10 part).leftpad places '0').length = places := by
    rw [List.length_leftpad]
    exact Nat.max_eq_left ((Nat.length_toDigits_le_iff (by decide) hPlaces).mpr hPart)
  rw [fractionValue, hLength, List.leftpad, Nat.ofDigitChars_append,
    Nat.ofDigitChars_replicate_zero, Nat.mul_zero, Nat.ofDigitChars_ten_toDigits]

theorem fractionValue_fractionDigits {part places : Nat} (hPlaces : 0 < places)
    (hPart : part < 10 ^ places) :
    fractionValue (fractionDigits part places) = part / 10 ^ places := by
  rw [fractionDigits, fractionValue_dropTrailingZeros, fractionValue_leftpad hPlaces hPart]

theorem mem_digits_of_mem_fractionDigits {part places : Nat} :
    ∀ c ∈ fractionDigits part places, c ∈ digits := by
  intro c hc
  obtain ⟨zeros, hPart⟩ :=
    exists_dropTrailingZeros_append ((Nat.toDigits 10 part).leftpad places '0')
  have hMem : c ∈ (Nat.toDigits 10 part).leftpad places '0' := by
    rw [← hPart]
    exact List.mem_append_left _ hc
  rcases List.mem_append.mp hMem with hZero | hDigit
  · rw [List.eq_of_mem_replicate hZero]
    decide
  · exact mem_digits_of_mem_toDigits c hDigit

@[simp] theorem fractionValue_nil : fractionValue [] = 0 := by
  simp [fractionValue]

/-! ## The numeral that is written -/

/-- The decimal digits of a whole number and the digits of a fraction make a mantissa. -/
theorem exists_mantissa_of_parts (whole : Nat) {part : List Char} (hPart : ∀ c ∈ part, c ∈ digits) :
    ∃ m : Mantissa, m.text = Nat.toDigits 10 whole ++ pointed part ∧
      m.number = whole + fractionValue part := by
  have hWhole : ∀ c ∈ Nat.toDigits 10 whole, c ∈ digits := mem_digits_of_mem_toDigits
  have hValue : Nat.ofDigitChars 10 (Nat.toDigits 10 whole) 0 = whole :=
    Nat.ofDigitChars_ten_toDigits
  cases part with
  | nil =>
    refine ⟨⟨Nat.toDigits 10 whole, none, hWhole, by simp, by simp⟩, rfl, ?_⟩
    rw [Mantissa.number, hValue, Option.getD_none]
  | cons c part =>
    have hFraction : ∀ p ∈ some (c :: part), ∀ d ∈ p, d ∈ digits := by simpa using hPart
    refine ⟨⟨Nat.toDigits 10 whole, some (c :: part), hWhole, hFraction, by simp⟩, rfl, ?_⟩
    rw [Mantissa.number, hValue, Option.getD_some]

theorem exists_mantissa (coefficient : Nat) (exponent : Int) :
    ∃ m : Mantissa, m.text = plainMagnitude coefficient exponent ∧
      m.number = coefficient * 10 ^ exponent := by
  cases exponent with
  | ofNat k =>
    obtain ⟨m, hText, hNumber⟩ :=
      exists_mantissa_of_parts (coefficient * 10 ^ k) (fun _ hc => absurd hc List.not_mem_nil)
    refine ⟨m, by rw [hText, pointed, List.append_nil]; rfl, ?_⟩
    rw [hNumber, fractionValue_nil, Int.ofNat_eq_natCast, zpow_natCast, add_zero]
    push_cast
    rfl
  | negSucc k =>
    have hOne : 0 < 10 ^ (k + 1) := Nat.pow_pos (by decide)
    have hDigits : ∀ c ∈ fractionDigits (coefficient % 10 ^ (k + 1)) (k + 1), c ∈ digits :=
      mem_digits_of_mem_fractionDigits
    obtain ⟨m, hText, hNumber⟩ := exists_mantissa_of_parts (coefficient / 10 ^ (k + 1)) hDigits
    refine ⟨m, hText, ?_⟩
    have hPart := fractionValue_fractionDigits (Nat.add_one_pos k) (Nat.mod_lt coefficient hOne)
    have hRatio := Binary64.cast_div_eq coefficient hOne
    rw [Nat.cast_pow, Nat.cast_ofNat] at hRatio
    rw [hNumber, hPart, zpow_negSucc, ← div_eq_mul_inv, hRatio]

/-- The positional text of a decimal is a numeral of the same number. -/
theorem exists_numeral (d : Decimal) :
    ∃ n : Numeral, n.text = d.plain ∧ n.negative = d.negative ∧ n.size = d.size := by
  obtain ⟨negative, coefficient, exponent⟩ := d
  obtain ⟨m, hText, hNumber⟩ := exists_mantissa coefficient exponent
  have hSize {n : Numeral} (hMantissa : n.mantissa = m) (hExponent : n.exponent = none) :
      n.size = coefficient * 10 ^ exponent := by
    rw [Numeral.size, hMantissa, hExponent, hNumber, Option.elim_none, zpow_zero, mul_one]
  cases negative with
  | false =>
    refine ⟨⟨none, m, none, by simp⟩, ?_, rfl, hSize rfl rfl⟩
    simp [Numeral.text, plain, hText]
  | true =>
    refine ⟨⟨some '-', m, none, by simp [signs]⟩, ?_, rfl, hSize rfl rfl⟩
    simp [Numeral.text, plain, hText]

end Decimal

end ReversePolish
