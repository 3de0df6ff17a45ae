import ReversePolish.Proofs.Decimal.Rounding
import ReversePolish.Proofs.Numeral.Value

/-!
# The number that a numeral denotes

A numeral denotes an exact number: its digits, times ten to its exponent, with its sign. A token
that is an operand is that number rounded to the nearest double, however many digits it has and
however large its exponent is.

* `size_decimal`: the decimal that is read has the magnitude of the numeral.
* `Numeral.trim_text`, `Numeral.spells_text`: the text of a numeral is a token of that numeral.
* `Numeral.Spells.rounded`: the double of a token is the number of its numeral, rounded.
* `Token.classify_rounds`: what this means for the values, and for two tokens.
-/

namespace ReversePolish

open Numeral (digits signs exponentMarks padding trim scan?)

/-! ## The number that a numeral denotes -/

/-- The value of digits after the point. -/
def fractionValue (part : List Char) : ℚ := Nat.ofDigitChars 10 part 0 / 10 ^ part.length

def Mantissa.number (m : Mantissa) : ℚ :=
  Nat.ofDigitChars 10 m.whole 0 + fractionValue (m.fraction.getD [])

namespace Numeral

def negative (n : Numeral) : Bool := n.sign == some '-'

/-- The mantissa times ten to the exponent. -/
def size (n : Numeral) : ℚ := n.mantissa.number * 10 ^ n.exponent.elim 0 Exponent.value

/-- The exact number that a numeral denotes. -/
def number (n : Numeral) : ℚ := Binary64.withSign n.negative n.size

/-- The token is the numeral, apart from the padding around it. -/
def Spells (n : Numeral) (token : String) : Prop := scan? token = some (String.ofList n.text)

theorem size_decimal (n : Numeral) : n.decimal.size = n.size := by
  have hTen : (10 : ℚ) ≠ 0 := by norm_num
  have hDigits : Nat.ofDigitChars 10 n.mantissa.figures 0 =
      10 ^ (n.mantissa.fraction.getD []).length * Nat.ofDigitChars 10 n.mantissa.whole 0 +
        Nat.ofDigitChars 10 (n.mantissa.fraction.getD []) 0 := by
    rw [Mantissa.figures, Nat.ofDigitChars_append, Nat.ofDigitChars_eq_ofDigitChars_zero]
  rw [Decimal.size, decimal, hDigits, size, Mantissa.number, fractionValue, zpow_sub₀ hTen,
    zpow_natCast]
  push_cast
  field_simp

theorem size_nonneg (n : Numeral) : 0 ≤ n.size := by
  rw [← size_decimal]
  exact n.decimal.size_nonneg

end Numeral

/-! ## The text of a numeral is a token -/

theorem Exponent.mem_text {x : Exponent} {c : Char} (hc : c ∈ x.text) :
    c ∈ exponentMarks ∨ c ∈ signs ∨ c ∈ digits := by
  rcases List.mem_cons.mp hc with rfl | hc
  · exact Or.inl x.mark_mem
  · rcases List.mem_append.mp hc with hc | hc
    · exact Or.inr (Or.inl (x.sign_mem c (Option.mem_toList.mp hc)))
    · exact Or.inr (Or.inr (x.places_digits c hc))

namespace Numeral

theorem mem_text {n : Numeral} {c : Char} (hc : c ∈ n.text) :
    c ∈ signs ++ (digits ++ ('.' :: exponentMarks)) := by
  simp only [List.mem_append, List.mem_cons]
  rcases List.mem_append.mp hc with hc | hc
  · exact Or.inl (n.sign_mem c (Option.mem_toList.mp hc))
  · rcases List.mem_append.mp hc with hc | hc
    · rcases Mantissa.mem_text hc with hDigit | hPoint
      · exact Or.inr (Or.inl hDigit)
      · exact Or.inr (Or.inr (Or.inl hPoint))
    · cases hExponent : n.exponent with
      | none => simp [hExponent] at hc
      | some x =>
        rw [hExponent] at hc
        rcases Exponent.mem_text hc with hMark | hSign | hDigit
        · exact Or.inr (Or.inr (Or.inr hMark))
        · exact Or.inl hSign
        · exact Or.inr (Or.inl hDigit)

theorem not_mem_padding {n : Numeral} {c : Char} (hc : c ∈ n.text) : c ∉ padding := by
  have hAll : (signs ++ (digits ++ ('.' :: exponentMarks))).all (!padding.contains ·) = true := by
    decide
  simpa using List.all_eq_true.mp hAll c (mem_text hc)

theorem trim_text (n : Numeral) : trim n.text = n.text := by
  have hStays {text : List Char} (h : ∀ c ∈ text, c ∉ padding) :
      text.dropWhile padding.contains = text := by
    cases text with
    | nil => rfl
    | cons c text => simp [h c (by simp)]
  have hFront := hStays (fun _ hc => not_mem_padding (n := n) hc)
  have hBack := hStays (fun _ hc => not_mem_padding (n := n) (List.mem_reverse.mp hc))
  rw [trim, hFront, hBack, List.reverse_reverse]

theorem spells_text (n : Numeral) : n.Spells (String.ofList n.text) := by
  rw [Spells, scan?, String.toList_ofList, trim_text, n.read?_text, Option.map_some]

end Numeral

/-! ## Tokens -/

theorem Token.exists_spells {token : String} {x : Binary64} (h : Token.value? token = some x) :
    ∃ n : Numeral, n.Spells token := by
  have hSome : (scan? token).isSome = true := by rw [← Token.value?_isSome, h]; rfl
  obtain ⟨literal, hScan⟩ := Option.isSome_iff_exists.mp hSome
  obtain ⟨n, hText⟩ := exists_numeral_of_scan? hScan
  refine ⟨n, ?_⟩
  rw [Numeral.Spells, hScan, hText, String.ofList_toList]

theorem Numeral.Spells.value? {n : Numeral} {token : String} (h : n.Spells token) :
    Token.value? token = some n.decimal.toBinary64 := by
  rw [Spells] at h
  unfold Token.value?
  rw [h]
  simp [n.ofLiteral?_text]

/-- A token is the text of one numeral only, as far as numbers go. -/
theorem Numeral.Spells.size_unique {n n' : Numeral} {token : String} (h : n.Spells token)
    (h' : n'.Spells token) : n.size = n'.size := by
  have hText : n.text = n'.text := String.ofList_injective (Option.some.inj (h.symm.trans h'))
  have hDecimal := n.ofLiteral?_text
  rw [hText, n'.ofLiteral?_text] at hDecimal
  rw [← n.size_decimal, ← n'.size_decimal, Option.some.inj hDecimal]

theorem Token.classify_eq_operand_iff {token : String} {x : Binary64} :
    Token.classify token = .operand x ↔ Token.value? token = some x := by
  unfold Token.classify
  cases Token.value? token <;> simp

/-- The double of a token is the number of its numeral, rounded. -/
theorem Numeral.Spells.rounded {n : Numeral} {token : String} (hn : n.Spells token) {x : Binary64}
    (h : Token.classify token = .operand x) : Binary64.Rounded n.negative n.size x := by
  rw [Token.classify_eq_operand_iff, hn.value?] at h
  rw [← Option.some.inj h, ← n.size_decimal]
  exact n.decimal.rounded_toBinary64

/-- **Correct rounding.** An operand is the exact number of its numeral rounded to the nearest
double, ties to even; it is infinite from half a step above the largest finite double on, and a zero
up to half of the smallest one, with the sign that is written. Hence another spelling of the same
number with the same sign is the same double, and a larger number is not a smaller double. -/
theorem Token.classify_rounds {token : String} {x : Binary64}
    (h : Token.classify token = .operand x) :
    (∃ n : Numeral, n.Spells token) ∧
      ∀ n : Numeral, n.Spells token →
        Binary64.RoundsTo n.negative n.number x ∧
        (x = Binary64.zero n.negative ↔ |n.number| ≤ 1 / 2 ^ 1075) ∧
        ∀ (token' : String) (x' : Binary64) (n' : Numeral),
          Token.classify token' = .operand x' → n'.Spells token' →
            (n'.number = n.number → n'.negative = n.negative → x' = x) ∧
            (n.number ≤ n'.number → x.extended ≤ x'.extended) := by
  refine ⟨exists_spells (classify_eq_operand_iff.mp h), ?_⟩
  intro n hn
  have hRounded := hn.rounded h
  refine ⟨hRounded.roundsTo n.size_nonneg, ?_, ?_⟩
  · rw [Numeral.number, Binary64.abs_withSign _ n.size_nonneg]
    exact hRounded.eq_zero_iff
  · intro token' x' n' h' hn'
    have hRounded' := hn'.rounded h'
    constructor
    · intro hNumber hNegative
      have hSize : n'.size = n.size := by
        have hAbs := congrArg abs hNumber
        rwa [Numeral.number, Numeral.number, Binary64.abs_withSign _ n.size_nonneg,
          Binary64.abs_withSign _ n'.size_nonneg] at hAbs
      rw [hNegative, hSize] at hRounded'
      exact hRounded'.unique hRounded
    · exact hRounded.extended_le n.size_nonneg n'.size_nonneg hRounded'

/-- A number half way between two doubles: `2 ^ 53 + 1` is rounded to `2 ^ 53`. -/
theorem Token.classify_rounds_tie :
    Token.classify "9007199254740993" = .operand ⟨false, 0x4340000000000000, by decide⟩ ∧
      ∃ n : Numeral, n.Spells "9007199254740993" ∧
        Binary64.RoundsTo n.negative n.number ⟨false, 0x4340000000000000, by decide⟩ := by
  have h : Token.classify "9007199254740993" = .operand ⟨false, 0x4340000000000000, by decide⟩ := by
    decide +kernel
  obtain ⟨⟨n, hn⟩, hAll⟩ := Token.classify_rounds h
  exact ⟨h, n, hn, (hAll n hn).1⟩

end ReversePolish
