import ReversePolish.Proofs.Numeral.Figures
import ReversePolish.Proofs.Numeral.Grammar

/-!
# The form of a positional text

The text of a decimal is a word of `-? ( 0 | [1-9] D* ) ( '.' D* [1-9] )?`: it has no exponent and
no plus, its whole part begins with a zero only if it is nothing but that zero, and its fraction is
there only if it ends in a digit that is not zero (`Decimal.plain_mem_positional`).
-/

namespace ReversePolish

open Numeral (digits)

variable {part : List Char} {c : Char}

/-! ## The grammar -/

namespace Grammar

open RegularExpression

/-- `[1-9]`. -/
def nonzero : RegularExpression Char := oneOf ['1', '2', '3', '4', '5', '6', '7', '8', '9']

/-- `0 | [1-9] D*`. -/
def whole : RegularExpression Char := char '0' + nonzero * digit.star

/-- `( '.' D* [1-9] )?`. -/
def fraction : RegularExpression Char := 1 + char '.' * (digit.star * nonzero)

/-- `-? ( 0 | [1-9] D* ) ( '.' D* [1-9] )?`. -/
def positional : RegularExpression Char := (1 + char '-') * (whole * fraction)

theorem mem_nonzero (hDigit : c ∈ digits) (hNonzero : c ≠ '0') : [c] ∈ nonzero.matches' := by
  refine mem_oneOf.mpr ⟨c, ?_, rfl⟩
  rcases List.mem_cons.mp hDigit with rfl | hDigit
  · exact absurd rfl hNonzero
  · exact hDigit

end Grammar

open Grammar RegularExpression

/-! ## The parts of a text -/

theorem ne_zero_of_mem_head?_toDigits {n : Nat} (hn : n ≠ 0) :
    ∀ c ∈ (Nat.toDigits 10 n).head?, c ≠ '0' := by
  induction n using Nat.strong_induction_on with
  | h n ih =>
    rcases Nat.lt_or_ge n 10 with hSmall | hLarge
    · rw [Nat.toDigits_of_lt_base hSmall]
      rintro c hc rfl
      exact hn (Nat.digitChar_eq_zero.mp (Option.some.inj hc))
    · -- the leading digit of `n` is that of `n / 10`
      have hNil : Nat.toDigits 10 (n / 10) ≠ [] := Nat.toDigits_ne_nil
      obtain ⟨first, rest, hText⟩ := List.exists_cons_of_ne_nil hNil
      have hFirst := ih (n / 10) (by omega) (by omega)
      rw [Nat.toDigits_of_base_le (by decide) hLarge, hText]
      rw [hText] at hFirst
      exact hFirst

theorem toDigits_mem_whole (n : Nat) : Nat.toDigits 10 n ∈ whole.matches' := by
  rw [whole, matches'_add, Language.mem_add, matches'_char]
  by_cases hn : n = 0
  · subst hn
    exact Or.inl rfl
  · have hNil : Nat.toDigits 10 n ≠ [] := Nat.toDigits_ne_nil
    obtain ⟨first, rest, hText⟩ := List.exists_cons_of_ne_nil hNil
    have hFirst := ne_zero_of_mem_head?_toDigits hn
    have hDigits : ∀ c ∈ Nat.toDigits 10 n, c ∈ digits := mem_digits_of_mem_toDigits
    rw [hText] at hFirst hDigits ⊢
    refine Or.inr ?_
    rw [matches'_mul, Language.mem_mul]
    have hLeading : [first] ∈ nonzero.matches' :=
      mem_nonzero (hDigits first List.mem_cons_self) (hFirst first rfl)
    have hRest : rest ∈ digit.star.matches' :=
      mem_digit_star.mpr (fun d hd => hDigits d (List.mem_cons_of_mem first hd))
    exact ⟨[first], hLeading, rest, hRest, rfl⟩

theorem pointed_mem_fraction (hDigits : ∀ c ∈ part, c ∈ digits)
    (hLast : ∀ c ∈ part.getLast?, c ≠ '0') : Decimal.pointed part ∈ fraction.matches' := by
  rw [fraction, matches'_add, Language.mem_add, matches'_epsilon, Language.mem_one, mem_point]
  rcases part.eq_nil_or_concat with rfl | ⟨before, last, rfl⟩
  · exact Or.inl rfl
  · rw [List.concat_eq_append] at hDigits hLast ⊢
    refine Or.inr ⟨before ++ [last], ?_, ?_⟩
    · rw [matches'_mul, Language.mem_mul]
      refine ⟨before, mem_digit_star.mpr (fun d hd => hDigits d (by simp [hd])), [last], ?_, rfl⟩
      exact mem_nonzero (hDigits last (by simp)) (hLast last (by simp))
    · cases before with
      | nil => rfl
      | cons first before => rfl

namespace Decimal

theorem plainMagnitude_mem (coefficient : Nat) (exponent : Int) :
    plainMagnitude coefficient exponent ∈ (whole * fraction).matches' := by
  rw [matches'_mul, Language.mem_mul]
  cases exponent with
  | ofNat k =>
    have hNone : pointed [] ∈ fraction.matches' := pointed_mem_fraction (by simp) (by simp)
    exact ⟨_, toDigits_mem_whole _, [], hNone, List.append_nil _⟩
  | negSucc k =>
    refine ⟨_, toDigits_mem_whole _, _, ?_, rfl⟩
    exact pointed_mem_fraction mem_digits_of_mem_fractionDigits
      (ne_zero_of_mem_getLast?_dropTrailingZeros _)

/-- The text of a decimal is positional. -/
theorem plain_mem_positional (d : Decimal) : d.plain ∈ positional.matches' := by
  rw [positional, matches'_mul, Language.mem_mul, plain]
  refine ⟨_, ?_, _, plainMagnitude_mem d.coefficient d.exponent, rfl⟩
  rw [matches'_add, Language.mem_add, matches'_epsilon, Language.mem_one, matches'_char]
  cases d.negative with
  | false => exact Or.inl rfl
  | true => exact Or.inr rfl

end Decimal

end ReversePolish
