import ReversePolish.Proofs.Numeral.Grammar
import ReversePolish.Token

/-!
# The decimal that a numeral stands for

The reader of literals cuts a text at its exponent mark and at its point without knowing that the
text is a numeral. On the text of a `Numeral` the cuts fall between its parts, so the reader never
refuses, and it answers the decimal of these parts (`Numeral.ofLiteral?_text`). Hence a token has a
value exactly when it is recognised as a numeral (`Token.value?_isSome`).
-/

namespace ReversePolish

open Numeral (digits signs exponentMarks trim read? scan?)
open Decimal (signOf isExponentMark natural? integer? scale? ofLiteral?)

/-- The digits of a mantissa without its point. -/
def Mantissa.figures (m : Mantissa) : List Char := m.whole ++ m.fraction.getD []

/-- The whole number in an exponent. -/
def Exponent.value (x : Exponent) : Int :=
  if x.sign == some '-' then -(Nat.ofDigitChars 10 x.places 0 : Int)
  else Nat.ofDigitChars 10 x.places 0

/-- The decimal that a numeral stands for. -/
def Numeral.decimal (n : Numeral) : Decimal where
  negative := n.sign == some '-'
  coefficient := Nat.ofDigitChars 10 n.mantissa.figures 0
  exponent := n.exponent.elim 0 Exponent.value - (n.mantissa.fraction.getD []).length

/-! ## Reading the parts -/

theorem natural?_of_mem_digits {text : List Char} (hAll : ∀ c ∈ text, c ∈ digits)
    (hNil : text ≠ []) : natural? text = some (Nat.ofDigitChars 10 text 0) := by
  have hDigits : digits.all Char.isDigit = true := by decide
  have hDigit : ∀ c ∈ text, c.isDigit = true :=
    fun c hc => List.all_eq_true.mp hDigits c (hAll c hc)
  unfold natural?
  rw [if_pos ⟨hNil, List.all_eq_true.mpr hDigit⟩]

theorem signOf_append {sign : Option Char} {rest : List Char} (hSign : ∀ c ∈ sign, c ∈ signs)
    (hRest : ∀ c ∈ rest.head?, c ∉ signs) :
    signOf (sign.toList ++ rest) = (sign == some '-', rest) := by
  cases sign with
  | none =>
    cases rest with
    | nil => rfl
    | cons c rest =>
      have hc := hRest c rfl
      unfold signOf
      split
      · rename_i h
        cases h
        exact absurd (by decide) hc
      · rename_i h
        cases h
        exact absurd (by decide) hc
      · rfl
  | some c =>
    have hc := hSign c rfl
    simp only [signs, List.mem_cons, List.not_mem_nil, or_false] at hc
    rcases hc with rfl | rfl <;> rfl

theorem isExponentMark_iff {c : Char} : isExponentMark c = true ↔ c ∈ exponentMarks := by
  simp [isExponentMark, exponentMarks]

theorem Exponent.integer?_text (x : Exponent) :
    integer? (x.sign.toList ++ x.places) = some x.value := by
  have hHead := x.head_append_not_mem_signs []
  rw [List.append_nil] at hHead
  unfold integer?
  rw [signOf_append x.sign_mem hHead]
  simp only [natural?_of_mem_digits x.places_digits x.places_ne_nil]
  rfl

theorem Numeral.scale?_text (n : Numeral) :
    scale? (n.exponent.elim [] Exponent.text) = some (n.exponent.elim 0 Exponent.value) := by
  cases n.exponent with
  | none => rfl
  | some x => exact x.integer?_text

theorem Mantissa.figures_digits (m : Mantissa) : ∀ c ∈ m.figures, c ∈ digits := by
  intro c hc
  rcases List.mem_append.mp hc with hc | hc
  · exact m.whole_digits c hc
  · cases hFraction : m.fraction with
    | none => simp [hFraction] at hc
    | some part =>
      rw [hFraction, Option.getD_some] at hc
      exact m.fraction_digits part hFraction c hc

theorem Mantissa.mem_text {m : Mantissa} {c : Char} (hc : c ∈ m.text) : c ∈ digits ∨ c = '.' := by
  rcases List.mem_append.mp hc with hc | hc
  · exact Or.inl (m.whole_digits c hc)
  · cases hFraction : m.fraction with
    | none => simp [point, hFraction] at hc
    | some part =>
      simp only [point, hFraction, Option.elim_some, List.mem_cons] at hc
      rcases hc with rfl | hc
      · exact Or.inr rfl
      · exact Or.inl (m.fraction_digits part hFraction c hc)

/-- A mantissa has no exponent mark in it. -/
theorem Mantissa.not_isExponentMark_of_mem_text (m : Mantissa) :
    ∀ c ∈ m.text, (!isExponentMark c) = true := by
  intro c hc
  rcases mem_text hc with hDigit | rfl
  · rw [Bool.not_eq_true', ← Bool.not_eq_true, isExponentMark_iff]
    exact not_mem_marks_of_mem_digits hDigit
  · decide

/-! ## Cutting the text at the mark and at the point -/

theorem Numeral.takeWhile_mark (n : Numeral) :
    (n.mantissa.text ++ n.exponent.elim [] Exponent.text).takeWhile (!isExponentMark ·) =
      n.mantissa.text := by
  rw [List.takeWhile_append_of_pos n.mantissa.not_isExponentMark_of_mem_text]
  cases n.exponent with
  | none => simp
  | some x => simp [Exponent.text, isExponentMark_iff.mpr x.mark_mem]

theorem Numeral.dropWhile_mark (n : Numeral) :
    (n.mantissa.text ++ n.exponent.elim [] Exponent.text).dropWhile (!isExponentMark ·) =
      n.exponent.elim [] Exponent.text := by
  rw [List.dropWhile_append_of_pos n.mantissa.not_isExponentMark_of_mem_text]
  cases n.exponent with
  | none => simp
  | some x => simp [Exponent.text, isExponentMark_iff.mpr x.mark_mem]

theorem Mantissa.ne_point_of_mem_whole (m : Mantissa) : ∀ c ∈ m.whole, (c != '.') = true :=
  fun c hc => by simpa using ne_point_of_mem_digits (m.whole_digits c hc)

theorem Mantissa.takeWhile_point (m : Mantissa) : m.text.takeWhile (· != '.') = m.whole := by
  rw [Mantissa.text, List.takeWhile_append_of_pos m.ne_point_of_mem_whole]
  cases m.fraction <;> simp [point]

theorem Mantissa.drop_dropWhile_point (m : Mantissa) :
    (m.text.dropWhile (· != '.')).drop 1 = m.fraction.getD [] := by
  rw [Mantissa.text, List.dropWhile_append_of_pos m.ne_point_of_mem_whole]
  cases m.fraction <;> simp [point]

/-- Reading the text of a numeral yields the decimal of its parts. -/
theorem Numeral.ofLiteral?_text (n : Numeral) : ofLiteral? n.text = some n.decimal := by
  have hSign : signOf n.text =
      (n.sign == some '-', n.mantissa.text ++ n.exponent.elim [] Exponent.text) :=
    signOf_append n.sign_mem (n.mantissa.head_append_not_mem_signs _)
  have hFigures : natural? n.mantissa.figures =
      some (Nat.ofDigitChars 10 n.mantissa.figures 0) :=
    natural?_of_mem_digits n.mantissa.figures_digits n.mantissa.some_digit
  unfold ofLiteral?
  simp only [hSign, n.takeWhile_mark, n.dropWhile_mark, n.mantissa.takeWhile_point,
    n.mantissa.drop_dropWhile_point, n.scale?_text]
  rw [← Mantissa.figures, hFigures]
  rfl

/-! ## Tokens with a value -/

theorem exists_numeral_of_scan? {token literal : String} (h : scan? token = some literal) :
    ∃ n : Numeral, n.text = literal.toList := by
  obtain ⟨core, hRead, rfl⟩ := Option.map_eq_some_iff.mp h
  obtain ⟨rfl, n, hText⟩ := Numeral.exists_of_read?_eq_some hRead
  exact ⟨n, by rw [hText, String.toList_ofList]⟩

/-- A token has a value exactly when it is recognised as a numeral. -/
theorem Token.value?_isSome (token : String) :
    (Token.value? token).isSome = (scan? token).isSome := by
  unfold Token.value?
  cases hScan : scan? token with
  | none => rfl
  | some literal =>
    obtain ⟨n, hText⟩ := exists_numeral_of_scan? hScan
    simp [← hText, n.ofLiteral?_text]

theorem Token.value?_eq_none {token : String} (h : scan? token = none) :
    Token.value? token = none := by
  have hSome := Token.value?_isSome token
  rw [h] at hSome
  simpa using hSome

end ReversePolish
