import Mathlib.Computability.RegularExpressions
import ReversePolish.Proofs.Numeral.Reading

/-!
# The grammar of numerals

Numerals are the words of a regular expression over characters,
`[+-]? ( D+ ( '.' D* )? | '.' D+ ) ( [eE] [+-]? D+ )?` with `D` the ten ASCII digits. The
recogniser, which reads greedily and goes back at most once, accepts exactly these words, after the
padding at both ends has been removed.

* `mem_grammar_iff`: a word of the grammar is the text of a `Numeral`.
* `read?_eq`: a text is read if and only if it is a word, and then as a whole.
* `trim_trimmed`: `trim` removes the padding at both ends and nothing else.
* `scan?_eq_of_grammar`: the recogniser of tokens, stated with the grammar alone.
-/

namespace ReversePolish

open Numeral (digits signs exponentMarks padding trim read? scan?)

namespace Grammar

open RegularExpression

/-- One character of the list. -/
def oneOf (set : List Char) : RegularExpression Char := (set.map char).foldr (· + ·) 0

/-- `D`. -/
def digit : RegularExpression Char := oneOf ['0', '1', '2', '3', '4', '5', '6', '7', '8', '9']

/-- `[+-]?`. -/
def sign : RegularExpression Char := 1 + oneOf ['+', '-']

/-- `D+ ( '.' D* )? | '.' D+`. -/
def mantissa : RegularExpression Char :=
  digit * digit.star * (1 + char '.' * digit.star) + char '.' * (digit * digit.star)

/-- `[eE] [+-]? D+`. -/
def exponent : RegularExpression Char := oneOf ['e', 'E'] * (sign * (digit * digit.star))

/-! ## Words of the parts -/

theorem mem_oneOf {set w : List Char} : w ∈ (oneOf set).matches' ↔ ∃ c ∈ set, w = [c] := by
  induction set with
  | nil => simp [oneOf]
  | cons c set ih =>
    have hCons : oneOf (c :: set) = char c + oneOf set := rfl
    rw [hCons, matches'_add, Language.mem_add, ih, matches'_char]
    simp only [List.mem_cons, exists_eq_or_imp]
    exact Iff.rfl

theorem mem_star_oneOf {set w : List Char} :
    w ∈ (oneOf set).star.matches' ↔ ∀ c ∈ w, c ∈ set := by
  rw [matches'_star, Language.mem_kstar]
  constructor
  · rintro ⟨pieces, rfl, hPieces⟩ c hc
    obtain ⟨piece, hPiece, hc⟩ := List.mem_flatten.mp hc
    obtain ⟨d, hd, rfl⟩ := mem_oneOf.mp (hPieces piece hPiece)
    rw [List.mem_singleton.mp hc]
    exact hd
  · intro h
    refine ⟨w.map (fun c => [c]), by simp [← List.flatMap_def], ?_⟩
    intro piece hPiece
    obtain ⟨c, hc, rfl⟩ := List.mem_map.mp hPiece
    exact mem_oneOf.mpr ⟨c, h c hc, rfl⟩

theorem mem_digit_star {w : List Char} : w ∈ digit.star.matches' ↔ ∀ c ∈ w, c ∈ digits :=
  mem_star_oneOf

theorem mem_digits {w : List Char} :
    w ∈ (digit * digit.star).matches' ↔ w ≠ [] ∧ ∀ c ∈ w, c ∈ digits := by
  rw [matches'_mul, Language.mem_mul]
  constructor
  · rintro ⟨_, hHead, rest, hRest, rfl⟩
    obtain ⟨c, hc, rfl⟩ := mem_oneOf.mp hHead
    refine ⟨by simp, ?_⟩
    intro d hd
    rcases List.mem_cons.mp hd with rfl | hd
    · exact hc
    · exact mem_digit_star.mp hRest d hd
  · rintro ⟨hNil, hAll⟩
    cases w with
    | nil => exact absurd rfl hNil
    | cons c rest =>
      refine ⟨[c], mem_oneOf.mpr ⟨c, hAll c (by simp), rfl⟩, rest, mem_digit_star.mpr ?_, rfl⟩
      exact fun d hd => hAll d (List.mem_cons_of_mem c hd)

theorem mem_sign {w : List Char} :
    w ∈ sign.matches' ↔ ∃ s : Option Char, (∀ c ∈ s, c ∈ signs) ∧ s.toList = w := by
  rw [sign, matches'_add, Language.mem_add, matches'_epsilon, Language.mem_one, mem_oneOf]
  constructor
  · rintro (rfl | ⟨c, hc, rfl⟩)
    · exact ⟨none, by simp, rfl⟩
    · refine ⟨some c, ?_, rfl⟩
      intro d hd
      cases hd
      exact hc
  · rintro ⟨s, hs, rfl⟩
    cases s with
    | none => exact Or.inl rfl
    | some c => exact Or.inr ⟨c, hs c rfl, rfl⟩

theorem mem_point {p : RegularExpression Char} {w : List Char} :
    w ∈ (char '.' * p).matches' ↔ ∃ part ∈ p.matches', '.' :: part = w := by
  rw [matches'_mul, Language.mem_mul, matches'_char]
  constructor
  · rintro ⟨_, rfl, part, hPart, rfl⟩
    exact ⟨part, hPart, rfl⟩
  · rintro ⟨part, hPart, rfl⟩
    exact ⟨['.'], rfl, part, hPart, rfl⟩

theorem mem_mantissa {w : List Char} : w ∈ mantissa.matches' ↔ ∃ m : Mantissa, m.text = w := by
  rw [mantissa, matches'_add, Language.mem_add, mem_point, matches'_mul, Language.mem_mul,
    matches'_add, matches'_epsilon]
  simp only [Language.mem_add, Language.mem_one, mem_point, mem_digits, mem_digit_star]
  constructor
  · rintro (⟨whole, ⟨hNil, hWhole⟩, _, rfl | ⟨part, hPart, rfl⟩, rfl⟩ | ⟨part, ⟨hNil, hPart⟩, rfl⟩)
    · exact ⟨⟨whole, none, hWhole, by simp, by simpa using hNil⟩, rfl⟩
    · exact ⟨⟨whole, some part, hWhole, by simpa using hPart, by simp [hNil]⟩, rfl⟩
    · exact ⟨⟨[], some part, by simp, by simpa using hPart, by simpa using hNil⟩, rfl⟩
  · rintro ⟨⟨whole, fraction, hWhole, hFraction, hSome⟩, rfl⟩
    cases fraction with
    | none =>
      have hNil : whole ≠ [] := by simpa using hSome
      exact Or.inl ⟨whole, ⟨hNil, hWhole⟩, [], Or.inl rfl, rfl⟩
    | some part =>
      have hPart := hFraction part rfl
      by_cases hNil : whole = []
      · subst hNil
        exact Or.inr ⟨part, ⟨by simpa using hSome, hPart⟩, rfl⟩
      · exact Or.inl ⟨whole, ⟨hNil, hWhole⟩, '.' :: part, Or.inr ⟨part, hPart, rfl⟩, rfl⟩

theorem mem_exponent {w : List Char} : w ∈ exponent.matches' ↔ ∃ x : Exponent, x.text = w := by
  rw [exponent, matches'_mul, Language.mem_mul, matches'_mul]
  simp only [Language.mem_mul, mem_oneOf, mem_sign, mem_digits]
  constructor
  · rintro ⟨_, ⟨mark, hMark, rfl⟩, _, ⟨_, ⟨s, hs, rfl⟩, places, ⟨hNil, hPlaces⟩, rfl⟩, rfl⟩
    exact ⟨⟨mark, s, places, hMark, hs, hPlaces, hNil⟩, rfl⟩
  · rintro ⟨⟨mark, s, places, hMark, hs, hPlaces, hNil⟩, rfl⟩
    exact ⟨[mark], ⟨mark, hMark, rfl⟩, _, ⟨_, ⟨s, hs, rfl⟩, places, ⟨hNil, hPlaces⟩, rfl⟩, rfl⟩

end Grammar

open Grammar RegularExpression

/-- The regular expression of numerals. -/
def grammar : RegularExpression Char := sign * (mantissa * (1 + exponent))

theorem mem_grammar_iff {w : List Char} : w ∈ grammar.matches' ↔ ∃ n : Numeral, n.text = w := by
  rw [grammar, matches'_mul, Language.mem_mul, matches'_mul, matches'_add, matches'_epsilon]
  simp only [Language.mem_mul, Language.mem_add, Language.mem_one, mem_sign, mem_mantissa,
    mem_exponent]
  constructor
  · rintro ⟨_, ⟨s, hs, rfl⟩, _, ⟨_, ⟨m, rfl⟩, _, rfl | ⟨x, rfl⟩, rfl⟩, rfl⟩
    · exact ⟨⟨s, m, none, hs⟩, rfl⟩
    · exact ⟨⟨s, m, some x, hs⟩, rfl⟩
  · rintro ⟨⟨s, m, x, hs⟩, rfl⟩
    cases x with
    | none => exact ⟨_, ⟨s, hs, rfl⟩, _, ⟨_, ⟨m, rfl⟩, [], Or.inl rfl, rfl⟩, rfl⟩
    | some x => exact ⟨_, ⟨s, hs, rfl⟩, _, ⟨_, ⟨m, rfl⟩, _, Or.inr ⟨x, rfl⟩, rfl⟩, rfl⟩

/-- Reading decides the grammar. -/
theorem read?_eq (text : List Char) :
    read? text = if text ∈ grammar.matches' then some text else none := by
  split
  · rename_i hWord
    obtain ⟨n, rfl⟩ := mem_grammar_iff.mp hWord
    exact n.read?_text
  · rename_i hWord
    cases hRead : read? text with
    | none => rfl
    | some literal =>
      obtain ⟨-, hForm⟩ := Numeral.exists_of_read?_eq_some hRead
      exact absurd (mem_grammar_iff.mpr hForm) hWord

/-! ## Padding -/

/-- `core` is what is left of `text` when all padding at both ends is removed. -/
structure Trimmed (text core : List Char) : Prop where
  split : ∃ before after, text = before ++ (core ++ after) ∧ (∀ c ∈ before, c ∈ padding) ∧
    ∀ c ∈ after, c ∈ padding
  head : ∀ c ∈ core.head?, c ∉ padding
  last : ∀ c ∈ core.getLast?, c ∉ padding

theorem trim_trimmed (text : List Char) : Trimmed text (trim text) := by
  unfold trim
  set start := text.dropWhile padding.contains with hStart
  set back := start.reverse.dropWhile padding.contains with hBack
  have hFront : text.takeWhile padding.contains ++ start = text := List.takeWhile_append_dropWhile
  have hEnd : start.reverse.takeWhile padding.contains ++ back = start.reverse :=
    List.takeWhile_append_dropWhile
  -- behind the padding in front come the core and the padding at the end
  have hSplit : start = back.reverse ++ (start.reverse.takeWhile padding.contains).reverse := by
    rw [← List.reverse_append, hEnd, List.reverse_reverse]
  refine ⟨⟨text.takeWhile padding.contains, (start.reverse.takeWhile padding.contains).reverse,
    ?_, mem_of_mem_takeWhile_contains, ?_⟩, ?_, ?_⟩
  · rw [← hSplit, hFront]
  · intro c hc
    exact mem_of_mem_takeWhile_contains c (List.mem_reverse.mp hc)
  · intro c hc
    have hHead : ∀ d ∈ start.head?, d ∉ padding := head_dropWhile_contains
    rw [hSplit, List.head?_append, Option.mem_def.mp hc] at hHead
    exact hHead c rfl
  · rw [List.getLast?_reverse]
    exact head_dropWhile_contains

/-- **Recognition of numerals.** A token is taken apart into padding and a core. If the core is a
word of the grammar, then the whole core is the numeral, and otherwise there is none. -/
theorem scan?_eq_of_grammar (token : String) :
    Trimmed token.toList (trim token.toList) ∧
      scan? token =
        if trim token.toList ∈ grammar.matches' then some (String.ofList (trim token.toList))
        else none := by
  refine ⟨trim_trimmed token.toList, ?_⟩
  rw [scan?, read?_eq]
  split <;> rfl

end ReversePolish
