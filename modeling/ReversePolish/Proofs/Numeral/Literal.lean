import ReversePolish.Evaluator.Basic
import ReversePolish.Proofs.Decimal.Plain
import ReversePolish.Proofs.Numeral.Grammar

/-!
# Two readers of one language

A token is recognised by scanning it from left to right, and its literal is then read by cutting it
at its mark and its point. The two ways have nothing in common, but they accept the same texts: the
reader of literals refuses nothing that is recognised, and takes nothing else.

Among all texts that are in use for a double, these are the decimals. The others are the names of an
infinity and of a result that is no number; no token is recognised as one of them.

* `Grammar.mem_double_iff`: the texts for a double are the names and the texts of numerals.
* `Decimal.exists_numeral_of_ofLiteral?`: what is read as a literal is the text of a numeral, part by
  part; the converse is `Numeral.ofLiteral?_text`.
* `Token.classify_agrees`: what this means for a token.
-/

namespace ReversePolish

open Numeral (digits signs exponentMarks scan?)

/-! ## The texts for a double -/

namespace Grammar

open RegularExpression

variable {w word : List Char}

/-- The word in letters of either case. -/
def anyCase (word : List Char) : RegularExpression Char :=
  (word.map (fun c => oneOf [c, c.toUpper])).foldr (· * ·) 1

/-- `inf | infinity | nan`, in letters of either case. -/
def name : RegularExpression Char :=
  anyCase ['i', 'n', 'f'] + anyCase ['i', 'n', 'f', 'i', 'n', 'i', 't', 'y'] +
    anyCase ['n', 'a', 'n']

/-- `D+ | D+ '.' D* | D* '.' D+`. -/
def pointed : RegularExpression Char :=
  digit * digit.star + digit * digit.star * (char '.' * digit.star) +
    digit.star * (char '.' * (digit * digit.star))

/-- A name with or without a sign. -/
def named : RegularExpression Char := sign * name

/-- `[+-]? ( inf | infinity | nan | ( D+ | D+ '.' D* | D* '.' D+ ) ( [eE] [+-]? D+ )? )`. -/
def double : RegularExpression Char := sign * (name + pointed * (1 + exponent))

theorem mem_pointed : w ∈ pointed.matches' ↔ ∃ m : Mantissa, m.text = w := by
  rw [pointed, matches'_add, Language.mem_add, matches'_add, Language.mem_add,
    matches'_mul (digit * digit.star), Language.mem_mul, matches'_mul digit.star, Language.mem_mul]
  simp only [mem_point, mem_digits, mem_digit_star]
  constructor
  · rintro ((⟨hNil, hWhole⟩ | ⟨whole, ⟨hNil, hWhole⟩, _, ⟨part, hPart, rfl⟩, rfl⟩) |
      ⟨whole, hWhole, _, ⟨part, ⟨hNil, hPart⟩, rfl⟩, rfl⟩)
    · exact ⟨⟨w, none, hWhole, by simp, by simpa using hNil⟩, List.append_nil w⟩
    · exact ⟨⟨whole, some part, hWhole, by simpa using hPart, by simp [hNil]⟩, rfl⟩
    · exact ⟨⟨whole, some part, hWhole, by simpa using hPart, by simp [hNil]⟩, rfl⟩
  · rintro ⟨⟨whole, fraction, hWhole, hFraction, hSome⟩, rfl⟩
    cases fraction with
    | none =>
      have hText : Mantissa.text ⟨whole, none, hWhole, hFraction, hSome⟩ = whole :=
        List.append_nil whole
      rw [hText]
      exact Or.inl (Or.inl ⟨by simpa using hSome, hWhole⟩)
    | some part =>
      have hPart := hFraction part rfl
      by_cases hNil : whole = []
      · have hPartNil : part ≠ [] := by simpa [hNil] using hSome
        exact Or.inr ⟨whole, hWhole, '.' :: part, ⟨part, ⟨hPartNil, hPart⟩, rfl⟩, rfl⟩
      · exact Or.inl (Or.inr ⟨whole, ⟨hNil, hWhole⟩, '.' :: part, ⟨part, hPart, rfl⟩, rfl⟩)

theorem mem_double_iff :
    w ∈ double.matches' ↔ w ∈ named.matches' ∨ ∃ n : Numeral, n.text = w := by
  have hMantissa : pointed.matches' = mantissa.matches' := by
    ext w
    rw [mem_pointed, mem_mantissa]
  rw [← mem_grammar_iff]
  simp only [double, named, grammar, matches'_mul, matches'_add, hMantissa, mul_add,
    Language.mem_add]

theorem mem_anyCase_cons {c : Char} :
    w ∈ (anyCase (c :: word)).matches' ↔
      ∃ d rest, (d = c ∨ d = c.toUpper) ∧ rest ∈ (anyCase word).matches' ∧ d :: rest = w := by
  have hCons : anyCase (c :: word) = oneOf [c, c.toUpper] * anyCase word := rfl
  rw [hCons, matches'_mul, Language.mem_mul]
  constructor
  · rintro ⟨_, hHead, rest, hRest, rfl⟩
    obtain ⟨d, hd, rfl⟩ := mem_oneOf.mp hHead
    exact ⟨d, rest, by simpa using hd, hRest, rfl⟩
  · rintro ⟨d, rest, hd, hRest, rfl⟩
    exact ⟨[d], mem_oneOf.mpr ⟨d, by simpa using hd, rfl⟩, rest, hRest, rfl⟩

theorem exists_mem_of_mem_anyCase {c : Char} (h : w ∈ (anyCase word).matches') (hc : c ∈ word) :
    c ∈ w ∨ c.toUpper ∈ w := by
  induction word generalizing w with
  | nil => cases hc
  | cons first word ih =>
    obtain ⟨d, rest, hd, hRest, rfl⟩ := mem_anyCase_cons.mp h
    rcases List.mem_cons.mp hc with rfl | hc
    · rcases hd with rfl | rfl
      · exact Or.inl List.mem_cons_self
      · exact Or.inr List.mem_cons_self
    · exact (ih hRest hc).imp (List.mem_cons_of_mem d) (List.mem_cons_of_mem d)

/-- Every name has an `n` in it. -/
theorem exists_mem_of_mem_named (h : w ∈ named.matches') : 'n' ∈ w ∨ 'N' ∈ w := by
  rw [named, matches'_mul, Language.mem_mul] at h
  obtain ⟨before, -, rest, hName, rfl⟩ := h
  rw [name, matches'_add, Language.mem_add, matches'_add, Language.mem_add] at hName
  have hRest : 'n' ∈ rest ∨ 'N' ∈ rest := by
    rcases hName with (hName | hName) | hName
    · exact exists_mem_of_mem_anyCase hName (by decide)
    · exact exists_mem_of_mem_anyCase hName (by decide)
    · exact exists_mem_of_mem_anyCase hName (by decide)
  exact hRest.imp (List.mem_append_right before) (List.mem_append_right before)

/-- A numeral has no letters but its mark, so it is not a name. -/
theorem text_not_mem_named (n : Numeral) : n.text ∉ named.matches' := by
  intro h
  rcases exists_mem_of_mem_named h with hMem | hMem
  · exact absurd (Numeral.mem_text hMem) (by decide)
  · exact absurd (Numeral.mem_text hMem) (by decide)

end Grammar

/-! ## What the reader of literals accepts -/

namespace Decimal

variable {text : List Char}

theorem exists_sign (text : List Char) :
    ∃ sign : Option Char, (∀ c ∈ sign, c ∈ signs) ∧ sign.toList ++ (signOf text).2 = text := by
  unfold signOf
  split
  · exact ⟨some '-', by simp [signs], rfl⟩
  · exact ⟨some '+', by simp [signs], rfl⟩
  · exact ⟨none, by simp, rfl⟩

theorem digits_of_natural? {n : Nat} (h : natural? text = some n) :
    text ≠ [] ∧ ∀ c ∈ text, c ∈ digits := by
  unfold natural? at h
  split at h
  · rename_i hText
    exact ⟨hText.1, fun c hc => mem_digits_of_isDigit (List.all_eq_true.mp hText.2 c hc)⟩
  · cases h

theorem exists_natural?_of_integer? {k : Int} (h : integer? text = some k) :
    ∃ n, natural? (signOf text).2 = some n := by
  unfold integer? at h
  simp only [Option.map_eq_some_iff, Option.bind_eq_bind, Option.bind_eq_some_iff] at h
  obtain ⟨_, ⟨n, hDigits, -⟩, -⟩ := h
  exact ⟨n, hDigits⟩

/-- From its mark on, a literal that is read has an exponent, or it has no mark. -/
theorem exists_exponent {k : Int} (h : scale? (text.dropWhile (!isExponentMark ·)) = some k) :
    ∃ x : Option Exponent, x.elim [] Exponent.text = text.dropWhile (!isExponentMark ·) := by
  have hHead := List.head?_dropWhile_not (!isExponentMark ·) text
  cases hTail : text.dropWhile (!isExponentMark ·) with
  | nil => exact ⟨none, rfl⟩
  | cons mark rest =>
    rw [hTail] at h hHead
    have hMark : isExponentMark mark = true := by simpa using hHead
    have hInteger : integer? rest = some k := h
    obtain ⟨n, hDigits⟩ := exists_natural?_of_integer? hInteger
    obtain ⟨hNil, hAll⟩ := digits_of_natural? hDigits
    obtain ⟨sign, hSign, hRest⟩ := exists_sign rest
    refine ⟨some ⟨mark, sign, (signOf rest).2, isExponentMark_iff.mp hMark, hSign, hAll, hNil⟩, ?_⟩
    exact congrArg (mark :: ·) hRest

/-- In front of its mark, a literal that is read has a mantissa. -/
theorem exists_mantissa_of_natural? {n : Nat}
    (h : natural? (text.takeWhile (· != '.') ++ (text.dropWhile (· != '.')).drop 1) = some n) :
    ∃ m : Mantissa, m.text = text := by
  obtain ⟨hNil, hAll⟩ := digits_of_natural? h
  have hHead := List.head?_dropWhile_not (· != '.') text
  have hText : text.takeWhile (· != '.') ++ text.dropWhile (· != '.') = text :=
    List.takeWhile_append_dropWhile
  have hWhole : ∀ c ∈ text.takeWhile (· != '.'), c ∈ digits :=
    fun c hc => hAll c (List.mem_append_left _ hc)
  cases hRest : text.dropWhile (· != '.') with
  | nil =>
    rw [hRest] at hText hNil
    exact ⟨⟨text.takeWhile (· != '.'), none, hWhole, by simp, hNil⟩, hText⟩
  | cons c part =>
    rw [hRest] at hText hNil hAll hHead
    obtain rfl : c = '.' := by simpa using hHead
    have hPart : ∀ d ∈ part, d ∈ digits := fun d hd => hAll d (List.mem_append_right _ hd)
    exact ⟨⟨text.takeWhile (· != '.'), some part, hWhole, by simpa using hPart, hNil⟩, hText⟩

theorem exists_numeral_of_ofLiteral? {d : Decimal} (h : ofLiteral? text = some d) :
    ∃ n : Numeral, n.text = text := by
  unfold ofLiteral? at h
  simp only [Option.bind_eq_bind, Option.bind_eq_some_iff] at h
  obtain ⟨coefficient, hCoefficient, k, hScale, -⟩ := h
  obtain ⟨sign, hSign, hText⟩ := exists_sign text
  obtain ⟨m, hMantissa⟩ := exists_mantissa_of_natural? hCoefficient
  obtain ⟨x, hExponent⟩ := exists_exponent hScale
  refine ⟨⟨sign, m, x, hSign⟩, ?_⟩
  rw [Numeral.text, hMantissa, hExponent, List.takeWhile_append_dropWhile, hText]

theorem exists_ofLiteral?_eq_iff :
    (∃ d, ofLiteral? text = some d) ↔ ∃ n : Numeral, n.text = text := by
  constructor
  · rintro ⟨d, h⟩
    exact exists_numeral_of_ofLiteral? h
  · rintro ⟨n, rfl⟩
    exact ⟨n.decimal, n.ofLiteral?_text⟩

end Decimal

/-! ## Tokens -/

namespace Token

open Evaluator (feed)

variable {token text : String}

theorem classify_eq_operator_iff :
    classify token = .operator text ↔ scan? token = none ∧ text = token := by
  rw [← Option.isNone_iff_eq_none, ← Option.not_isSome, ← value?_isSome, classify]
  cases value? token with
  | some x => simp
  | none => simp [eq_comm]

theorem exists_spells_of_scan? {literal : String} (h : scan? token = some literal) :
    ∃ n : Numeral, n.Spells token ∧ n.text = literal.toList := by
  obtain ⟨n, hText⟩ := exists_numeral_of_scan? h
  exact ⟨n, by rw [Numeral.Spells, h, hText, String.ofList_toList], hText⟩

/-- **Recognition and reading agree.** A token is an operand exactly if it is recognised as a
numeral. Its literal is then a text for a double, though not a name, and reading it does not fail;
with either way of matching its value is pushed and no operator is looked up. Every other token is
left for the operators as it was given. The texts that can be read as a literal are those for a
double that are not names, whatever the number of their digits. -/
theorem classify_agrees (token : String) :
    ((∃ x, classify token = .operand x) ↔ ∃ literal, scan? token = some literal) ∧
    (∀ literal, scan? token = some literal →
      literal.toList ∈ Grammar.double.matches' ∧ literal.toList ∉ Grammar.named.matches' ∧
      ∃ d, Decimal.ofLiteral? literal.toList = some d ∧
        classify token = .operand d.toBinary64 ∧
        ∀ e, (feed token).run e = (Evaluator.operand d.toBinary64).run e) ∧
    (∀ text, classify token = .operator text ↔ scan? token = none ∧ text = token) ∧
    ∀ text, (∃ d, Decimal.ofLiteral? text = some d) ↔
      text ∈ Grammar.double.matches' ∧ text ∉ Grammar.named.matches' := by
  refine ⟨?_, ?_, fun _ => classify_eq_operator_iff, ?_⟩
  · simp only [classify_eq_operand_iff, ← Option.isSome_iff_exists, value?_isSome]
  · intro literal hScan
    obtain ⟨n, hSpells, hText⟩ := exists_spells_of_scan? hScan
    have hClassify := classify_eq_operand_iff.mpr hSpells.value?
    rw [← hText]
    refine ⟨Grammar.mem_double_iff.mpr (Or.inr ⟨n, rfl⟩), Grammar.text_not_mem_named n, n.decimal,
      n.ofLiteral?_text, hClassify, ?_⟩
    intro e
    rw [feed, hClassify]
  · intro text
    rw [Grammar.mem_double_iff, Decimal.exists_ofLiteral?_eq_iff]
    constructor
    · rintro ⟨n, rfl⟩
      exact ⟨Or.inr ⟨n, rfl⟩, Grammar.text_not_mem_named n⟩
    · rintro ⟨hText, hNamed⟩
      exact hText.resolve_left hNamed

/-- A literal with a sign, a point behind its digits and an exponent that no word holds; and a lone
minus sign, which stays between its spaces. -/
theorem classify_agrees_minus :
    scan? "\t-7.e+99999999999999999999 " = some "-7.e+99999999999999999999" ∧
      (∃ d, Decimal.ofLiteral? "-7.e+99999999999999999999".toList = some d ∧
        ∀ e, (feed "\t-7.e+99999999999999999999 ").run e =
          (Evaluator.operand d.toBinary64).run e) ∧
      scan? " - " = none ∧ classify " - " = .operator " - " := by
  have hScan : scan? "\t-7.e+99999999999999999999 " = some "-7.e+99999999999999999999" := by
    decide +kernel
  have hNone : scan? " - " = none := by decide +kernel
  obtain ⟨-, -, d, hRead, -, hFeed⟩ := (classify_agrees _).2.1 _ hScan
  exact ⟨hScan, ⟨d, hRead, hFeed⟩, hNone, ((classify_agrees " - ").2.2.1 " - ").mpr ⟨hNone, rfl⟩⟩

end Token

end ReversePolish
