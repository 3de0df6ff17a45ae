import ReversePolish.Numeral
import ReversePolish.Proofs.Cursor.Consumption

/-!
# Numerals and the texts that are read as one

A `Numeral` is the structure of a literal, without its text: a sign, a mantissa and an exponent,
each with the proof that it is well formed. Its text is written by `Numeral.text`. Reading accepts
exactly these texts:

* `read?_text`: the text of a numeral is read as a whole (nothing that greed takes is missed later);
* `exists_of_read?_eq_some`: a text that is read is the text of a numeral, and it is answered
  unchanged.

Each phase has a lemma for either direction. The first says what the phase does in front of a rest
that cannot belong to it, the second that whatever the phase consumes has its form. The exponent is
the only phase that goes back; it then leaves its mark unread, so a text with a dangling exponent
is never exhausted.
-/

namespace ReversePolish

open Numeral (digits signs exponentMarks readSign readMantissa? readExponent read?)

/-- Digits with at most one point among or beside them. -/
structure Mantissa where
  whole : List Char
  fraction : Option (List Char)
  whole_digits : ∀ c ∈ whole, c ∈ digits
  fraction_digits : ∀ part ∈ fraction, ∀ c ∈ part, c ∈ digits
  some_digit : whole ++ fraction.getD [] ≠ []

structure Exponent where
  mark : Char
  sign : Option Char
  places : List Char
  mark_mem : mark ∈ exponentMarks
  sign_mem : ∀ c ∈ sign, c ∈ signs
  places_digits : ∀ c ∈ places, c ∈ digits
  places_ne_nil : places ≠ []

structure Numeral where
  sign : Option Char
  mantissa : Mantissa
  exponent : Option Exponent
  sign_mem : ∀ c ∈ sign, c ∈ signs

/-- A point and the digits after it, if there is a point. -/
def Mantissa.point (fraction : Option (List Char)) : List Char := fraction.elim [] ('.' :: ·)

def Mantissa.text (m : Mantissa) : List Char := m.whole ++ point m.fraction

def Exponent.text (x : Exponent) : List Char := x.mark :: (x.sign.toList ++ x.places)

def Numeral.text (n : Numeral) : List Char :=
  n.sign.toList ++ (n.mantissa.text ++ n.exponent.elim [] Exponent.text)

/-! ## Characters that cannot be confused -/

theorem not_mem_signs_of_mem_digits {c : Char} (h : c ∈ digits) : c ∉ signs := by
  have hAll : digits.all (!signs.contains ·) = true := by decide
  simpa using List.all_eq_true.mp hAll c h

theorem ne_point_of_mem_digits {c : Char} (h : c ∈ digits) : c ≠ '.' := by
  have hAll : digits.all (· != '.') = true := by decide
  simpa using List.all_eq_true.mp hAll c h

theorem not_mem_marks_of_mem_digits {c : Char} (h : c ∈ digits) : c ∉ exponentMarks := by
  have hAll : digits.all (!exponentMarks.contains ·) = true := by decide
  simpa using List.all_eq_true.mp hAll c h

theorem not_mem_digits_of_mem_marks {c : Char} (h : c ∈ exponentMarks) : c ∉ digits :=
  fun hDigit => not_mem_marks_of_mem_digits hDigit h

theorem ne_point_of_mem_marks {c : Char} (h : c ∈ exponentMarks) : c ≠ '.' := by
  have hAll : exponentMarks.all (· != '.') = true := by decide
  simpa using List.all_eq_true.mp hAll c h

/-- A mantissa starts with a digit or with the point. -/
theorem Mantissa.exists_text_eq_cons (m : Mantissa) :
    ∃ c rest, m.text = c :: rest ∧ (c ∈ digits ∨ c = '.') := by
  cases hWhole : m.whole with
  | cons c whole =>
    have hc : c ∈ digits := m.whole_digits c (by simp [hWhole])
    exact ⟨c, whole ++ point m.fraction, by rw [text, hWhole]; rfl, Or.inl hc⟩
  | nil =>
    cases hFraction : m.fraction with
    | none => exact absurd (by simp [hWhole, hFraction]) m.some_digit
    | some part => exact ⟨'.', part, by rw [text, hWhole, hFraction]; rfl, Or.inr rfl⟩

/-! ## Signs -/

theorem readSign_append {before rest : List Char} {sign : Option Char}
    (hSign : ∀ c ∈ sign, c ∈ signs) (hRest : ∀ c ∈ rest.head?, c ∉ signs) :
    readSign ⟨before, sign.toList ++ rest⟩ = ⟨sign.toList.reverse ++ before, rest⟩ := by
  cases sign with
  | none => exact congrArg Prod.snd (Cursor.acceptAny_stays hRest)
  | some c => exact congrArg Prod.snd (Cursor.acceptAny_cons (hSign c rfl))

theorem readSign_consumes (k : Cursor) :
    ∃ sign : Option Char, (∀ c ∈ sign, c ∈ signs) ∧ k.Consumes sign.toList (readSign k) := by
  unfold readSign
  rcases k.acceptAny_cases signs with ⟨c, hc, next, hRead, hNext⟩ | ⟨hRead, -⟩
  · refine ⟨some c, ?_, by rw [hRead]; exact hNext⟩
    intro d hd
    cases hd
    exact hc
  · exact ⟨none, by simp, by rw [hRead]; exact .refl k⟩

/-! ## Mantissas -/

/-- What can stand after a mantissa: no digit, and no point either. -/
def EndsMantissa (rest : List Char) : Prop := ∀ c ∈ rest.head?, c ∉ digits ∧ c ≠ '.'

theorem readMantissa?_append (m : Mantissa) {before rest : List Char} (hRest : EndsMantissa rest) :
    readMantissa? ⟨before, m.text ++ rest⟩ = some ⟨m.text.reverse ++ before, rest⟩ := by
  have hDigit : ∀ c ∈ rest.head?, c ∉ digits := fun c hc => (hRest c hc).1
  unfold readMantissa?
  cases hFraction : m.fraction with
  | none =>
    have hText : m.text = m.whole := by simp [Mantissa.text, Mantissa.point, hFraction]
    have hSome : m.whole.isEmpty = false := by
      have := m.some_digit
      rw [hFraction] at this
      simpa using this
    have hStop : ∀ c ∈ rest.head?, c ∉ ['.'] := fun c hc => by simpa using (hRest c hc).2
    have hPoint : (⟨m.whole.reverse ++ before, rest⟩ : Cursor).accept '.' = (none, _) :=
      Cursor.acceptAny_stays hStop
    rw [hText, Cursor.skipAll_append m.whole_digits hDigit]
    simp only [hPoint, hSome, Bool.not_false, if_true]
  | some part =>
    have hText : m.text = m.whole ++ '.' :: part := by
      simp [Mantissa.text, Mantissa.point, hFraction]
    have hHead : ∀ c ∈ ('.' :: (part ++ rest)).head?, c ∉ digits := by
      intro c hc
      cases hc
      decide
    have hPoint : (⟨m.whole.reverse ++ before, '.' :: (part ++ rest)⟩ : Cursor).accept '.' =
        (some '.', ⟨'.' :: (m.whole.reverse ++ before), part ++ rest⟩) :=
      Cursor.acceptAny_cons (by simp)
    have hSome : (!m.whole.isEmpty || !part.isEmpty) = true := by
      have := m.some_digit
      rw [hFraction] at this
      cases hWhole : m.whole <;> cases part <;> simp_all
    rw [hText, List.append_assoc, List.cons_append, Cursor.skipAll_append m.whole_digits hHead]
    simp only [hPoint, Cursor.skipAll_append (m.fraction_digits part hFraction) hDigit, hSome,
      if_true]
    simp

theorem readMantissa?_consumes {k next : Cursor} (h : readMantissa? k = some next) :
    ∃ m : Mantissa, k.Consumes m.text next := by
  unfold readMantissa? at h
  obtain ⟨whole, afterWhole, hWhole, hTake, hDigits, -⟩ := k.skipAll_consumes digits
  simp only [hWhole] at h
  rcases afterWhole.acceptAny_cases ['.'] with ⟨c, hc, afterPoint, hPoint, hStep⟩ | ⟨hPoint, -⟩
  · obtain ⟨part, afterPart, hPart, hTakePart, hPartDigits, -⟩ := afterPoint.skipAll_consumes digits
    simp only [Cursor.accept, hPoint, hPart] at h
    split at h
    · rename_i hSome
      cases h
      have hFraction : ∀ p ∈ some part, ∀ d ∈ p, d ∈ digits := by
        intro p hp
        cases hp
        exact hPartDigits
      refine ⟨⟨whole, some part, hDigits, hFraction, ?_⟩, ?_⟩
      · intro hNil
        obtain ⟨rfl, hNilPart⟩ := List.append_eq_nil_iff.mp hNil
        simp only [Option.getD_some] at hNilPart
        simp [hNilPart] at hSome
      · rw [List.mem_singleton.mp hc] at hStep
        exact hTake.trans (hStep.trans hTakePart)
    · cases h
  · simp only [Cursor.accept, hPoint] at h
    split at h
    · rename_i hSome
      cases h
      refine ⟨⟨whole, none, hDigits, by simp, ?_⟩, ?_⟩
      · simpa using hSome
      · simpa [Mantissa.text, Mantissa.point] using hTake
    · cases h

/-! ## Exponents -/

theorem readExponent_stays {k : Cursor} (h : ∀ c ∈ k.rest.head?, c ∉ exponentMarks) :
    readExponent k = k := by
  unfold readExponent
  rw [Cursor.acceptAny_stays h]

theorem Exponent.head_append_not_mem_signs (x : Exponent) (rest : List Char) :
    ∀ c ∈ (x.places ++ rest).head?, c ∉ signs := by
  obtain ⟨c, places, hPlaces⟩ := List.exists_cons_of_ne_nil x.places_ne_nil
  have hc : c ∈ digits := x.places_digits c (by simp [hPlaces])
  rw [hPlaces]
  intro d hd
  cases hd
  exact not_mem_signs_of_mem_digits hc

theorem readExponent_append (x : Exponent) {before rest : List Char}
    (hRest : ∀ c ∈ rest.head?, c ∉ digits) :
    readExponent ⟨before, x.text ++ rest⟩ = ⟨x.text.reverse ++ before, rest⟩ := by
  have hSome : (!x.places.isEmpty) = true := by
    simpa using x.places_ne_nil
  unfold readExponent
  rw [Exponent.text, List.cons_append, Cursor.acceptAny_cons x.mark_mem]
  simp only [List.append_assoc, readSign_append x.sign_mem (x.head_append_not_mem_signs rest),
    Cursor.skipAll_append x.places_digits hRest, hSome, if_true]
  simp

/-- An exponent is consumed as a whole, or nothing of it: without digits the reader goes back to
the offset before the mark. -/
theorem readExponent_consumes (k : Cursor) :
    ∃ x : Option Exponent, k.Consumes (x.elim [] Exponent.text) (readExponent k) := by
  unfold readExponent
  rcases k.acceptAny_cases exponentMarks with ⟨mark, hMark, afterMark, hRead, hStep⟩ | ⟨hRead, -⟩
  · obtain ⟨sign, hSign, hTakeSign⟩ := readSign_consumes afterMark
    obtain ⟨places, next, hPlaces, hTake, hDigits, -⟩ :=
      (readSign afterMark).skipAll_consumes digits
    have hAll := hStep.trans (hTakeSign.trans hTake)
    simp only [hRead, hPlaces]
    split
    · rename_i hSome
      exact ⟨some ⟨mark, sign, places, hMark, hSign, hDigits, by simpa using hSome⟩, hAll⟩
    · -- no digits follow, so the mark and the sign are given back
      refine ⟨none, ?_⟩
      rw [hAll.rewind]
      exact .refl k
  · simp only [hRead]
    exact ⟨none, .refl k⟩

/-! ## Whole numerals -/

theorem Numeral.endsMantissa_exponent (n : Numeral) :
    EndsMantissa (n.exponent.elim [] Exponent.text) := by
  intro c hc
  cases hExponent : n.exponent with
  | none => simp [hExponent] at hc
  | some x =>
    rw [hExponent, Option.elim_some, Exponent.text, List.head?_cons, Option.mem_some_iff] at hc
    subst hc
    exact ⟨not_mem_digits_of_mem_marks x.mark_mem, ne_point_of_mem_marks x.mark_mem⟩

theorem Mantissa.head_append_not_mem_signs (m : Mantissa) (rest : List Char) :
    ∀ c ∈ (m.text ++ rest).head?, c ∉ signs := by
  obtain ⟨c, text, hText, hFirst⟩ := m.exists_text_eq_cons
  rw [hText]
  intro d hd
  cases hd
  rcases hFirst with hDigit | rfl
  · exact not_mem_signs_of_mem_digits hDigit
  · decide

theorem Numeral.read?_text (n : Numeral) : read? n.text = some n.text := by
  have hSign : readSign (Cursor.ofList n.text) =
      ⟨n.sign.toList.reverse ++ [], n.mantissa.text ++ n.exponent.elim [] Exponent.text⟩ :=
    readSign_append n.sign_mem (n.mantissa.head_append_not_mem_signs _)
  have hExponent (before : List Char) :
      readExponent ⟨before, n.exponent.elim [] Exponent.text⟩ =
        ⟨(n.exponent.elim [] Exponent.text).reverse ++ before, []⟩ := by
    cases n.exponent with
    | none => exact readExponent_stays (by simp)
    | some x =>
      have hRead : readExponent ⟨before, x.text ++ []⟩ = ⟨x.text.reverse ++ before, []⟩ :=
        readExponent_append x (by simp)
      rwa [List.append_nil] at hRead
  unfold read?
  rw [hSign, readMantissa?_append n.mantissa n.endsMantissa_exponent]
  simp [hExponent, Cursor.exhausted, Cursor.view, Numeral.text]

theorem Numeral.exists_of_read?_eq_some {text literal : List Char}
    (h : read? text = some literal) : literal = text ∧ ∃ n : Numeral, n.text = text := by
  unfold read? at h
  obtain ⟨sign, hSign, hTakeSign⟩ := readSign_consumes (Cursor.ofList text)
  cases hRead : readMantissa? (readSign (Cursor.ofList text)) with
  | none => simp [hRead] at h
  | some afterMantissa =>
    obtain ⟨m, hTakeMantissa⟩ := readMantissa?_consumes hRead
    obtain ⟨x, hTakeExponent⟩ := readExponent_consumes afterMantissa
    have hAll := hTakeSign.trans (hTakeMantissa.trans hTakeExponent)
    simp only [hRead, Option.bind_eq_bind, Option.bind_some, Option.ite_none_right_eq_some,
      Option.some.injEq] at h
    obtain ⟨hEnd, rfl⟩ := h
    have hNil : (readExponent afterMantissa).rest = [] := by simpa [Cursor.exhausted] using hEnd
    have hText := hAll.rest_eq
    rw [hNil, List.append_nil] at hText
    refine ⟨?_, ⟨sign, m, x, hSign⟩, hText.symm⟩
    rw [hAll.view_eq, ← hText]
    rfl

end ReversePolish
