import ReversePolish.Proofs.Binary64.Shortest
import ReversePolish.Proofs.Decimal.Positional

/-!
# The text of a double is the shortest

Among all tokens that are read as a finite double other than zero, its text has the fewest
significant digits, and of those with as few it is the nearest to the exact value. What the search
finds is stated in units of `10 ^ -1074`; here it is carried over to the numbers that numerals
denote.

* `hasFigures_size_shortest`, `size_shortest_nearest`: the shortest decimal.
* `text_shortest`: its text, and all the tokens beside it.
-/

namespace ReversePolish.Binary64

open Numeral (digits exponentMarks)

variable {x : Binary64} {negative : Bool} {q : ℚ} {k p c : Nat}

/-! ## Numbers and units -/

theorem decimalUnitsPerUnit_pos : 0 < decimalUnitsPerUnit := by
  unfold decimalUnitsPerUnit
  generalize 1074 = n
  exact Nat.pow_pos (by decide)

theorem decimalUnits_pos (hNonzero : x.isZero = false) : 0 < x.decimalUnits := by
  have hMagnitude : 0 < x.magnitude := Nat.pos_of_ne_zero (by simpa [isZero] using hNonzero)
  have hUnits : 0 < units x.magnitude := units_strictMono hMagnitude
  exact Nat.mul_pos decimalUnitsPerUnit_pos hUnits

/-- A number that is rounded to `x` is read as `x`. -/
theorem Rounded.readsAs (hFinite : x.isFinite = true) (h : Rounded negative q x) :
    x.ReadsAs (inUnits q) := by
  obtain ⟨code, hCode, hMin⟩ := h.code
  have hMagnitude : x.magnitude < infinityCode := by simpa [isFinite] using hFinite
  obtain rfl : code = x.magnitude := by omega
  exact (readsAs_inUnits_iff q).mpr hCode

theorem Found.inUnits_size (h : Found x p c) : inUnits x.shortest.size = c * 10 ^ p := by
  rw [h.shortest_eq, Decimal.size, inUnits_decimal]

/-! ## The shortest decimal -/

/-- The shortest decimal is written with as few digits as any number that is rounded to `x`. -/
theorem hasFigures_size_shortest (hFinite : x.isFinite = true) (hNonzero : x.isZero = false)
    (hRounded : Rounded negative q x) (hFigures : HasFigures q k) :
    HasFigures x.shortest.size k := by
  have hPositive := decimalUnits_pos hNonzero
  obtain ⟨p, c, hFound⟩ := exists_found hFinite hPositive
  have hReads := hRounded.readsAs hFinite
  obtain ⟨m, j, hm, hValue⟩ := (hasFigures_mul_zpow_iff 1074).mpr hFigures
  rw [inUnits, hValue] at hReads
  rw [← hasFigures_mul_zpow_iff 1074, ← inUnits, hFound.inUnits_size]
  exact hFound.fewest hPositive hm hReads

/-- No number with as few digits that is rounded to `x` is nearer than the shortest decimal. -/
theorem size_shortest_nearest (hFinite : x.isFinite = true) (hNonzero : x.isZero = false)
    (hRounded : Rounded negative q x) (hFigures : HasFigures q k)
    (hLeast : ∀ i, HasFigures x.shortest.size i → k ≤ i) :
    |x.shortest.size - codeValue x.magnitude| ≤ |q - codeValue x.magnitude| := by
  have hPositive := decimalUnits_pos hNonzero
  obtain ⟨p, c, hFound⟩ := exists_found hFinite hPositive
  have hLeading := hFound.le_leadingPlace
  have hPlaces : k ≤ x.leadingPlace + 1 - p := by
    apply hLeast
    rw [← hasFigures_mul_zpow_iff 1074, ← inUnits, hFound.inUnits_size]
    exact hFound.hasFigures (by omega)
  have hReads := hRounded.readsAs hFinite
  obtain ⟨m, j, hm, hValue⟩ := (hasFigures_mul_zpow_iff 1074).mpr hFigures
  rw [inUnits, hValue] at hReads
  have hNear := hFound.nearest hPositive (by omega) hm hReads
  rw [← hFound.inUnits_size, ← hValue, ← inUnits, ← inUnits_codeValue, abs_inUnits_sub,
    abs_inUnits_sub] at hNear
  exact le_of_mul_le_mul_right hNear (zpow_pos (by norm_num) _)

/-! ## The text -/

theorem text_mem_positional (hFinite : x.isFinite = true) :
    x.text.toList ∈ Grammar.positional.matches' := by
  rw [text_of_isFinite hFinite, String.toList_ofList]
  exact x.shortest.plain_mem_positional

theorem size_of_spells_text (hFinite : x.isFinite = true) {n : Numeral} (hn : n.Spells x.text) :
    n.size = x.shortest.size := by
  obtain ⟨printed, hText, -, hSize⟩ := exists_numeral_text hFinite
  have hSpells : printed.Spells x.text := hText ▸ printed.spells_text
  rw [hn.size_unique hSpells, hSize]

/-- The distance of a numeral that is read as `x` is that of the magnitudes. -/
theorem abs_number_sub {n : Numeral} (h : Rounded n.negative n.size x) :
    |n.number - x.toRat| = |n.size - codeValue x.magnitude| := by
  rw [Numeral.number, toRat, h.sign, abs_withSign_sub]

/-- **Shortest text.** The text of a finite double other than zero is positional and is read as that
double. No other token that is read as the same double has fewer significant digits, and none with
as many is nearer to its exact value. -/
theorem text_shortest (hFinite : x.isFinite = true) (hNonzero : x.isZero = false) :
    x.text.toList ∈ Grammar.positional.matches' ∧ Token.classify x.text = .operand x ∧
      (∃ printed : Numeral, printed.Spells x.text) ∧
      ∀ (printed : Numeral) (token : String), printed.Spells x.text →
        Token.classify token = .operand x →
          (∃ n : Numeral, n.Spells token) ∧
          ∀ n : Numeral, n.Spells token →
            printed.significant.length ≤ n.significant.length ∧
            (n.significant.length = printed.significant.length →
              |printed.number - x.toRat| ≤ |n.number - x.toRat|) := by
  have hText := classify_text hFinite
  refine ⟨text_mem_positional hFinite, hText,
    Token.exists_spells (Token.classify_eq_operand_iff.mp hText), ?_⟩
  intro printed token hPrinted hToken
  refine ⟨Token.exists_spells (Token.classify_eq_operand_iff.mp hToken), ?_⟩
  intro n hn
  have hRounded := hn.rounded hToken
  have hSize := size_of_spells_text hFinite hPrinted
  have hFigures : HasFigures n.size n.significant.length := n.length_significant_le_iff.mp le_rfl
  refine ⟨?_, ?_⟩
  · rw [printed.length_significant_le_iff, hSize]
    exact hasFigures_size_shortest hFinite hNonzero hRounded hFigures
  · intro hLength
    rw [abs_number_sub (hPrinted.rounded hText), abs_number_sub hRounded, hSize]
    apply size_shortest_nearest hFinite hNonzero hRounded hFigures
    intro i hi
    rw [hLength, printed.length_significant_le_iff, hSize]
    exact hi

/-- The double `2 ^ 53` is also read from the odd number above it, which has as many digits. -/
theorem text_shortest_two_pow :
    let x := ofBits 0x4340000000000000
    let token := "9007.199254740993e12"
    x.isFinite = true ∧ x.isZero = false ∧ Token.classify token = .operand x ∧
      ∃ printed n : Numeral, printed.Spells x.text ∧ n.Spells token ∧
        n.significant.length = printed.significant.length ∧
        |printed.number - x.toRat| ≤ |n.number - x.toRat| := by
  intro x token
  have hFinite : x.isFinite = true := by decide +kernel
  have hNonzero : x.isZero = false := by decide +kernel
  have hToken : Token.classify token = .operand x := by decide +kernel
  obtain ⟨printed, hPrinted, hFigures⟩ :
      ∃ printed : Numeral, printed.Spells x.text ∧ printed.significant.length = 16 :=
    ⟨⟨none, ⟨"9007199254740992".toList, none, by simp [digits], by simp, by simp⟩, none, by simp⟩,
      by unfold Numeral.Spells; decide +kernel, by decide +kernel⟩
  obtain ⟨n, hn, hLength⟩ : ∃ n : Numeral, n.Spells token ∧ n.significant.length = 16 :=
    ⟨⟨none,
      ⟨"9007".toList, some "199254740993".toList, by simp [digits], by simp [digits], by simp⟩,
      some ⟨'e', none, ['1', '2'], by simp [exponentMarks], by simp, by simp [digits], by simp⟩,
      by simp⟩,
      by unfold Numeral.Spells; decide +kernel, by decide +kernel⟩
  obtain ⟨-, -, -, hAll⟩ := text_shortest hFinite hNonzero
  have hSame : n.significant.length = printed.significant.length := hLength.trans hFigures.symm
  exact ⟨hFinite, hNonzero, hToken, printed, n, hPrinted, hn, hSame,
    ((hAll printed token hPrinted hToken).2 n hn).2 hSame⟩

end ReversePolish.Binary64
