import ReversePolish.Binary64.Text
import ReversePolish.Proofs.Decimal.Plain

/-!
# The text of a double is read as that double

A finite double is written as the shortest decimal that reads back. The search goes through the
places from the coarsest to the finest, and at the finest place the exact value is a candidate: so
there is always a decimal to be found, and what is found reads back (`nearestCode_shortestBelow`, by
induction on the places that are left). Its text is a numeral (`exists_numeral_text`), and both are
the same number rounded (`classify_text`). The text of any double is a word without line ends
(`text_ne_empty`, `newline_not_mem_text`).
-/

namespace ReversePolish.Binary64

theorem decimalUnitsPerUnit_eq : decimalUnitsPerUnit = 5 ^ 1074 := by
  unfold decimalUnitsPerUnit
  generalize 1074 = n
  rfl

/-- The exact value is a point of the finest grid. -/
theorem size_decimalUnits (x : Binary64) :
    (x.decimalUnits : ℚ) * 10 ^ placeExponent 0 = codeValue x.magnitude := by
  have hPlace : placeExponent 0 = -(1074 : Nat) := rfl
  have hTen : (10 : ℚ) ^ 1074 = 2 ^ 1074 * 5 ^ 1074 := by
    rw [← mul_pow]
    norm_num
  have hFive : (0 : ℚ) < 5 ^ 1074 := pow_pos (by norm_num) 1074
  rw [decimalUnits, decimalUnitsPerUnit_eq, hPlace, zpow_neg, zpow_natCast, hTen, codeValue,
    Nat.cast_mul, Nat.cast_pow, Nat.cast_ofNat, mul_comm ((5 : ℚ) ^ 1074), ← div_eq_mul_inv,
    mul_div_mul_right _ _ hFive.ne']

theorem nearestCode_decimalUnits {x : Binary64} (hFinite : x.isFinite = true) :
    Decimal.nearestCode x.decimalUnits (placeExponent 0) = x.magnitude := by
  obtain ⟨code, hCode, hMin⟩ := Decimal.nearestCode_spec x.decimalUnits (placeExponent 0)
  rw [size_decimalUnits, codeValue, div_mul_cancel₀ _ scale_pos.ne'] at hCode
  rw [hMin, hCode.unique (roundsToCode_units x.magnitude)]
  rw [isFinite, decide_eq_true_eq] at hFinite
  omega

/-- A neighbour is taken if it is read as `x`, and where both are, the nearer one. -/
theorem nearestOnPlace?_cases {x : Binary64} {p c : Nat} (h : x.nearestOnPlace? p = some c) :
    10 ^ p ≤ x.decimalUnits ∧ x.readsBack p c = true ∧
      ((c = x.decimalUnits / 10 ^ p ∧ (x.readsBack p (x.decimalUnits / 10 ^ p + 1) = true →
          2 * (x.decimalUnits % 10 ^ p) < 10 ^ p)) ∨
        (c = x.decimalUnits / 10 ^ p + 1 ∧ (x.readsBack p (x.decimalUnits / 10 ^ p) = true →
          ¬ 2 * (x.decimalUnits % 10 ^ p) < 10 ^ p))) := by
  have hTen : Nat.pow 10 p = 10 ^ p := Nat.pow_eq
  unfold nearestOnPlace? at h
  rw [hTen] at h
  dsimp only at h
  split at h
  · cases h
  · rename_i hNonzero
    refine ⟨Nat.not_lt.mp (mt Nat.div_eq_of_lt hNonzero), ?_⟩
    split at h
    · rename_i hLower hUpper
      split at h
      · rename_i hNear
        cases h
        exact ⟨hLower, Or.inl ⟨rfl, fun _ => hNear⟩⟩
      · rename_i hNear
        cases h
        exact ⟨hUpper, Or.inr ⟨rfl, fun _ => hNear⟩⟩
    · rename_i hLower hUpper
      cases h
      exact ⟨hLower, Or.inl ⟨rfl, fun hBoth => absurd (hUpper.symm.trans hBoth) (by decide)⟩⟩
    · rename_i hLower hUpper
      cases h
      exact ⟨hUpper, Or.inr ⟨rfl, fun hBoth => absurd (hLower.symm.trans hBoth) (by decide)⟩⟩
    · cases h

theorem shortestBelow_negative (x : Binary64) (p : Nat) :
    (x.shortestBelow p).negative = x.negative := by
  induction p with
  | zero => rfl
  | succ p ih =>
    rw [shortestBelow_succ]
    cases x.nearestOnPlace? p with
    | none => exact ih
    | some c => rfl

theorem nearestCode_shortestBelow {x : Binary64} (hFinite : x.isFinite = true) (p : Nat) :
    Decimal.nearestCode (x.shortestBelow p).coefficient (x.shortestBelow p).exponent =
      x.magnitude := by
  induction p with
  | zero => exact nearestCode_decimalUnits hFinite
  | succ p ih =>
    rw [shortestBelow_succ]
    cases hPlace : x.nearestOnPlace? p with
    | none => exact ih
    | some c => exact eq_of_beq (nearestOnPlace?_cases hPlace).2.1

/-- The shortest decimal of a finite double is read as that double. -/
theorem shortest_toBinary64 {x : Binary64} (hFinite : x.isFinite = true) :
    x.shortest.toBinary64 = x :=
  eq_of_sign_of_magnitude (x.shortestBelow_negative _) (nearestCode_shortestBelow hFinite _)

theorem text_of_isFinite {x : Binary64} (hFinite : x.isFinite = true) :
    x.text = String.ofList x.shortest.plain := by
  have hMagnitude : x.magnitude < infinityCode := by simpa [isFinite] using hFinite
  have hNaN : x.isNaN = false := by simpa [isNaN] using hMagnitude.le
  have hInfinite : x.isInfinite = false := by simpa [isInfinite] using hMagnitude.ne
  rw [text, hNaN, hInfinite]
  rfl

/-- The text of a finite double is a numeral of its shortest decimal. -/
theorem exists_numeral_text {x : Binary64} (hFinite : x.isFinite = true) :
    ∃ n : Numeral, x.text = String.ofList n.text ∧ n.negative = x.negative ∧
      n.size = x.shortest.size := by
  obtain ⟨n, hText, hNegative, hSize⟩ := x.shortest.exists_numeral
  refine ⟨n, ?_, hNegative.trans (x.shortestBelow_negative _), hSize⟩
  rw [text_of_isFinite hFinite, hText]

/-- A finite double is read back from its text. -/
theorem classify_text {x : Binary64} (hFinite : x.isFinite = true) :
    Token.classify x.text = .operand x := by
  obtain ⟨n, hText, hNegative, hSize⟩ := exists_numeral_text hFinite
  have hSpells : n.Spells x.text := hText ▸ n.spells_text
  have hClassify : Token.classify x.text = .operand n.decimal.toBinary64 :=
    Token.classify_eq_operand_iff.mpr hSpells.value?
  have hRead := hSpells.rounded hClassify
  have hWritten := x.shortest.rounded_toBinary64
  rw [shortest_toBinary64 hFinite] at hWritten
  rw [hNegative, hSize] at hRead
  rw [shortest, shortestBelow_negative] at hWritten
  rw [hClassify, hRead.unique hWritten]

theorem padding_not_mem_text {x : Binary64} (hFinite : x.isFinite = true) :
    ∀ c ∈ x.text.toList, c ∉ Numeral.padding := by
  obtain ⟨n, hText, -⟩ := exists_numeral_text hFinite
  rw [hText, String.toList_ofList]
  exact fun _ hc => Numeral.not_mem_padding hc

/-! ## All doubles -/

theorem text_of_not_finite {x : Binary64} (h : x.isFinite = false) :
    x.text = "NaN" ∨ x.text = "-inf" ∨ x.text = "inf" := by
  rw [text]
  by_cases hNaN : x.isNaN = true
  · rw [if_pos hNaN]
    exact Or.inl rfl
  · have hInfinite : x.isInfinite = true := by
      simp only [isFinite, isNaN, decide_eq_true_eq, decide_eq_false_iff_not] at h hNaN
      rw [isInfinite, beq_iff_eq]
      omega
    rw [if_neg hNaN, if_pos hInfinite]
    cases x.negative with
    | true => exact Or.inr (Or.inl rfl)
    | false => exact Or.inr (Or.inr rfl)

theorem text_ne_empty (x : Binary64) : x.text ≠ "" := by
  intro hEmpty
  cases hFinite : x.isFinite with
  | true =>
    have hClassify := classify_text hFinite
    rw [hEmpty] at hClassify
    have hOperator : Token.classify "" = .operator "" := by decide +kernel
    rw [hOperator] at hClassify
    cases hClassify
  | false =>
    rcases text_of_not_finite hFinite with hText | hText | hText
    all_goals
      rw [hText] at hEmpty
      exact absurd hEmpty (by decide)

theorem newline_not_mem_text (x : Binary64) : '\n' ∉ x.text.toList := by
  cases hFinite : x.isFinite with
  | true => exact fun hEnd => padding_not_mem_text hFinite '\n' hEnd (by decide)
  | false =>
    rcases text_of_not_finite hFinite with hText | hText | hText
    all_goals
      rw [hText]
      decide

end ReversePolish.Binary64
