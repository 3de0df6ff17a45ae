import ReversePolish.Text.Pieces

/-!
# Pieces and words of a text

What is left of a text when it is cut is the text without the characters at which it is cut
(`flatten_splitOnP`). Hence no piece has a space in it, no word has a blank character in it, and a
line without words is blank. Pieces without spaces that are put together with single spaces are
found again (`pieces_spaced`).
-/

namespace ReversePolish.Text

/-- Cutting loses the characters at which it cuts, and no others. -/
theorem flatten_splitOnP {p : Char → Bool} (text : List Char) :
    (text.splitOnP p).flatten = text.filter (!p ·) := by
  induction text with
  | nil => rfl
  | cons c text ih =>
    rw [List.splitOnP_cons_eq_if_modifyHead]
    obtain ⟨first, rest, hSplit⟩ := List.exists_cons_of_ne_nil (List.splitOnP_ne_nil p text)
    rw [hSplit] at ih ⊢
    by_cases hc : p c = true
    · simpa [hc] using ih
    · simpa [hc] using ih

theorem not_of_mem_splitOnP {p : Char → Bool} {text piece : List Char}
    (h : piece ∈ text.splitOnP p) : ∀ c ∈ piece, p c = false := by
  intro c hc
  have hMem : c ∈ (text.splitOnP p).flatten := List.mem_flatten.mpr ⟨piece, h, hc⟩
  rw [flatten_splitOnP, List.mem_filter] at hMem
  simpa using hMem.2

/-- Cutting at a character undoes joining with it. -/
theorem splitOn_intercalate {separator : Char} {joint : String} {texts : List String}
    (hJoint : joint.toList = [separator]) (hNil : texts ≠ [])
    (hFree : ∀ t ∈ texts, separator ∉ t.toList) :
    ((joint.intercalate texts).toList.splitOn separator).map String.ofList = texts := by
  have hLists : ∀ l ∈ texts.map String.toList, separator ∉ l := by
    intro l hl
    obtain ⟨t, ht, rfl⟩ := List.mem_map.mp hl
    exact hFree t ht
  have hSplit := List.splitOn_intercalate separator hLists (by simpa using hNil)
  rw [String.toList_intercalate, hJoint, hSplit, List.map_map]
  simp

/-! ## Pieces -/

theorem pieces_ne_nil (text : String) : pieces text ≠ [] := by
  simp [pieces]

theorem space_not_mem_of_mem_pieces {text piece : String} (h : piece ∈ pieces text) :
    ' ' ∉ piece.toList := by
  obtain ⟨characters, hPiece, rfl⟩ := List.mem_map.mp h
  rw [String.toList_ofList]
  intro hSpace
  have := not_of_mem_splitOnP hPiece ' ' hSpace
  simp at this

/-- Cutting at single spaces undoes joining with single spaces. -/
theorem pieces_spaced {texts : List String} (hNil : texts ≠ [])
    (hSpace : ∀ t ∈ texts, ' ' ∉ t.toList) : pieces (spaced texts) = texts :=
  splitOn_intercalate (by decide) hNil hSpace

/-- A text without spaces is a single piece. -/
theorem pieces_of_space_not_mem {text : String} (h : ' ' ∉ text.toList) : pieces text = [text] := by
  rw [pieces, List.splitOn_eq_singleton h, List.map_singleton, String.ofList_toList]

/-- The pieces on both sides of a space. -/
theorem pieces_append_space (before after : String) :
    pieces (before ++ " " ++ after) = pieces before ++ pieces after := by
  have hText : (before ++ " " ++ after).toList = before.toList ++ ' ' :: after.toList := by
    simp [String.toList_append]
  rw [pieces, hText, List.splitOn_append_cons_self, List.map_append]
  rfl

/-! ## Words -/

theorem isBlank_eq_false_of_mem_words {line word : String} (h : word ∈ words line) :
    ∀ c ∈ word.toList, isBlank c = false := by
  obtain ⟨characters, hWord, rfl⟩ := List.mem_map.mp h
  rw [String.toList_ofList]
  exact not_of_mem_splitOnP (List.mem_filter.mp hWord).1

theorem space_not_mem_of_mem_words {line word : String} (h : word ∈ words line) :
    ' ' ∉ word.toList := by
  intro hSpace
  have hBlank : isBlank ' ' = true := by decide
  rw [isBlank_eq_false_of_mem_words h ' ' hSpace] at hBlank
  cases hBlank

/-- A line has no words exactly when it is blank. -/
theorem words_eq_nil_iff (line : String) : words line = [] ↔ isBlankLine line = true := by
  have hFlatten := flatten_splitOnP (p := isBlank) line.toList
  have hWords : words line = [] ↔ ((line.toList.splitOnP isBlank).flatten = []) := by
    simp [words, List.flatten_eq_nil_iff]
  rw [hWords, hFlatten, List.filter_eq_nil_iff, isBlankLine, List.all_eq_true]
  simp

end ReversePolish.Text
