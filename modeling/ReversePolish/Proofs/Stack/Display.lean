import ReversePolish.Proofs.Binary64.Text
import ReversePolish.Proofs.Evaluator.Run
import ReversePolish.Proofs.Text.Pieces

/-!
# A displayed stack is read back

The text of a stack of finite doubles has one line for each of them, from bottom to top. Feeding
the lines to a fresh evaluator rebuilds the stack: every line is an operand, for either way of
matching operators, since numerals are recognised before operators are looked up.
-/

namespace ReversePolish

open Evaluator (feed feedAll fresh feed_run_number feedAll_cons_run)
open Token (meaning)

theorem Token.meaning_text {x : Binary64} (hFinite : x.isFinite = true) (m : Matching) :
    meaning m x.text = .number x := by
  rw [meaning, classify_eq_operand_iff.mp (Binary64.classify_text hFinite)]

/-- Feeding the texts of doubles pushes the doubles. -/
theorem Evaluator.feedAll_run_texts (m : Matching) {xs : List Binary64}
    (hFinite : ∀ x ∈ xs, x.isFinite = true) (values : List Binary64) :
    (feedAll (xs.map Binary64.text)).run ⟨m, ⟨values⟩⟩ = .ok () ⟨m, ⟨xs.reverse ++ values⟩⟩ := by
  induction xs generalizing values with
  | nil => rfl
  | cons x xs ih =>
    have hMeaning := Token.meaning_text (hFinite x List.mem_cons_self) m
    rw [List.map_cons, feedAll_cons_run, feed_run_number hMeaning, List.reverse_cons,
      List.append_assoc]
    exact ih (fun y hy => hFinite y (List.mem_cons_of_mem x hy)) (x :: values)

namespace Stack

/-- The lines of the displayed stack: its text, cut at line ends. -/
def lines (s : Stack) : List String := (s.display.toList.splitOn '\n').map String.ofList

theorem toList_ne_nil {s : Stack} (h : s ≠ empty) : s.toList ≠ [] := by
  intro hNil
  apply h
  rw [← ofList_toList s, hNil]
  rfl

/-- No text of a finite double has a line end in it, so the lines are the texts. -/
theorem lines_eq {s : Stack} (hNonempty : s ≠ empty) (hFinite : ∀ x ∈ s.toList, x.isFinite = true) :
    s.lines = s.toList.map Binary64.text := by
  have hNil : s.toList.map Binary64.text ≠ [] := by simpa using toList_ne_nil hNonempty
  have hFree : ∀ t ∈ s.toList.map Binary64.text, '\n' ∉ t.toList := by
    intro t ht hEnd
    obtain ⟨x, hx, rfl⟩ := List.mem_map.mp ht
    exact Binary64.padding_not_mem_text (hFinite x hx) '\n' hEnd (by decide)
  exact Text.splitOn_intercalate (by decide) hNil hFree

theorem feedAll_run_lines (m : Matching) {s : Stack} (hNonempty : s ≠ empty)
    (hFinite : ∀ x ∈ s.toList, x.isFinite = true) :
    (feedAll s.lines).run (fresh m) = .ok () ⟨m, s⟩ := by
  rw [lines_eq hNonempty hFinite, Evaluator.fresh_eq, Evaluator.feedAll_run_texts m hFinite,
    List.append_nil, toList, List.reverse_reverse]

/-- **A displayed stack is read back.** The lines of a stack of finite doubles that is not empty are
as many as the doubles, and feeding them to a fresh evaluator succeeds and rebuilds the stack. Hence
only one such stack is displayed as a given text. -/
theorem lines_read_back (m : Matching) {s : Stack} (hNonempty : s ≠ empty)
    (hFinite : ∀ x ∈ s.toList, x.isFinite = true) :
    (feedAll s.lines).run (fresh m) = .ok () ⟨m, s⟩ ∧
      s.lines.length = s.size ∧
      ∀ t : Stack, t ≠ empty → (∀ x ∈ t.toList, x.isFinite = true) → t.display = s.display →
        t = s := by
  have hRun := feedAll_run_lines m hNonempty hFinite
  refine ⟨hRun, ?_, ?_⟩
  · rw [lines_eq hNonempty hFinite, List.length_map, length_toList]
  · intro t hNonempty' hFinite' hDisplay
    have hRun' := feedAll_run_lines m hNonempty' hFinite'
    rw [lines, hDisplay, ← lines, hRun] at hRun'
    cases hRun'
    rfl

/-- A negative zero, the smallest double and the negative of the largest, matched loosely: the
minus signs are not operators. -/
theorem lines_read_back_extremes :
    let s := ofList [⟨true, 0, by decide⟩, ⟨false, 1, by decide⟩,
      ⟨true, Binary64.infinityCode - 1, by decide⟩]
    s ≠ empty ∧ (∀ x ∈ s.toList, x.isFinite = true) ∧
      (feedAll s.lines).run (fresh .loose) = .ok () ⟨.loose, s⟩ ∧ s.lines.length = 3 := by
  intro s
  have hNonempty : s ≠ empty := by decide
  have hFinite : ∀ x ∈ s.toList, x.isFinite = true := by decide
  obtain ⟨hRun, hLength, -⟩ := lines_read_back .loose hNonempty hFinite
  exact ⟨hNonempty, hFinite, hRun, hLength⟩

end Stack

end ReversePolish
