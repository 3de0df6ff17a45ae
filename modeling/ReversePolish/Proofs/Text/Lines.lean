import ReversePolish.Help
import ReversePolish.Text.Pieces

/-!
# Lines with their ends

A text in which every line has an end is found again from its lines, and its lines from the text, as
long as no line has a line end in it (`endedLines_unlines`).
-/

namespace ReversePolish.Text

open Help (unlines)

/-- The lines of a text in which every line has an end. -/
def endedLines (text : String) : List String :=
  (text.toList.splitOn '\n').dropLast.map String.ofList

theorem unlines_cons (line : String) (lines : List String) :
    unlines (line :: lines) = line ++ "\n" ++ unlines lines := by
  rw [unlines, unlines, List.map_cons, String.join_cons]

theorem unlines_append (first second : List String) :
    unlines (first ++ second) = unlines first ++ unlines second := by
  rw [unlines, unlines, unlines, List.map_append, String.join_append]

/-- Joined lines with an end behind the last are lines that all have their ends. -/
theorem intercalate_append_newline {lines : List String} (hNil : lines ≠ []) :
    "\n".intercalate lines ++ "\n" = unlines lines := by
  induction lines with
  | nil => exact absurd rfl hNil
  | cons line lines ih =>
    rw [unlines_cons]
    by_cases hLast : lines = []
    · subst hLast
      simp [unlines]
    · rw [String.intercalate_cons_of_ne_nil hLast, String.append_assoc, ih hLast]

theorem endedLines_unlines {lines : List String} (hFree : ∀ l ∈ lines, '\n' ∉ l.toList) :
    endedLines (unlines lines) = lines := by
  rw [endedLines]
  induction lines with
  | nil => rfl
  | cons line lines ih =>
    have hText : (unlines (line :: lines)).toList =
        line.toList ++ '\n' :: (unlines lines).toList := by
      simp [unlines_cons]
    have hLine : '\n' ∉ line.toList := hFree line List.mem_cons_self
    have hRest : (unlines lines).toList.splitOn '\n' ≠ [] := List.splitOn_ne_nil _ _
    rw [hText, List.splitOn_append_cons_self, List.splitOn_eq_singleton hLine,
      List.singleton_append, List.dropLast_cons_of_ne_nil hRest, List.map_cons,
      String.ofList_toList, ih (fun l hl => hFree l (List.mem_cons_of_mem _ hl))]

end ReversePolish.Text
