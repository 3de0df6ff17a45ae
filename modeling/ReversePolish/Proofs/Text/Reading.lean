import Mathlib.Logic.ExistsUnique
import ReversePolish.Text.Lines

/-!
# What is read from a text

The lines of a text are described without cutting it into pieces: a text without a line feed is one
line or none, and any other is a first line, its end and a rest. The end is a line feed together with
a carriage return in front of it, if there is one. `Reads` is this description.

* `lines_append_newline`: the lines of a text are its first line and the lines of the rest.
  Statements about whole texts go by `induction_on_lines`.
* `reads_lines`, `Reads.eq_lines`: the lines are as described, and there are no others like that.
* `Reads.of_backspace_not_mem`: without backspaces all editors read the same.
-/

namespace ReversePolish.Text

/-- The lines that an editor reads from a text. A carriage return ends a line only together with the
line feed behind it. -/
inductive Reads (editor : LineEditor) : String → List String → Prop
  | nothing : Reads editor "" []
  | last {text : String} (hEmpty : text ≠ "") (hText : '\n' ∉ text.toList) :
    Reads editor text [editor.edit text]
  | ended {line rest : String} {lines : List String} (hLine : '\n' ∉ line.toList)
    (hReturn : line.toList.getLast? ≠ some '\r') (hRest : Reads editor rest lines) :
    Reads editor (line ++ "\n" ++ rest) (editor.edit line :: lines)
  | returned {line rest : String} {lines : List String} (hLine : '\n' ∉ line.toList)
    (hRest : Reads editor rest lines) :
    Reads editor (line ++ "\r\n" ++ rest) (editor.edit line :: lines)

/-! ## The first line of a text -/

theorem dropReturn_eq_self {line : List Char} (h : line.getLast? ≠ some '\r') :
    dropReturn line = line := if_neg h

theorem dropReturn_append_return (line : String) :
    dropReturn (line ++ "\r").toList = line.toList := by
  have hText : (line ++ "\r").toList = line.toList ++ ['\r'] := String.toList_append
  rw [hText, dropReturn, if_pos List.getLast?_concat, List.dropLast_concat]

/-- A carriage return before the end of a line, as part of the line. -/
theorem append_return_newline (line rest : String) :
    line ++ "\r\n" ++ rest = line ++ "\r" ++ "\n" ++ rest := by
  rw [← String.toList_inj]
  simp

theorem exists_eq_append_return {line : String} (h : line.toList.getLast? = some '\r') :
    ∃ front, line = front ++ "\r" := by
  obtain ⟨front, hFront⟩ := List.getLast?_eq_some_iff.mp h
  refine ⟨String.ofList front, ?_⟩
  rw [← String.toList_inj, hFront]
  simp

theorem LineEditor.lines_append_newline (editor : LineEditor) {line : String}
    (hLine : '\n' ∉ line.toList) (rest : String) :
    editor.lines (line ++ "\n" ++ rest) =
      editor.edit (String.ofList (dropReturn line.toList)) :: editor.lines rest := by
  have hText : (line ++ "\n" ++ rest).toList = line.toList ++ '\n' :: rest.toList := by simp
  obtain ⟨first, later, hRest⟩ := List.exists_cons_of_ne_nil (List.splitOn_ne_nil '\n' rest.toList)
  rw [lines, lines, hText, List.splitOn_append_cons_self, List.splitOn_eq_singleton hLine, hRest]
  rfl

theorem LineEditor.lines_append_newline_of_ne_return (editor : LineEditor) {line : String}
    (hLine : '\n' ∉ line.toList) (hReturn : line.toList.getLast? ≠ some '\r') (rest : String) :
    editor.lines (line ++ "\n" ++ rest) = editor.edit line :: editor.lines rest := by
  rw [editor.lines_append_newline hLine, dropReturn_eq_self hReturn, String.ofList_toList]

theorem LineEditor.lines_append_return_newline (editor : LineEditor) {line : String}
    (hLine : '\n' ∉ line.toList) (rest : String) :
    editor.lines (line ++ "\r\n" ++ rest) = editor.edit line :: editor.lines rest := by
  have hFirst : '\n' ∉ (line ++ "\r").toList := by simpa using hLine
  rw [append_return_newline, editor.lines_append_newline hFirst, dropReturn_append_return,
    String.ofList_toList]

theorem LineEditor.lines_of_newline_not_mem (editor : LineEditor) {text : String}
    (h : '\n' ∉ text.toList) :
    editor.lines text = if text = "" then [] else [editor.edit text] := by
  rw [lines, List.splitOn_eq_singleton h]
  by_cases hEmpty : text = ""
  · simp [linesOfPieces, hEmpty]
  · simp [linesOfPieces, hEmpty]

/-- A text is a single line without its end, or has a first line. Only the rest behind the first line
has to be considered to say something of all texts. -/
theorem induction_on_lines {motive : String → Prop}
    (last : ∀ text, '\n' ∉ text.toList → motive text)
    (append : ∀ line rest, '\n' ∉ line.toList → motive rest → motive (line ++ "\n" ++ rest))
    (text : String) : motive text := by
  induction hLength : text.toList.length using Nat.strongRecOn generalizing text with
  | ind n ih =>
    by_cases hEnd : '\n' ∈ text.toList
    · obtain ⟨line, rest, hText, hLine⟩ := List.eq_append_cons_of_mem hEnd
      have hWhole : text = String.ofList line ++ "\n" ++ String.ofList rest := by
        rw [← String.toList_inj, hText]
        simp
      have hShorter : rest.length < n := by
        rw [← hLength, hText, List.length_append, List.length_cons]
        omega
      rw [hWhole]
      exact append _ _ (by simpa using hLine) (ih _ hShorter _ (by simp))
    · exact last text hEnd

/-! ## The lines are those of the description -/

variable {editor : LineEditor}

theorem LineEditor.reads_lines (editor : LineEditor) (text : String) :
    Reads editor text (editor.lines text) := by
  induction text using induction_on_lines with
  | last text hText =>
    rw [editor.lines_of_newline_not_mem hText]
    by_cases hEmpty : text = ""
    · rw [if_pos hEmpty, hEmpty]
      exact .nothing
    · rw [if_neg hEmpty]
      exact .last hEmpty hText
  | append line rest hLine ih =>
    by_cases hReturn : line.toList.getLast? = some '\r'
    · obtain ⟨front, rfl⟩ := exists_eq_append_return hReturn
      have hFront : '\n' ∉ front.toList := by simpa using hLine
      rw [← append_return_newline, editor.lines_append_return_newline hFront]
      exact .returned hFront ih
    · rw [editor.lines_append_newline_of_ne_return hLine hReturn]
      exact .ended hLine hReturn ih

theorem Reads.eq_lines {text : String} {lines : List String} (h : Reads editor text lines) :
    lines = editor.lines text := by
  induction h with
  | nothing => rfl
  | last hEmpty hText => rw [editor.lines_of_newline_not_mem hText, if_neg hEmpty]
  | ended hLine hReturn _ ih =>
    rw [editor.lines_append_newline_of_ne_return hLine hReturn, ih]
  | returned hLine _ ih => rw [editor.lines_append_return_newline hLine, ih]

/-- The description determines the lines. -/
theorem LineEditor.existsUnique_reads (editor : LineEditor) (text : String) :
    ∃! lines, Reads editor text lines :=
  ⟨editor.lines text, editor.reads_lines text, fun _ hReads => hReads.eq_lines⟩

/-- Only backspaces tell editors apart. -/
theorem Reads.of_backspace_not_mem {other : LineEditor} {text : String} {lines : List String}
    (h : Reads editor text lines) (hText : backspace ∉ text.toList) : Reads other text lines := by
  have hSame : ∀ {line : String}, backspace ∉ line.toList → editor.edit line = other.edit line :=
    fun hLine => (editor.edit_eq_self hLine).trans (other.edit_eq_self hLine).symm
  induction h with
  | nothing => exact .nothing
  | last hEmpty hLine =>
    rw [hSame hText]
    exact .last hEmpty hLine
  | ended hLine hReturn _ ih =>
    simp only [String.toList_append, List.mem_append, not_or] at hText
    rw [hSame hText.1.1]
    exact .ended hLine hReturn (ih hText.2)
  | returned hLine _ ih =>
    simp only [String.toList_append, List.mem_append, not_or] at hText
    rw [hSame hText.1.1]
    exact .returned hLine (ih hText.2)

end ReversePolish.Text
