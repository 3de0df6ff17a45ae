/-!
# Reading lines

Input is cut into lines at line feeds; a carriage return just before one belongs to it, and the last
line may lack its end. Then a line goes through a line editor. Input from a pipe may hold
backspaces, and each erases what stands before it; how much that is, is left to the editor, since
what a reader takes for one character may be several code points.
-/

namespace ReversePolish.Text

/-- A line without the carriage return at its end. -/
def dropReturn (line : List Char) : List Char :=
  if line.getLast? = some '\r' then line.dropLast else line

/-- The lines of a list of pieces cut at line feeds: every piece but the last ends a line, and the
last is a line only if it is not empty. -/
def linesOfPieces : List (List Char) → List (List Char)
  | [] => []
  | [last] => if last.isEmpty then [] else [last]
  | piece :: rest => dropReturn piece :: linesOfPieces rest

def backspace : Char := '\x08'

/-- What becomes of a line when it is read. Only backspaces change anything. -/
structure LineEditor where
  edit : String → String
  edit_eq_self : ∀ {line : String}, backspace ∉ line.toList → edit line = line

/-- The lines of a text without their ends, as they are read. -/
def LineEditor.lines (editor : LineEditor) (text : String) : List String :=
  (linesOfPieces (text.toList.splitOn '\n')).map (fun line => editor.edit (String.ofList line))

/-! ## The editor that erases single code points -/

/-- Read one more character. The ones kept so far stand with the nearest first. -/
def strike (kept : List Char) (c : Char) : List Char :=
  if c = backspace then kept.tail else c :: kept

/-- The line without its backspaces and without the character before each of them. -/
def erase (line : String) : String := String.ofList (line.toList.foldl strike []).reverse

theorem foldl_strike {line : List Char} (h : backspace ∉ line) (kept : List Char) :
    line.foldl strike kept = line.reverse ++ kept := by
  induction line generalizing kept with
  | nil => rfl
  | cons c line ih =>
    have hOther : c ≠ backspace := fun hSame => h (hSame ▸ List.mem_cons_self)
    rw [List.foldl_cons, ih (fun hLater => h (List.mem_cons_of_mem c hLater)), strike,
      if_neg hOther, List.reverse_cons, List.append_assoc, List.singleton_append]

theorem erase_eq_self {line : String} (h : backspace ∉ line.toList) : erase line = line := by
  rw [erase, foldl_strike h, List.append_nil, List.reverse_reverse, String.ofList_toList]

def LineEditor.byCodePoint : LineEditor := ⟨erase, erase_eq_self⟩

/-- The lines of a text, of which a backspace erases single code points. -/
def lines (text : String) : List String := LineEditor.byCodePoint.lines text

end ReversePolish.Text
