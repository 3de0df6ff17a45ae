import ReversePolish.Proofs.Session.Stopping
import ReversePolish.Proofs.Text.Reading

/-!
# The ends of lines make no difference

A session reads the same from an input whether its lines end with a line feed or with a carriage
return and a line feed, and whether the last line has an end or not. A carriage return at the end of
a line is blank, so it is in no word, and no backspace stands behind it to erase it; and a further
line end at the end of the input is either the end of the last line or a blank line, which stops the
session like the end of input does.

* `words_erase_dropReturn`: the words of a line with its backspaces, whether the carriage return at
  its end is dropped or not.
* `map_words_lines_withReturns`, `lines_append_end`: what the two changes do to the words of the
  lines.
* `run_eq_of_words`: a session depends on the words of its lines only.
* `run_line_ends`: the program with a changed input.
-/

namespace ReversePolish

namespace Text

/-! ## Carriage returns -/

/-- A carriage return behind a line is in none of its words. -/
theorem words_append_return (line : String) : words (line ++ "\r") = words line := by
  have hBlank : isBlank '\r' = true := by decide
  have hText : (line ++ "\r").toList = line.toList ++ '\r' :: [] := by simp
  rw [words, words, hText, List.splitOnP_append_cons _ _ hBlank, List.filter_append]
  simp

theorem erase_append_return (line : String) : erase (line ++ "\r") = erase line ++ "\r" := by
  have hReturn : '\r' ≠ backspace := by decide
  rw [← String.toList_inj]
  simp [erase, strike, hReturn]

theorem words_erase_dropReturn (line : String) :
    words (erase (String.ofList (dropReturn line.toList))) = words (erase line) := by
  by_cases hLast : line.toList.getLast? = some '\r'
  · obtain ⟨front, rfl⟩ := exists_eq_append_return hLast
    rw [dropReturn_append_return, String.ofList_toList, erase_append_return, words_append_return]
  · rw [dropReturn_eq_self hLast, String.ofList_toList]

/-! ## The first line of a text -/

theorem lines_append_newline {line : String} (hLine : '\n' ∉ line.toList) (rest : String) :
    lines (line ++ "\n" ++ rest) = erase (String.ofList (dropReturn line.toList)) :: lines rest :=
  LineEditor.byCodePoint.lines_append_newline hLine rest

theorem map_words_lines_append {line : String} (hLine : '\n' ∉ line.toList) (rest : String) :
    (lines (line ++ "\n" ++ rest)).map words = words (erase line) :: (lines rest).map words := by
  rw [lines_append_newline hLine, List.map_cons, words_erase_dropReturn]

theorem lines_of_newline_not_mem {text : String} (h : '\n' ∉ text.toList) :
    lines text = if text = "" then [] else [erase text] :=
  LineEditor.byCodePoint.lines_of_newline_not_mem h

/-! ## Two changes of a text -/

/-- The text with a carriage return in front of every line feed, also where there is one already. -/
def withReturns (text : String) : String :=
  String.ofList (text.toList.flatMap (fun c => if c = '\n' then ['\r', '\n'] else [c]))

theorem withReturns_of_newline_not_mem {text : String} (h : '\n' ∉ text.toList) :
    withReturns text = text := by
  have hSame : text.toList.flatMap (fun c => if c = '\n' then ['\r', '\n'] else [c]) =
      text.toList.flatMap (fun c => [c]) := by
    apply List.flatMap_congr
    intro c hc
    have hOther : c ≠ '\n' := fun hEnd => h (hEnd ▸ hc)
    rw [if_neg hOther]
  rw [withReturns, hSame, List.flatMap_singleton', String.ofList_toList]

theorem withReturns_append (line rest : String) :
    withReturns (line ++ "\n" ++ rest) = withReturns line ++ "\r" ++ "\n" ++ withReturns rest := by
  rw [← String.toList_inj]
  simp [withReturns]

theorem map_words_lines_withReturns (text : String) :
    (lines (withReturns text)).map words = (lines text).map words := by
  induction text using induction_on_lines with
  | last text hText => rw [withReturns_of_newline_not_mem hText]
  | append line rest hLine ih =>
    have hReturn : '\n' ∉ (line ++ "\r").toList := by simpa using hLine
    rw [withReturns_append, withReturns_of_newline_not_mem hLine, map_words_lines_append hReturn,
      map_words_lines_append hLine, erase_append_return, words_append_return, ih]

/-- A line end behind a text ends its last line or adds an empty one. -/
theorem lines_append_end (text : String) :
    (lines (text ++ "\n")).map words = (lines text).map words ∨
      lines (text ++ "\n") = lines text ++ [""] := by
  induction text using induction_on_lines with
  | last text hText =>
    have hLines := lines_append_newline hText ""
    have hWords := map_words_lines_append hText ""
    rw [String.append_empty] at hLines hWords
    rw [lines_of_newline_not_mem hText]
    by_cases hEmpty : text = ""
    · subst hEmpty
      exact Or.inr hLines
    · rw [if_neg hEmpty]
      exact Or.inl hWords
  | append line rest hLine ih =>
    have hRest : line ++ "\n" ++ rest ++ "\n" = line ++ "\n" ++ (rest ++ "\n") :=
      String.append_assoc
    rw [hRest]
    rcases ih with hWords | hLines
    · left
      rw [map_words_lines_append hLine, map_words_lines_append hLine, hWords]
    · right
      rw [lines_append_newline hLine, lines_append_newline hLine, hLines, List.cons_append]

end Text

namespace Session

/-! ## Sessions with the same words -/

theorem step_eq_of_words {text text' : String} (h : Text.words text = Text.words text')
    (e : Evaluator) : step e (.line text) = step e (.line text') := by
  have hBlank : Text.isBlankLine text = Text.isBlankLine text' := by
    rw [Bool.eq_iff_iff, ← Text.words_eq_nil_iff, ← Text.words_eq_nil_iff, h]
  rw [step, step, hBlank, h]

/-- A session depends on the words of its lines only. -/
theorem run_eq_of_words {lines lines' : List String}
    (h : lines.map Text.words = lines'.map Text.words) (events : List Event) (e : Evaluator) :
    run e (lines.map .line ++ events) = run e (lines'.map .line ++ events) := by
  induction lines generalizing lines' e with
  | nil =>
    rw [List.map_nil] at h
    rw [List.map_eq_nil_iff.mp h.symm]
  | cons text lines ih =>
    obtain ⟨text', lines', rfl, hWords, hLines⟩ := List.map_eq_cons_iff.mp h.symm
    rw [List.map_cons, List.cons_append, List.map_cons, List.cons_append, run, run,
      step_eq_of_words hWords.symm]
    cases step e (.line text') with
    | goesOn next =>
      dsimp only
      rw [ih hLines.symm]
    | ends ending left => rfl

/-- An empty line stops a session like the end of input. -/
theorem run_empty_line (events : List Event) (e : Evaluator) :
    run e (.line "" :: events) = run e [.endOfInput] := by
  have hBlank : Text.isBlankLine "" = true := by decide
  rw [run, step_blank e hBlank]
  rfl

end Session

namespace Program

open Text (withReturns lines)

theorem events_eq (input : String) :
    events input = (lines input).map .line ++ [.endOfInput] := rfl

theorem run_events_withReturns (e : Evaluator) (input : String) :
    Session.run e (events (withReturns input)) = Session.run e (events input) :=
  Session.run_eq_of_words (Text.map_words_lines_withReturns input) [.endOfInput] e

theorem run_events_append_end (e : Evaluator) (input : String) :
    Session.run e (events (input ++ "\n")) = Session.run e (events input) := by
  rcases Text.lines_append_end input with hWords | hLines
  · exact Session.run_eq_of_words hWords [.endOfInput] e
  · have hEnd := Session.run_append_congr (Session.run_empty_line [.endOfInput])
      ((lines input).map .line) e
    rw [events_eq, events_eq, hLines, List.map_append, List.append_assoc]
    exact hEnd

/-- **The ends of lines make no difference.** With a carriage return in front of every line feed of
the input, and with one more line feed behind the input, the outcome of the program is the same. -/
theorem run_line_ends (arguments : List String) (input : String) :
    run arguments (withReturns input) = run arguments input ∧
      run arguments (input ++ "\n") = run arguments input := by
  unfold run runWith
  cases task arguments with
  | session m =>
    have hReturns := run_events_withReturns (.fresh m) input
    have hEnd := run_events_append_end (.fresh m) input
    exact ⟨congrArg reportSession hReturns, congrArg reportSession hEnd⟩
  | expression m text => exact ⟨rfl, rfl⟩
  | answer outcome => exact ⟨rfl, rfl⟩

/-- A doubled carriage return, and one at the end of a last line without an end. -/
example : run ["-i"] "4\r\r\n5 *\r" = run ["-i"] "4\n5 *" := by decide +kernel

end Program

end ReversePolish
