import ReversePolish.Proofs.Program.Task
import ReversePolish.Proofs.Session.Transcript
import ReversePolish.Proofs.Text.Reading

/-!
# The outcome of the program

What the program writes and its exit code, for each of the four things that arguments can ask for.
All of it holds for every line editor, and only a session needs one.

* `text_ne_message`: no value is written like a message, because the text of a finite double is a
  numeral.
* `reportValue_output_ne`: hence an evaluation never writes the same for a value and for a failure.
* `IsHelp`: what a help text has to say; both of them say it.
* `exitCode_cases`: the exit code is above one for arguments that are misused, and for no others.
* `run_outcome`: the exit code and the output in each case.
-/

namespace ReversePolish

theorem EvalError.classify_message (fault : EvalError) :
    Token.classify fault.message = .operator fault.message := by
  cases fault
  all_goals
    rw [message]
    decide +kernel

theorem EvalError.message_not_mem (fault : EvalError) :
    fault.message ∉ ["NaN", "-inf", "inf"] := by
  cases fault
  all_goals
    rw [message]
    decide

/-- No value is written like a message. -/
theorem Binary64.text_ne_message (x : Binary64) (fault : EvalError) : x.text ≠ fault.message := by
  intro hSame
  cases hFinite : x.isFinite with
  | true =>
    have hClassify := classify_text hFinite
    rw [hSame, fault.classify_message] at hClassify
    cases hClassify
  | false =>
    apply fault.message_not_mem
    rw [← hSame]
    simpa using text_of_not_finite hFinite

theorem Session.Ending.status_le (ending : Ending) : ending.status ≤ 1 := by
  cases ending with
  | value x => exact Nat.zero_le 1
  | fault error => exact Nat.le_refl 1
  | interrupted => exact Nat.le_refl 1
  | failure message => exact Nat.le_refl 1

namespace Program

/-! ## Help texts -/

/-- Lines that say what the program is and how it is run, and in which each spelling of a flag and
each symbol of an operator occurs. -/
structure Explains (lines : List String) : Prop where
  head?_eq : lines.head? = some "Reverse Polish Notation (RPN) calculator"
  usage_mem : "Usage: rpncalc [OPTIONS] [TOKENS]..." ∈ lines
  flag_infix : ∀ flag ∈ Arguments.reserved, ∃ line ∈ lines, flag.toList <:+: line.toList
  symbol_infix : ∀ op : Operator, ∃ line ∈ lines, ['"', op.symbol, '"'] <:+: line.toList

/-- A text of such lines, all with their ends. -/
def IsHelp (text : String) : Prop :=
  ∃ lines : List String, text = String.join (lines.map (· ++ "\n")) ∧ Explains lines

/-- All spellings of the flags occur where the lines about them begin. -/
theorem flag_infix_of_heads {lines : List String}
    (h : ∀ head ∈ ["  -i, --interactive", "      --loose", "  -h, --help"],
      ∃ rest, head ++ rest ∈ lines) :
    ∀ flag ∈ Arguments.reserved, ∃ line ∈ lines, flag.toList <:+: line.toList := by
  have hHeads : ∀ flag ∈ Arguments.reserved,
      ∃ head ∈ ["  -i, --interactive", "      --loose", "  -h, --help"],
        flag.toList <:+: head.toList := by
    decide +kernel
  intro flag hFlag
  obtain ⟨head, hHead, hInfix⟩ := hHeads flag hFlag
  obtain ⟨rest, hLine⟩ := h head hHead
  refine ⟨head ++ rest, hLine, ?_⟩
  rw [String.toList_append]
  exact hInfix.trans (List.prefix_append _ _).isInfix

theorem symbol_infix_append_operators (lines : List String) (op : Operator) :
    ∃ line ∈ lines ++ Help.operators, ['"', op.symbol, '"'] <:+: line.toList := by
  have hOperators : ∃ line ∈ Help.operators, ['"', op.symbol, '"'] <:+: line.toList := by
    cases op
    all_goals decide +kernel
  obtain ⟨line, hLine, hInfix⟩ := hOperators
  exact ⟨line, List.mem_append_right _ hLine, hInfix⟩

theorem isHelp_summary : IsHelp Help.summary := by
  refine ⟨_, rfl, rfl, ?_, flag_infix_of_heads ?_, symbol_infix_append_operators _⟩
  · decide +kernel
  · simp only [List.forall_mem_cons]
    refine ⟨⟨"  " ++ Help.aboutInteractive, ?_⟩, ⟨"        " ++ Help.aboutLoose, ?_⟩,
      ⟨"         Print help (see more with '--help')", ?_⟩, by simp⟩
    all_goals decide +kernel

theorem isHelp_full : IsHelp Help.full := by
  refine ⟨_, rfl, rfl, ?_, flag_infix_of_heads ?_, symbol_infix_append_operators _⟩
  · decide +kernel
  · simp only [List.forall_mem_cons]
    refine ⟨⟨"", ?_⟩, ⟨"", ?_⟩, ⟨"", ?_⟩, by simp⟩
    all_goals decide +kernel

/-! ## The outcome in each case -/

variable {editor : Text.LineEditor} {arguments : List String} {a : Arguments}

theorem run_of_answer {outcome : Outcome} (h : task arguments = .answer outcome) (input : String) :
    runWith editor arguments input = outcome := by
  rw [runWith, h]

theorem Evaluates.run_eq (h : Evaluates arguments a) (input : String) :
    runWith editor arguments input =
      reportValue (Evaluator.evaluate a.matching (Text.spaced a.tokens)) := by
  rw [runWith, h.task_eq]

theorem Converses.run_eq (h : Converses arguments a) {input : String} {lines : List String}
    (hLines : Text.Reads editor input lines) :
    runWith editor arguments input =
      reportSession (Session.run (.fresh a.matching) (lines.map .line ++ [.endOfInput])) := by
  rw [runWith, h.task_eq, hLines.eq_lines]
  rfl

/-- Without backspaces in the input it makes no difference which editor reads it. -/
theorem run_of_backspace_not_mem {input : String} (h : Text.backspace ∉ input.toList)
    (other : Text.LineEditor) : runWith editor arguments input = runWith other arguments input := by
  have hLines : Text.Reads other input (editor.lines input) :=
    (editor.reads_lines input).of_backspace_not_mem h
  rw [runWith, runWith, eventsWith, eventsWith, hLines.eq_lines]

/-- A value and a failure are written as one line. -/
theorem reportValue_spec (value : Except EvalError Binary64) :
    (reportValue value).exitCode ≤ 1 ∧
      ∃ line, (reportValue value).output = line ++ "\n" ∧ '\n' ∉ line.toList := by
  cases value with
  | ok x => exact ⟨Nat.zero_le 1, x.text, rfl, x.newline_not_mem_text⟩
  | error fault => exact ⟨Nat.le_refl 1, fault.message, rfl, fault.newline_not_mem_message⟩

/-- What is written tells a value from a failure. -/
theorem reportValue_output_ne {value other : Except EvalError Binary64}
    (hValue : (reportValue value).exitCode = 0) (hFault : (reportValue other).exitCode = 1) :
    (reportValue value).output ≠ (reportValue other).output := by
  cases value with
  | error fault => cases hValue
  | ok x =>
    cases other with
    | ok y => cases hFault
    | error fault =>
      intro hSame
      exact x.text_ne_message fault ((String.append_left_inj "\n").mp hSame)

theorem Evaluates.run_spec (h : Evaluates arguments a) (input : String) :
    let r := runWith editor arguments input
    (∃ line, r.output = line ++ "\n" ∧ '\n' ∉ line.toList) ∧
      match Evaluator.evaluate a.matching (" ".intercalate a.tokens) with
      | .ok x => r.exitCode = 0 ∧ r.output = x.text ++ "\n"
      | .error fault => r.exitCode = 1 ∧ r.output = fault.message ++ "\n" := by
  rw [h.run_eq, Text.spaced]
  refine ⟨(reportValue_spec _).2, ?_⟩
  cases Evaluator.evaluate a.matching (" ".intercalate a.tokens) with
  | ok x => exact ⟨rfl, rfl⟩
  | error fault => exact ⟨rfl, rfl⟩

theorem Evaluates.output_ne (h : Evaluates arguments a) {input : String}
    (hValue : (runWith editor arguments input).exitCode = 0) {editor' : Text.LineEditor}
    {arguments' : List String} {a' : Arguments} (h' : Evaluates arguments' a') {input' : String}
    (hFault : (runWith editor' arguments' input').exitCode = 1) :
    (runWith editor arguments input).output ≠ (runWith editor' arguments' input').output := by
  rw [h.run_eq] at hValue ⊢
  rw [h'.run_eq] at hFault ⊢
  exact reportValue_output_ne hValue hFault

theorem Converses.run_spec (h : Converses arguments a) {input : String} {lines : List String}
    (hLines : Text.Reads editor input lines) :
    let r := runWith editor arguments input
    let report := Session.run (.fresh a.matching) (lines.map .line ++ [.endOfInput])
    r.exitCode = report.ending.status ∧ r.output = report.transcript := by
  rw [h.run_eq hLines]
  exact ⟨rfl, rfl⟩

theorem Misused.run_spec (h : Misused arguments) (input : String) :
    let r := runWith editor arguments input
    r.exitCode = 2 ∧ r.output = "" ∧ task arguments = .answer r := by
  obtain ⟨message, hTask⟩ := h.task_eq
  rw [run_of_answer hTask]
  exact ⟨rfl, rfl, hTask⟩

theorem AsksHelp.run_spec (h : AsksHelp arguments) (input : String) :
    let r := runWith editor arguments input
    r.exitCode = 0 ∧ (r.output = Help.summary ∨ r.output = Help.full) ∧ IsHelp r.output := by
  rcases h.task_eq with hTask | hTask
  · rw [run_of_answer hTask]
    exact ⟨rfl, Or.inl rfl, isHelp_summary⟩
  · rw [run_of_answer hTask]
    exact ⟨rfl, Or.inr rfl, isHelp_full⟩

/-- Only arguments that are misused have an exit code above one. -/
theorem exitCode_cases (editor : Text.LineEditor) (arguments : List String) (input : String) :
    (Misused arguments ∧ (runWith editor arguments input).exitCode = 2) ∨
      (runWith editor arguments input).exitCode ≤ 1 := by
  rcases cases_of_arguments arguments with hMisused | hHelp | ⟨a, hEvaluates⟩ | ⟨a, hConverses⟩
  · exact Or.inl ⟨hMisused, (hMisused.run_spec input).1⟩
  · rw [(hHelp.run_spec input).1]
    exact Or.inr (Nat.zero_le 1)
  · rw [hEvaluates.run_eq]
    exact Or.inr (reportValue_spec _).1
  · rw [hConverses.run_eq (editor.reads_lines input)]
    exact Or.inr (Session.Ending.status_le _)

/-- **The outcome of the program.** The exit code is two exactly for arguments that are misused:
then there is no output, and the outcome is an answer to the arguments alone. Otherwise a help text
is written if the arguments ask for help or leave nothing to do; an expression is evaluated and its
value or its failure is written on a single line, whatever the input is, and the line tells which of
the two it is; or the lines of the input are read by a session, whatever the tokens are. The editor
makes a difference only to a session, and only if there are backspaces in the input. -/
theorem run_outcome (editor : Text.LineEditor) (arguments : List String) (input : String) :
    (Misused arguments ∨ AsksHelp arguments ∨ (∃ a, Evaluates arguments a) ∨
      ∃ a, Converses arguments a) ∧
    let r := runWith editor arguments input
    r.exitCode ≤ 2 ∧
    (r.exitCode = 2 ↔ Misused arguments) ∧
    (Misused arguments → r.output = "" ∧ task arguments = .answer r) ∧
    (AsksHelp arguments →
      r.exitCode = 0 ∧ (r.output = Help.summary ∨ r.output = Help.full) ∧ IsHelp r.output) ∧
    (∀ a, Evaluates arguments a →
      (∃ line, r.output = line ++ "\n" ∧ '\n' ∉ line.toList) ∧
      (match Evaluator.evaluate a.matching (" ".intercalate a.tokens) with
        | .ok x => r.exitCode = 0 ∧ r.output = x.text ++ "\n"
        | .error fault => r.exitCode = 1 ∧ r.output = fault.message ++ "\n") ∧
      ∀ editor' arguments' a' input', Evaluates arguments' a' →
        let r' := runWith editor' arguments' input'
        r.exitCode = 0 → r'.exitCode = 1 → r.output ≠ r'.output) ∧
    (∃! lines, Text.Reads editor input lines) ∧
    (∀ a lines, Converses arguments a → Text.Reads editor input lines →
      let report := Session.run (.fresh a.matching) (lines.map .line ++ [.endOfInput])
      r.exitCode = report.ending.status ∧ r.output = report.transcript) ∧
    (Text.backspace ∉ input.toList → ∀ other, r = runWith other arguments input) := by
  refine ⟨cases_of_arguments arguments, ?_⟩
  intro r
  have hCode : (Misused arguments ∧ r.exitCode = 2) ∨ r.exitCode ≤ 1 :=
    exitCode_cases editor arguments input
  refine ⟨?_, ?_, ?_, ?_, ?_, ?_, ?_, ?_⟩
  · omega
  · constructor
    · intro hTwo
      exact (hCode.resolve_right (by omega)).1
    · exact fun hMisused => (hMisused.run_spec input).1
  · exact fun hMisused => (hMisused.run_spec input).2
  · exact fun hHelp => hHelp.run_spec input
  · intro a hEvaluates
    obtain ⟨hLine, hResult⟩ := hEvaluates.run_spec input
    exact ⟨hLine, hResult, fun _ _ _ _ hEvaluates' hValue => hEvaluates.output_ne hValue hEvaluates'⟩
  · exact editor.existsUnique_reads input
  · exact fun a lines hConverses => hConverses.run_spec
  · exact run_of_backspace_not_mem

/-- A flag among the tokens beside another flag in its place, a flag alone, an empty token, a token
with a symbol in it, a token that a session leaves aside with a backspace and a carriage return in
its input, and an editor that does not look at backspaces. -/
theorem run_outcome_in_each_case :
    let misused := ["-i", "1", "--loose"]
    let value := ["--loose", "1", "2", "x+y"]
    let fault := ["1", ""]
    let session := ["-i", "7"]
    let input := "1\x082\r\n3\n+"
    let unedited : Text.LineEditor := ⟨id, fun _ => rfl⟩
    Misused misused ∧ (run misused "2").exitCode = 2 ∧ (run misused "2").output = "" ∧
      AsksHelp ["--loose"] ∧ (run ["--loose"] "1 2 +").exitCode = 0 ∧
      IsHelp (run ["--loose"] "1 2 +").output ∧
      Evaluates value ⟨false, true, ["1", "2", "x+y"]⟩ ∧ Evaluates fault ⟨false, false, ["1", ""]⟩ ∧
      (run value "").output = "3\n" ∧ (run fault "").exitCode = 1 ∧
      (run value "").output ≠ (run fault "").output ∧
      Converses session ⟨true, false, ["7"]⟩ ∧
      Text.Reads .byCodePoint input ["2", "3", "+"] ∧
      (run session input).exitCode = 0 ∧ (run session input).output = "2\n2\n3\n5\n\n5\n" ∧
      run session "2 3\n+" = runWith unedited session "2 3\n+" := by
  intro misused value fault session input unedited
  have hMisused : Misused misused := Or.inr ⟨⟨true, false, ["1", "--loose"]⟩, "--loose", by decide⟩
  have hHelp : AsksHelp ["--loose"] :=
    Or.inr ⟨⟨false, true, []⟩, ⟨by decide, by decide⟩, rfl, rfl⟩
  have hEvaluates : Evaluates value ⟨false, true, ["1", "2", "x+y"]⟩ :=
    ⟨⟨by decide, by decide⟩, rfl, by decide⟩
  have hFault : Evaluates fault ⟨false, false, ["1", ""]⟩ :=
    ⟨⟨by decide, by decide⟩, rfl, by decide⟩
  have hConverses : Converses session ⟨true, false, ["7"]⟩ := ⟨⟨by decide, by decide⟩, rfl⟩
  have hReads : Text.Reads .byCodePoint ("1\x082" ++ "\r\n" ++ ("3" ++ "\n" ++ "+"))
      [Text.erase "1\x082", Text.erase "3", Text.erase "+"] :=
    .returned (by decide) (.ended (by decide) (by decide) (.last (by decide) (by decide)))
  have hLines : [Text.erase "1\x082", Text.erase "3", Text.erase "+"] = ["2", "3", "+"] := by
    decide +kernel
  rw [hLines] at hReads
  have hZero : (run value "").exitCode = 0 := by decide +kernel
  have hOne : (run fault "").exitCode = 1 := by decide +kernel
  obtain ⟨-, -, hTwo, hSilent, -⟩ := run_outcome .byCodePoint misused "2"
  obtain ⟨-, -, -, -, hText, -⟩ := run_outcome .byCodePoint ["--loose"] "1 2 +"
  obtain ⟨-, -, -, -, -, hLine, -⟩ := run_outcome .byCodePoint value ""
  obtain ⟨-, -, -, -, -, -, -, hSession, -⟩ := run_outcome .byCodePoint session input
  obtain ⟨-, -, -, -, -, -, -, -, hSame⟩ := run_outcome .byCodePoint session "2 3\n+"
  obtain ⟨-, -, hOther⟩ := hLine _ hEvaluates
  obtain ⟨hStatus, hOutput⟩ := hSession _ _ hConverses hReads
  exact ⟨hMisused, hTwo.mpr hMisused, (hSilent hMisused).1, hHelp, (hText hHelp).1,
    (hText hHelp).2.2, hEvaluates, hFault, by decide +kernel, hOne,
    hOther .byCodePoint fault _ "" hFault hZero hOne, hConverses, hReads,
    hStatus.trans (by decide +kernel), hOutput.trans (by decide +kernel),
    hSame (by decide) unedited⟩

end Program

end ReversePolish
