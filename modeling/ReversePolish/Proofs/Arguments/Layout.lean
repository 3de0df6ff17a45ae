import Mathlib.Data.List.Basic
import Mathlib.Tactic.MkIffOfInductiveProp
import ReversePolish.Arguments

/-!
# How accepted arguments are laid out

Arguments that are accepted are flags, then perhaps a `--`, and then the tokens as they stand. No
flag is given twice, and every flag that is given is taken note of. Flags that share a hyphen are
never accepted: the only letter that is not a request for help stands for a flag that may be given
once.

* `read_cases`, `note_ok`: all that one argument is taken for, and all that a flag can add.
* `parseAfter_cons_ok`: all that reading one more argument can do without a refusal.
* `Adds`: what flags add to what was seen before them. It is both what the flags of an accepted list
  do (`exists_layout`) and all that is needed for a list to be accepted (`Adds.parseAfter_eq`), each
  by induction on the arguments.
* `parse_layout`: the layout of all arguments that are accepted and have no flag among the tokens,
  and that every such layout is accepted.
-/

namespace ReversePolish

namespace Flag

variable {flag : Flag}

theorem toList_name_of_ofName? {name : List Char} (h : ofName? name = some flag) :
    flag.name.toList = name := by
  have hName := List.find?_some h
  exact eq_of_beq hName

theorem letter?_of_ofLetter? {letter : Char} (h : ofLetter? letter = some flag) :
    flag.letter? = some letter := by
  have hLetter := List.find?_some h
  exact eq_of_beq hLetter

end Flag

namespace Arguments

variable {seen next a : Arguments} {argument : String} {rest : List String}

/-! ## What one argument is taken for -/

theorem readLong_cases (text : List Char) :
    (text = [] ∧ readLong text = .separator) ∨
      (∃ flag : Flag, text = flag.name.toList ∧ readLong text = .long flag) ∨
      (∃ flag value, readLong text = .valued flag value) ∨ readLong text = .token := by
  unfold readLong
  split
  · rename_i hNil
    exact Or.inl ⟨hNil, rfl⟩
  · split
    · rename_i flag hName hValue
      have hText := List.takeWhile_append_dropWhile (p := (· != '=')) (l := text)
      rw [hValue, List.append_nil] at hText
      rw [hText] at hName
      exact Or.inr (Or.inl ⟨flag, (Flag.toList_name_of_ofName? hName).symm, rfl⟩)
    · exact Or.inr (Or.inr (Or.inl ⟨_, _, rfl⟩))
    · exact Or.inr (Or.inr (Or.inr rfl))

theorem readLetters_cases (text : List Char) :
    readLetters text = .token ∨
      ∃ flags, text ≠ [] ∧ text.mapM Flag.ofLetter? = some flags ∧
        readLetters text = .letters flags := by
  unfold readLetters
  split
  · exact Or.inl rfl
  · rename_i hNil
    split
    · rename_i flags hFlags
      exact Or.inr ⟨flags, hNil, hFlags, rfl⟩
    · exact Or.inl rfl

/-- All that an argument before the tokens is taken for. -/
theorem read_cases (argument : String) :
    (argument = "--" ∧ read argument = .separator) ∨
      (∃ flag : Flag, argument = flag.written ∧ read argument = .long flag) ∨
      (∃ text flags, argument.toList = '-' :: text ∧ text ≠ [] ∧
        text.mapM Flag.ofLetter? = some flags ∧ read argument = .letters flags) ∨
      (∃ flag value, read argument = .valued flag value) ∨ read argument = .token := by
  unfold read
  split
  · rename_i text hText
    rcases readLong_cases text with ⟨rfl, hRead⟩ | ⟨flag, rfl, hRead⟩ | hValued | hToken
    · exact Or.inl ⟨String.toList_inj.mp hText, hRead⟩
    · refine Or.inr (Or.inl ⟨flag, ?_, hRead⟩)
      rw [← String.toList_inj, hText]
      simp [Flag.written]
    · exact Or.inr (Or.inr (Or.inr (Or.inl hValued)))
    · exact Or.inr (Or.inr (Or.inr (Or.inr hToken)))
  · rename_i text _ hText
    rcases readLetters_cases text with hToken | ⟨flags, hNil, hFlags, hRead⟩
    · exact Or.inr (Or.inr (Or.inr (Or.inr hToken)))
    · exact Or.inr (Or.inr (Or.inl ⟨text, flags, hText, hNil, hFlags, hRead⟩))
  · exact Or.inr (Or.inr (Or.inr (Or.inr rfl)))

/-! ## Flags that are accepted -/

/-- A flag is accepted if it is no request for help and was not given before. -/
theorem note_ok {full : Bool} {flag : Flag} (h : seen.note full flag = .ok next) :
    (flag = .interactive ∧ seen.interactive = false ∧ next = { seen with interactive := true }) ∨
      (flag = .loose ∧ seen.loose = false ∧ next = { seen with loose := true }) := by
  cases flag with
  | interactive =>
    unfold note at h
    dsimp only at h
    split at h
    · cases h
    · rename_i hFirst
      cases h
      exact Or.inl ⟨rfl, by simpa using hFirst, rfl⟩
  | loose =>
    unfold note at h
    dsimp only at h
    split at h
    · cases h
    · rename_i hFirst
      cases h
      exact Or.inr ⟨rfl, by simpa using hFirst, rfl⟩
  | help => cases h

/-- A letter that is accepted is the one of the flag for a session. -/
theorem note_letter {flag : Flag} {letter : Char} (hLetter : Flag.ofLetter? letter = some flag)
    (h : seen.note false flag = .ok next) :
    letter = 'i' ∧ seen.interactive = false ∧ next = { seen with interactive := true } := by
  have hFlag := Flag.letter?_of_ofLetter? hLetter
  rcases note_ok h with ⟨rfl, hFirst, hNext⟩ | ⟨rfl, -, -⟩
  · exact ⟨(Option.some.inj hFlag).symm, hFirst, hNext⟩
  · cases hFlag

theorem noteAll_cons_ok {flag : Flag} {flags : List Flag}
    (h : seen.noteAll (flag :: flags) = .ok next) :
    ∃ middle, seen.note false flag = .ok middle ∧ middle.noteAll flags = .ok next := by
  rw [noteAll] at h
  cases hNote : seen.note false flag with
  | error refusal => simp [hNote] at h
  | ok middle =>
    rw [hNote] at h
    exact ⟨middle, rfl, h⟩

/-- Of several letters the second one is refused at the latest. -/
theorem noteAll_letters {text : List Char} {flags : List Flag} (hNil : text ≠ [])
    (hFlags : text.mapM Flag.ofLetter? = some flags) (h : seen.noteAll flags = .ok next) :
    text = ['i'] ∧ seen.interactive = false ∧ next = { seen with interactive := true } := by
  obtain ⟨letter, letters, rfl⟩ := List.exists_cons_of_ne_nil hNil
  simp only [List.mapM_cons, Option.bind_eq_bind, Option.bind_eq_some_iff, Option.pure_def,
    Option.some.injEq] at hFlags
  obtain ⟨flag, hLetter, flags, hFlags, rfl⟩ := hFlags
  obtain ⟨middle, hNote, h⟩ := noteAll_cons_ok h
  obtain ⟨rfl, hFirst, rfl⟩ := note_letter hLetter hNote
  cases letters with
  | nil =>
    cases hFlags
    cases h
    exact ⟨rfl, hFirst, rfl⟩
  | cons letter letters =>
    simp only [List.mapM_cons, Option.bind_eq_bind, Option.bind_eq_some_iff, Option.pure_def,
      Option.some.injEq] at hFlags
    obtain ⟨flag, hLetter, flags, -, rfl⟩ := hFlags
    obtain ⟨middle, hNote, -⟩ := noteAll_cons_ok h
    obtain ⟨-, hSecond, -⟩ := note_letter hLetter hNote
    cases hSecond

/-- All that reading one more argument can do without a refusal. -/
theorem parseAfter_cons_ok (h : seen.parseAfter (argument :: rest) = .ok a) :
    (argument = "--" ∧ a = { seen with tokens := rest }) ∨
      (read argument = .token ∧ a = { seen with tokens := argument :: rest }) ∨
      ((argument = "-i" ∨ argument = "--interactive") ∧ seen.interactive = false ∧
        { seen with interactive := true }.parseAfter rest = .ok a) ∨
      (argument = "--loose" ∧ seen.loose = false ∧
        { seen with loose := true }.parseAfter rest = .ok a) := by
  rw [parseAfter] at h
  rcases read_cases argument with ⟨hText, hRead⟩ | ⟨flag, hText, hRead⟩ |
    ⟨text, flags, hText, hNil, hFlags, hRead⟩ | ⟨flag, value, hRead⟩ | hRead
  all_goals rw [hRead] at h
  · cases h
    exact Or.inl ⟨hText, rfl⟩
  · dsimp only at h
    cases hNote : seen.note true flag with
    | error refusal => simp [hNote] at h
    | ok next =>
      rw [hNote] at h
      rcases note_ok hNote with ⟨rfl, hFirst, rfl⟩ | ⟨rfl, hFirst, rfl⟩
      · exact Or.inr (Or.inr (Or.inl ⟨Or.inr hText, hFirst, h⟩))
      · exact Or.inr (Or.inr (Or.inr ⟨hText, hFirst, h⟩))
  · dsimp only at h
    cases hNote : seen.noteAll flags with
    | error refusal => simp [hNote] at h
    | ok next =>
      rw [hNote] at h
      obtain ⟨rfl, hFirst, rfl⟩ := noteAll_letters hNil hFlags hNote
      exact Or.inr (Or.inr (Or.inl ⟨Or.inl (String.toList_inj.mp hText), hFirst, h⟩))
  · cases h
  · cases h
    exact Or.inr (Or.inl ⟨hRead, rfl⟩)

theorem parseAfter_cons_separator (seen : Arguments) (rest : List String) :
    seen.parseAfter ("--" :: rest) = .ok { seen with tokens := rest } := by
  have hRead : read "--" = .separator := by decide
  rw [parseAfter, hRead]

theorem parseAfter_cons_interactive (hFlag : argument = "-i" ∨ argument = "--interactive")
    (hFirst : seen.interactive = false) (rest : List String) :
    seen.parseAfter (argument :: rest) = { seen with interactive := true }.parseAfter rest := by
  have hNote : ∀ full, seen.note full .interactive = .ok { seen with interactive := true } :=
    fun full => by simp [note, hFirst]
  rw [parseAfter]
  rcases hFlag with rfl | rfl
  · have hRead : read "-i" = .letters [.interactive] := by decide
    simp only [hRead, noteAll, hNote]
  · have hRead : read "--interactive" = .long .interactive := by decide
    simp only [hRead, hNote]

theorem parseAfter_cons_loose (hFirst : seen.loose = false) (rest : List String) :
    seen.parseAfter ("--loose" :: rest) = { seen with loose := true }.parseAfter rest := by
  have hRead : read "--loose" = .long .loose := by decide
  have hNote : seen.note true .loose = .ok { seen with loose := true } := by simp [note, hFirst]
  rw [parseAfter]
  simp only [hRead, hNote]

/-! ## Flags before the tokens -/

/-- The flags are spelled out one by one and added to what was seen before them, no flag twice. -/
@[mk_iff]
structure Adds (seen : Arguments) (flags : List String) (a : Arguments) : Prop where
  spelled : ∀ f ∈ flags, f = "-i" ∨ f = "--interactive" ∨ f = "--loose"
  interactive_eq : a.interactive.toNat =
    seen.interactive.toNat + (flags.count "-i" + flags.count "--interactive")
  loose_eq : a.loose.toNat = seen.loose.toNat + flags.count "--loose"

/-- One more occurrence is possible only if there was none before. -/
theorem toNat_eq_add_succ_iff {before after : Bool} {n : Nat} :
    after.toNat = before.toNat + (n + 1) ↔ before = false ∧ after.toNat = true.toNat + n := by
  have hOnce : after.toNat ≤ 1 := Bool.toNat_le after
  cases before with
  | false => simp [Nat.add_comm]
  | true =>
    rw [Bool.toNat_true]
    constructor
    · omega
    · rintro ⟨hBefore, -⟩
      cases hBefore

theorem adds_nil :
    Adds seen [] a ↔ a.interactive = seen.interactive ∧ a.loose = seen.loose := by
  have hToNat : ∀ b c : Bool, b.toNat = c.toNat ↔ b = c := by decide
  rw [adds_iff]
  simp [hToNat]

theorem adds_cons_interactive {flags : List String}
    (hFlag : argument = "-i" ∨ argument = "--interactive") :
    Adds seen (argument :: flags) a ↔
      seen.interactive = false ∧ Adds { seen with interactive := true } flags a := by
  have hCount : (argument :: flags).count "-i" + (argument :: flags).count "--interactive" =
      flags.count "-i" + flags.count "--interactive" + 1 := by
    rcases hFlag with rfl | rfl
    · simp
      omega
    · simp
      omega
  have hOther : (argument :: flags).count "--loose" = flags.count "--loose" := by
    rcases hFlag with rfl | rfl
    · simp
    · simp
  rw [adds_iff, adds_iff, List.forall_mem_cons, hCount, hOther, toNat_eq_add_succ_iff]
  constructor
  · rintro ⟨⟨-, hSpelled⟩, ⟨hFirst, hInteractive⟩, hLoose⟩
    exact ⟨hFirst, hSpelled, hInteractive, hLoose⟩
  · rintro ⟨hFirst, hSpelled, hInteractive, hLoose⟩
    exact ⟨⟨hFlag.imp_right Or.inl, hSpelled⟩, ⟨hFirst, hInteractive⟩, hLoose⟩

theorem adds_cons_loose {flags : List String} :
    Adds seen ("--loose" :: flags) a ↔
      seen.loose = false ∧ Adds { seen with loose := true } flags a := by
  have hCount : ("--loose" :: flags).count "--loose" = flags.count "--loose" + 1 := by simp
  have hOther : ("--loose" :: flags).count "-i" + ("--loose" :: flags).count "--interactive" =
      flags.count "-i" + flags.count "--interactive" := by
    simp
  rw [adds_iff, adds_iff, List.forall_mem_cons, hCount, hOther, toNat_eq_add_succ_iff]
  constructor
  · rintro ⟨⟨-, hSpelled⟩, hInteractive, hFirst, hLoose⟩
    exact ⟨hFirst, hSpelled, hInteractive, hLoose⟩
  · rintro ⟨hFirst, hSpelled, hInteractive, hLoose⟩
    exact ⟨⟨Or.inr (Or.inr rfl), hSpelled⟩, hInteractive, hFirst, hLoose⟩

/-- Arguments that are accepted are flags, perhaps a separator, and the tokens. -/
theorem exists_layout {arguments : List String} (h : seen.parseAfter arguments = .ok a)
    (hTokens : seen.tokens = []) :
    ∃ flags separator, arguments = flags ++ separator ++ a.tokens ∧ Adds seen flags a ∧
      (separator = [] ∨ separator = ["--"]) := by
  induction arguments generalizing seen with
  | nil =>
    cases h
    exact ⟨[], [], by simp [hTokens], adds_nil.mpr ⟨rfl, rfl⟩, Or.inl rfl⟩
  | cons argument rest ih =>
    rcases parseAfter_cons_ok h with ⟨rfl, rfl⟩ | ⟨-, rfl⟩ | ⟨hFlag, hFirst, hRest⟩ |
      ⟨rfl, hFirst, hRest⟩
    · exact ⟨[], ["--"], rfl, adds_nil.mpr ⟨rfl, rfl⟩, Or.inr rfl⟩
    · exact ⟨[], [], rfl, adds_nil.mpr ⟨rfl, rfl⟩, Or.inl rfl⟩
    · obtain ⟨flags, separator, hLayout, hAdds, hSeparator⟩ := ih hRest hTokens
      refine ⟨argument :: flags, separator, ?_,
        (adds_cons_interactive hFlag).mpr ⟨hFirst, hAdds⟩, hSeparator⟩
      rw [hLayout]
      rfl
    · obtain ⟨flags, separator, hLayout, hAdds, hSeparator⟩ := ih hRest hTokens
      refine ⟨"--loose" :: flags, separator, ?_,
        adds_cons_loose.mpr ⟨hFirst, hAdds⟩, hSeparator⟩
      rw [hLayout]
      rfl

/-- Flags that are each given once, a separator and any tokens are accepted. -/
theorem Adds.parseAfter_eq {flags : List String} (h : Adds seen flags a) :
    seen.parseAfter (flags ++ "--" :: a.tokens) = .ok a := by
  induction flags generalizing seen with
  | nil =>
    obtain ⟨hInteractive, hLoose⟩ := adds_nil.mp h
    rw [List.nil_append, parseAfter_cons_separator, ← hInteractive, ← hLoose]
  | cons flag flags ih =>
    rcases or_assoc.mpr (h.spelled flag List.mem_cons_self) with hFlag | rfl
    · obtain ⟨hFirst, hRest⟩ := (adds_cons_interactive hFlag).mp h
      rw [List.cons_append, parseAfter_cons_interactive hFlag hFirst, ih hRest]
    · obtain ⟨hFirst, hRest⟩ := adds_cons_loose.mp h
      rw [List.cons_append, parseAfter_cons_loose hFirst, ih hRest]

/-- Flags that are spelled out one by one, and neither of the two is given twice. -/
structure OnlyFlags (flags : List String) : Prop where
  spelled : ∀ f ∈ flags, f = "-i" ∨ f = "--interactive" ∨ f = "--loose"
  interactive_once : flags.count "-i" + flags.count "--interactive" ≤ 1
  loose_once : flags.count "--loose" ≤ 1

/-- Nothing has been seen before the first argument. -/
def nothing : Arguments := ⟨false, false, []⟩

theorem OnlyFlags.exists_adds {flags : List String} (h : OnlyFlags flags) (tokens : List String) :
    ∃ a, Adds nothing flags a ∧ a.tokens = tokens := by
  have hToNat : ∀ n ≤ 1, ∃ b : Bool, b.toNat = n := by decide
  obtain ⟨interactive, hInteractive⟩ := hToNat _ h.interactive_once
  obtain ⟨loose, hLoose⟩ := hToNat _ h.loose_once
  exact ⟨⟨interactive, loose, tokens⟩, ⟨h.spelled, by simpa [nothing] using hInteractive,
    by simpa [nothing] using hLoose⟩, rfl⟩

theorem Adds.onlyFlags {flags : List String} (h : Adds nothing flags a) : OnlyFlags flags := by
  obtain ⟨hSpelled, hInteractive, hLoose⟩ := h
  simp only [nothing, Bool.toNat_false, Nat.zero_add] at hInteractive hLoose
  exact ⟨hSpelled, hInteractive ▸ Bool.toNat_le _, hLoose ▸ Bool.toNat_le _⟩

theorem Adds.interactive_iff {flags : List String} (h : Adds nothing flags a) :
    a.interactive = true ↔ "-i" ∈ flags ∨ "--interactive" ∈ flags := by
  have hCount := h.interactive_eq
  simp only [nothing, Bool.toNat_false, Nat.zero_add] at hCount
  rw [← Bool.toNat_eq_one, hCount, ← List.count_pos_iff, ← List.count_pos_iff]
  have hOnce := h.onlyFlags.interactive_once
  omega

theorem Adds.matching_iff {flags : List String} (h : Adds nothing flags a) :
    a.matching = .loose ↔ "--loose" ∈ flags := by
  have hMatching : a.matching = .loose ↔ a.loose = true := by
    cases hLoose : a.loose <;> simp [matching, hLoose]
  have hCount := h.loose_eq
  simp only [nothing, Bool.toNat_false, Nat.zero_add] at hCount
  rw [hMatching, ← Bool.toNat_eq_one, hCount, ← List.count_pos_iff]
  have hOnce := h.onlyFlags.loose_once
  omega

/-- No token is spelled like a flag. -/
theorem strayFlag?_eq_none_iff :
    a.strayFlag? = none ↔
      ∀ t ∈ a.tokens, t ∉ ["-i", "--interactive", "--loose", "-h", "--help"] := by
  simp [strayFlag?, reserved]

/-- Behind the flags, neither the separator nor a token is spelled like a flag. -/
theorem mem_layout_iff {flags separator tokens : List String} {flag : String}
    (hFlag : flag ∈ ["-i", "--interactive", "--loose", "-h", "--help"])
    (hSeparator : separator = [] ∨ separator = ["--"])
    (hTokens : ∀ t ∈ tokens, t ∉ ["-i", "--interactive", "--loose", "-h", "--help"]) :
    flag ∈ flags ++ separator ++ tokens ↔ flag ∈ flags := by
  have hNotToken : flag ∉ tokens := fun hMem => hTokens flag hMem hFlag
  have hNotSeparator : flag ∉ separator := by
    rcases hSeparator with rfl | rfl
    · simp
    · intro hMem
      rw [List.mem_singleton.mp hMem] at hFlag
      exact absurd hFlag (by decide)
  simp [hNotToken, hNotSeparator]

/-- **The layout of arguments.** Arguments that are accepted and have no flag among their tokens are
flags, perhaps a `--`, and the tokens unchanged. No flag is given twice, every flag that occurs has
its effect and no token is a flag. Conversely, whatever flags are given once and whatever tokens are
no flags, with a `--` between them they are read as these flags and these tokens. -/
theorem parse_layout :
    (∀ arguments a, parse arguments = .ok a → a.strayFlag? = none →
      ∃ flags separator, arguments = flags ++ separator ++ a.tokens ∧ OnlyFlags flags ∧
        (separator = [] ∨ separator = ["--"]) ∧
        (∀ t ∈ a.tokens, t ∉ ["-i", "--interactive", "--loose", "-h", "--help"]) ∧
        (a.matching = .loose ↔ "--loose" ∈ arguments) ∧
        (a.interactive = true ↔ "-i" ∈ arguments ∨ "--interactive" ∈ arguments)) ∧
    ∀ flags tokens, OnlyFlags flags →
      (∀ t ∈ tokens, t ∉ ["-i", "--interactive", "--loose", "-h", "--help"]) →
      ∃ a, parse (flags ++ ["--"] ++ tokens) = .ok a ∧ a.strayFlag? = none ∧ a.tokens = tokens ∧
        (a.matching = .loose ↔ "--loose" ∈ flags) ∧
        (a.interactive = true ↔ "-i" ∈ flags ∨ "--interactive" ∈ flags) := by
  constructor
  · intro arguments a hParse hStray
    obtain ⟨flags, separator, hLayout, hAdds, hSeparator⟩ := exists_layout hParse rfl
    have hTokens := strayFlag?_eq_none_iff.mp hStray
    refine ⟨flags, separator, hLayout, hAdds.onlyFlags, hSeparator, hTokens, ?_, ?_⟩
    · rw [hAdds.matching_iff, hLayout, mem_layout_iff (by simp) hSeparator hTokens]
    · rw [hAdds.interactive_iff, hLayout, mem_layout_iff (by simp) hSeparator hTokens,
        mem_layout_iff (by simp) hSeparator hTokens]
  · intro flags tokens hFlags hTokens
    obtain ⟨a, hAdds, rfl⟩ := hFlags.exists_adds tokens
    refine ⟨a, ?_, strayFlag?_eq_none_iff.mpr hTokens, rfl, hAdds.matching_iff,
      hAdds.interactive_iff⟩
    rw [List.append_assoc]
    exact hAdds.parseAfter_eq

/-- Hyphens of all sorts behind the separator, and a second separator among the tokens. -/
theorem parse_layout_hyphens :
    let a : Arguments := ⟨true, true, ["-5", "--", "-ix", "--loose=1", ""]⟩
    let arguments := ["--loose", "-i", "--", "-5", "--", "-ix", "--loose=1", ""]
    parse arguments = .ok a ∧ a.strayFlag? = none ∧ "--loose" ∈ arguments ∧ a.matching = .loose ∧
      (∃ flags separator, arguments = flags ++ separator ++ a.tokens ∧ OnlyFlags flags) ∧
      OnlyFlags ["--loose", "-i"] ∧
      (∀ t ∈ a.tokens, t ∉ ["-i", "--interactive", "--loose", "-h", "--help"]) ∧
      ∃ b, parse (["--loose", "-i"] ++ ["--"] ++ a.tokens) = .ok b ∧ b.tokens = a.tokens := by
  intro a arguments
  obtain ⟨hLayout, hParse⟩ := parse_layout
  have hAccepted : parse arguments = .ok a := by decide
  have hStray : a.strayFlag? = none := by decide
  have hFlags : OnlyFlags ["--loose", "-i"] := ⟨by decide, by decide, by decide⟩
  have hMem : "--loose" ∈ arguments := by decide
  obtain ⟨flags, separator, hSplit, hOnly, -, hTokens, hMatching, -⟩ :=
    hLayout arguments a hAccepted hStray
  obtain ⟨b, hRead, -, hSame, -⟩ := hParse _ a.tokens hFlags hTokens
  exact ⟨hAccepted, hStray, hMem, hMatching.mpr hMem, ⟨flags, separator, hSplit, hOnly⟩, hFlags,
    hTokens, b, hRead, hSame⟩

end Arguments

end ReversePolish
