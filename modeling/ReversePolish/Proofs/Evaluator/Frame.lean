import ReversePolish.Proofs.Evaluator.Failure

/-!
# Runs and the operands below them

A run uses the operands on top of the stack and leaves those below as they are. What it does to the
height of the stack, and where it fails, is decided by the kinds of the tokens and the height at the
start; the operands themselves only decide the operands that are left.

* `feedAll_run_above`: tokens that are accepted are accepted on a taller stack, and what is below
  stays.
* `Alike`, `feedAll_run_alike`: on stacks of one height a run does the same up to the operands.
* `need`, `exists_feedAll_run_eq_ok_iff`: how many operands a run needs, computed from the kinds of
  its tokens from right to left.
* `feedAll_frame`: these together.
-/

namespace ReversePolish.Evaluator

open Token (Kind kind kinds)

variable {m : Matching}

/-! ## More operands below -/

theorem feed_run_above {token : String} {values left : List Binary64} (below : List Binary64)
    (h : (feed token).run ⟨m, ⟨values⟩⟩ = .ok () ⟨m, ⟨left⟩⟩) :
    (feed token).run ⟨m, ⟨values ++ below⟩⟩ = .ok () ⟨m, ⟨left ++ below⟩⟩ := by
  rcases feed_run_ok h with ⟨x, hMeaning, hNext⟩ | ⟨op, x, y, rest, hMeaning, rfl, hNext⟩
  · cases hNext
    exact feed_run_number hMeaning (values ++ below)
  · cases hNext
    exact feed_run_combine hMeaning x y (rest ++ below)

theorem feedAll_run_above {tokens : List String} {values left : List Binary64}
    (below : List Binary64) (h : (feedAll tokens).run ⟨m, ⟨values⟩⟩ = .ok () ⟨m, ⟨left⟩⟩) :
    (feedAll tokens).run ⟨m, ⟨values ++ below⟩⟩ = .ok () ⟨m, ⟨left ++ below⟩⟩ := by
  induction tokens generalizing values with
  | nil =>
    cases h
    rfl
  | cons token tokens ih =>
    rw [feedAll_cons_run] at h ⊢
    cases hFeed : (feed token).run ⟨m, ⟨values⟩⟩ with
    | error fault next => simp [hFeed] at h
    | ok _ next =>
      obtain ⟨middle, rfl⟩ := feed_run_matching hFeed
      rw [feed_run_above below hFeed]
      rw [hFeed] at h
      exact ih h

/-! ## Stacks of one height -/

/-- Both are accepted and leave stacks of one height, or both fail with one error. -/
def Alike (m : Matching) (r r' : EStateM.Result EvalError Evaluator Unit) : Prop :=
  (∃ left left' : List Binary64, left.length = left'.length ∧
    r = .ok () ⟨m, ⟨left⟩⟩ ∧ r' = .ok () ⟨m, ⟨left'⟩⟩) ∨
  ∃ fault next next', r = .error fault next ∧ r' = .error fault next'

variable {values values' : List Binary64}

theorem feed_run_alike (token : String) (h : values.length = values'.length) :
    Alike m ((feed token).run ⟨m, ⟨values⟩⟩) ((feed token).run ⟨m, ⟨values'⟩⟩) := by
  cases hMeaning : Token.meaning m token with
  | number x =>
    exact Or.inl ⟨x :: values, x :: values', by simp [h], feed_run_number hMeaning values,
      feed_run_number hMeaning values'⟩
  | combine op =>
    by_cases hShort : values.length < 2
    · exact Or.inr ⟨_, _, _, feed_run_short hMeaning hShort, feed_run_short hMeaning (h ▸ hShort)⟩
    · rcases values with _ | ⟨x, _ | ⟨y, rest⟩⟩
      · simp at hShort
      · simp at hShort
      · rcases values' with _ | ⟨x', _ | ⟨y', rest'⟩⟩
        · simp at h
        · simp at h
        · exact Or.inl ⟨_, _, by simpa using h, feed_run_combine hMeaning x y rest,
            feed_run_combine hMeaning x' y' rest'⟩
  | unknown =>
    exact Or.inr ⟨_, _, _, feed_run_unknown hMeaning values, feed_run_unknown hMeaning values'⟩

theorem feedAll_run_alike (tokens : List String) (h : values.length = values'.length) :
    Alike m ((feedAll tokens).run ⟨m, ⟨values⟩⟩) ((feedAll tokens).run ⟨m, ⟨values'⟩⟩) := by
  induction tokens generalizing values values' with
  | nil => exact Or.inl ⟨values, values', h, rfl, rfl⟩
  | cons token tokens ih =>
    rw [feedAll_cons_run, feedAll_cons_run]
    rcases feed_run_alike token h with
      ⟨left, left', hLeft, hFeed, hFeed'⟩ | ⟨fault, next, next', hFeed, hFeed'⟩
    · rw [hFeed, hFeed']
      exact ih hLeft
    · rw [hFeed, hFeed']
      exact Or.inr ⟨fault, next, next', rfl, rfl⟩

/-- On a stack of the same height the same token fails with the same error. -/
theorem FailsAt.of_length_eq {tokens : List String} {i : Nat} {fault : EvalError}
    {before next : Evaluator} (h : FailsAt ⟨m, ⟨values⟩⟩ tokens i fault before next)
    (hLength : values.length = values'.length) :
    ∃ before' next', FailsAt ⟨m, ⟨values'⟩⟩ tokens i fault before' next' := by
  obtain ⟨hTake, token, hToken, hFeed⟩ := h
  rcases feedAll_run_alike (tokens.take i) hLength with
    ⟨left, left', hLeft, hRun, hRun'⟩ | ⟨_, _, _, hRun, -⟩
  · rw [hTake] at hRun
    cases hRun
    rcases feed_run_alike token hLeft with ⟨_, _, -, hOk, -⟩ | ⟨fault', _, next', hError, hError'⟩
    · rw [hFeed] at hOk
      cases hOk
    · rw [hFeed] at hError
      cases hError
      exact ⟨_, next', hRun', token, hToken, hError'⟩
  · rw [hTake] at hRun
    cases hRun

/-! ## How many operands are needed -/

/-- The number of operands that tokens of these kinds need to be accepted. An operand supplies one
to the tokens behind it. An operator needs two, and leaves one less to the tokens behind it. -/
def need : List Kind → Nat
  | [] => 0
  | .operand :: ks => need ks - 1
  | .operator :: ks => max 2 (need ks + 1)
  | .unknown :: ks => need ks

/-- Tokens are accepted exactly if none is unknown and there are as many operands as they need. -/
theorem exists_feedAll_run_eq_ok_iff (tokens : List String) (values : List Binary64) :
    (∃ next, (feedAll tokens).run ⟨m, ⟨values⟩⟩ = .ok () next) ↔
      (∀ token ∈ tokens, kind m token ≠ .unknown) ∧ need (kinds m tokens) ≤ values.length := by
  induction tokens generalizing values with
  | nil => exact iff_of_true ⟨_, rfl⟩ ⟨by simp, Nat.zero_le _⟩
  | cons token tokens ih =>
    have hKinds : kinds m (token :: tokens) = kind m token :: kinds m tokens := rfl
    rw [hKinds, feedAll_cons_run, List.forall_mem_cons]
    cases hKind : kind m token with
    | operand =>
      obtain ⟨x, hMeaning⟩ := Token.exists_meaning_eq_number hKind
      rw [feed_run_number hMeaning]
      dsimp only
      rw [ih, List.length_cons, need]
      simp
    | operator =>
      obtain ⟨op, hMeaning⟩ := Token.exists_meaning_eq_combine hKind
      rcases values with _ | ⟨x, _ | ⟨y, rest⟩⟩
      · rw [feed_run_short hMeaning (by simp)]
        simp [need]
      · rw [feed_run_short hMeaning (by simp)]
        simp [need]
      · rw [feed_run_combine hMeaning]
        dsimp only
        rw [ih, need]
        simp
    | unknown =>
      rw [feed_run_unknown (Token.meaning_eq_unknown hKind)]
      simp

/-- **The operands below a run.** For all tokens:

* if they are accepted on a stack, they are accepted with any other operands below it, and these
  stay below what is left;
* whether they are accepted, and otherwise which of them fails with which error, is the same on
  stacks of the same height;
* if none is unknown, they are accepted exactly on the stacks that have as many operands as they
  need, a number that only depends on their kinds. -/
theorem feedAll_frame (m : Matching) (tokens : List String) :
    (∀ below s left : List Binary64,
      (feedAll tokens).run ⟨m, .ofList s⟩ = .ok () ⟨m, .ofList left⟩ →
        (feedAll tokens).run ⟨m, .ofList (below ++ s)⟩ = .ok () ⟨m, .ofList (below ++ left)⟩) ∧
    (∀ s t : Stack, s.size = t.size →
      ((∃ next, (feedAll tokens).run ⟨m, s⟩ = .ok () next) ↔
        ∃ next, (feedAll tokens).run ⟨m, t⟩ = .ok () next) ∧
      ∀ i fault, (∃ before next, FailsAt ⟨m, s⟩ tokens i fault before next) ↔
        ∃ before next, FailsAt ⟨m, t⟩ tokens i fault before next) ∧
    ((∀ token ∈ tokens, kind m token ≠ .unknown) →
      ∀ s : Stack, (∃ next, (feedAll tokens).run ⟨m, s⟩ = .ok () next) ↔
        need (kinds m tokens) ≤ s.size) := by
  refine ⟨?_, ?_, ?_⟩
  · intro below s left h
    rw [Stack.ofList, Stack.ofList, List.reverse_append, List.reverse_append]
    exact feedAll_run_above below.reverse h
  · intro s t hSize
    refine ⟨?_, fun i fault => ⟨?_, ?_⟩⟩
    · rw [exists_feedAll_run_eq_ok_iff, exists_feedAll_run_eq_ok_iff]
      rw [Stack.size, Stack.size] at hSize
      rw [hSize]
    · rintro ⟨before, next, h⟩
      exact h.of_length_eq hSize
    · rintro ⟨before, next, h⟩
      exact h.of_length_eq hSize.symm
  · intro hKnown s
    rw [exists_feedAll_run_eq_ok_iff]
    exact and_iff_right hKnown

/-- An operator first, on two operands, on three and on one. -/
theorem feedAll_frame_operator_first :
    let one : Binary64 := ⟨false, 0x3ff0000000000000, by decide⟩
    let two : Binary64 := ⟨false, 0x4000000000000000, by decide⟩
    let three : Binary64 := ⟨false, 0x4008000000000000, by decide⟩
    (feedAll ["+", "3"]).run ⟨.exact, .ofList [one, two]⟩ =
        .ok () ⟨.exact, .ofList [three, three]⟩ ∧
      (feedAll ["+", "3"]).run ⟨.exact, .ofList [two, one, two]⟩ =
        .ok () ⟨.exact, .ofList [two, three, three]⟩ ∧
      (Stack.ofList [one]).size = (Stack.ofList [two]).size ∧
      ((∃ before next, FailsAt ⟨.exact, .ofList [one]⟩ ["+", "3"] 0 .tooFewOperands before next) ↔
        ∃ before next, FailsAt ⟨.exact, .ofList [two]⟩ ["+", "3"] 0 .tooFewOperands before next) ∧
      (∀ token ∈ ["+", "3"], kind .exact token ≠ .unknown) ∧
      need (kinds .exact ["+", "3"]) = 2 ∧
      ¬ ∃ next, (feedAll ["+", "3"]).run ⟨.exact, .ofList [one]⟩ = .ok () next := by
  intro one two three
  have hPlus : Token.meaning .exact "+" = .combine .add := by decide +kernel
  have hThree : Token.meaning .exact "3" = .number three := by decide +kernel
  have hSum : Operator.add.apply two one = three := by decide +kernel
  have hRun : (feedAll ["+", "3"]).run ⟨.exact, .ofList [one, two]⟩ =
      .ok () ⟨.exact, .ofList [three, three]⟩ := by
    show (feedAll ["+", "3"]).run ⟨.exact, ⟨[two, one]⟩⟩ = _
    rw [feedAll_cons_run, feed_run_combine hPlus, hSum]
    dsimp only
    rw [feedAll_singleton_run, feed_run_number hThree]
    rfl
  have hKnown : ∀ token ∈ ["+", "3"], kind .exact token ≠ .unknown := by decide +kernel
  have hNeed : need (kinds .exact ["+", "3"]) = 2 := by decide +kernel
  obtain ⟨hAbove, hHeight, hEnough⟩ := feedAll_frame .exact ["+", "3"]
  have hSize : (Stack.ofList [one]).size = (Stack.ofList [two]).size := rfl
  refine ⟨hRun, hAbove [two] [one, two] [three, three] hRun, hSize, (hHeight _ _ hSize).2 _ _,
    hKnown, hNeed, ?_⟩
  rw [hEnough hKnown, hNeed]
  decide

end ReversePolish.Evaluator
