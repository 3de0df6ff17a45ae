import ReversePolish.Evaluator.Script
import ReversePolish.Proofs.Evaluator.Outcome

/-!
# What a failure leaves behind

A failure is not undone, and what it leaves depends on what has failed. An operator is looked up
before any operand is taken, so an unknown one leaves everything as it was; an operator with too few
operands has taken all there were; taking the result from several operands has removed the top one.

* `operator_run_error`, `feed_run_error`: all ways in which one token fails.
* `FailsAt`, `feedAll_run_error_iff`: a run of tokens fails if one of them does, on the evaluator
  that the tokens before it have left.
* `perform_tooFewOperands`: the stack is empty after every call that finds too few operands. For an
  expression this is the failure of one of its tokens or of taking its result.
* `perform_leaves`: what every call leaves, on every stack.
-/

namespace ReversePolish.Evaluator

variable {α : Type} {m : Matching} {e next : Evaluator} {fault : EvalError}

/-! ## One token -/

theorem operator_run_ok {token : String} {values : List Binary64}
    (h : (operator token).run ⟨m, ⟨values⟩⟩ = .ok () next) :
    ∃ op right left below, Operator.lookup? m token = some op ∧ values = right :: left :: below ∧
      next = ⟨m, ⟨op.apply right left :: below⟩⟩ := by
  rw [operator_run] at h
  cases hLookup : Operator.lookup? m token with
  | none => simp [hLookup] at h
  | some op =>
    rcases values with _ | ⟨right, _ | ⟨left, below⟩⟩
    · simp [hLookup] at h
    · simp [hLookup] at h
    · simp only [hLookup, EStateM.Result.ok.injEq, true_and] at h
      exact ⟨op, right, left, below, rfl, rfl, h.symm⟩

/-- An operator is unknown and nothing is taken, or all of too few operands are taken. -/
theorem operator_run_error {token : String} {values : List Binary64}
    (h : (operator token).run ⟨m, ⟨values⟩⟩ = .error fault next) :
    (Operator.lookup? m token = none ∧ fault = .unknownOperator token ∧ next = ⟨m, ⟨values⟩⟩) ∨
      ((Operator.lookup? m token).isSome ∧ values.length < 2 ∧ fault = .tooFewOperands ∧
        next = ⟨m, .empty⟩) := by
  rw [operator_run] at h
  cases hLookup : Operator.lookup? m token with
  | none =>
    simp only [hLookup, EStateM.Result.error.injEq] at h
    exact Or.inl ⟨rfl, h.1.symm, h.2.symm⟩
  | some op =>
    rcases values with _ | ⟨right, _ | ⟨left, below⟩⟩
    · simp only [hLookup, EStateM.Result.error.injEq] at h
      exact Or.inr ⟨rfl, by simp, h.1.symm, h.2.symm⟩
    · simp only [hLookup, EStateM.Result.error.injEq] at h
      exact Or.inr ⟨rfl, by simp, h.1.symm, h.2.symm⟩
    · simp [hLookup] at h

/-- A token that is no numeral is fed to the operators. -/
theorem feed_run_of_no_numeral {token : String} (h : Numeral.scan? token = none) (e : Evaluator) :
    (feed token).run e = (operator token).run e := by
  rw [feed, Token.classify, Token.value?_eq_none h]

/-- Only operators fail. -/
theorem operator_run_of_feed_run_error {token : String}
    (h : (feed token).run e = .error fault next) : (operator token).run e = .error fault next := by
  rw [feed, Token.classify] at h
  cases hValue : Token.value? token with
  | some x =>
    rw [hValue] at h
    cases h
  | none =>
    rw [hValue] at h
    exact h

theorem feed_run_error {token : String} {values : List Binary64}
    (h : (feed token).run ⟨m, ⟨values⟩⟩ = .error fault next) :
    (fault = .unknownOperator token ∧ next = ⟨m, ⟨values⟩⟩) ∨
      (fault = .tooFewOperands ∧ next = ⟨m, .empty⟩) := by
  rcases operator_run_error (operator_run_of_feed_run_error h) with
    ⟨-, hFault, hNext⟩ | ⟨-, -, hFault, hNext⟩
  · exact Or.inl ⟨hFault, hNext⟩
  · exact Or.inr ⟨hFault, hNext⟩

/-! ## Several tokens -/

/-- The token at place `i` fails. The tokens before it are accepted and lead from `e` to `before`;
feeding it to `before` fails and leaves `next`. -/
structure FailsAt (e : Evaluator) (tokens : List String) (i : Nat) (fault : EvalError)
    (before next : Evaluator) : Prop where
  run_take : (feedAll (tokens.take i)).run e = .ok () before
  run_token : ∃ token, tokens[i]? = some token ∧ (feed token).run before = .error fault next

/-- A run fails if one of its tokens does. -/
theorem feedAll_run_error_iff {tokens : List String} :
    (feedAll tokens).run e = .error fault next ↔
      ∃ i before, FailsAt e tokens i fault before next := by
  constructor
  · intro h
    -- from the left: a token that is accepted moves the failure by one place
    induction tokens generalizing e with
    | nil => cases h
    | cons token tokens ih =>
      rw [feedAll_cons_run] at h
      cases hFeed : (feed token).run e with
      | error fault left =>
        rw [hFeed] at h
        exact ⟨0, e, rfl, token, rfl, hFeed.trans h⟩
      | ok _ middle =>
        rw [hFeed] at h
        obtain ⟨i, before, hTake, hToken⟩ := ih h
        refine ⟨i + 1, before, ?_, by simpa using hToken⟩
        rw [List.take_succ_cons, feedAll_cons_run, hFeed]
        exact hTake
  · rintro ⟨i, before, hTake, token, hToken, hFeed⟩
    rw [feedAll_run_split hToken hTake, feedAll_cons_run, hFeed]

theorem feedAll_run_tooFewOperands {tokens : List String}
    (h : (feedAll tokens).run e = .error .tooFewOperands next) : next.stack = .empty := by
  obtain ⟨i, ⟨m, ⟨values⟩⟩, -, token, -, hFeed⟩ := feedAll_run_error_iff.mp h
  rcases feed_run_error hFeed with ⟨hFault, -⟩ | ⟨-, rfl⟩
  · cases hFault
  · rfl

/-! ## The result -/

theorem result_run_ok {x : Binary64} (h : result.run e = .ok x next) :
    e.stack = .ofList [x] ∧ next.stack = .empty := by
  obtain ⟨m, ⟨values⟩⟩ := e
  rw [result_run] at h
  rcases values with _ | ⟨x, _ | ⟨y, below⟩⟩
  · cases h
  · cases h
    exact ⟨rfl, rfl⟩
  · cases h

/-- Either there is no operand, or there are several and the top one is removed. -/
theorem result_run_error (h : result.run e = .error fault next) :
    (fault = .tooFewOperands ∧ e.stack = .empty ∧ next = e) ∨
      (fault = .tooManyOperands ∧ 2 ≤ e.stack.size ∧ ∃ top, e.stack = next.stack.push top) := by
  obtain ⟨m, ⟨values⟩⟩ := e
  rw [result_run] at h
  rcases values with _ | ⟨x, _ | ⟨y, below⟩⟩
  · cases h
    exact Or.inl ⟨rfl, rfl, rfl⟩
  · cases h
  · cases h
    exact Or.inr ⟨rfl, by simp [Stack.size], x, rfl⟩

theorem result_run_tooFewOperands (h : result.run e = .error .tooFewOperands next) :
    next.stack = .empty := by
  rcases result_run_error h with ⟨-, hEmpty, rfl⟩ | ⟨hFault, -⟩
  · exact hEmpty
  · cases hFault

theorem expression_run_ok {text : String} {x : Binary64}
    (h : (expression text).run e = .ok x next) : next.stack = .empty := by
  rw [expression_run] at h
  cases hTokens : (feedAll (Text.pieces text)).run e with
  | error fault left => simp [hTokens] at h
  | ok _ left =>
    rw [hTokens] at h
    exact (result_run_ok h).2

/-- An expression fails at one of its tokens or at taking its result. -/
theorem expression_run_error {text : String} (h : (expression text).run e = .error fault next) :
    (feedAll (Text.pieces text)).run e = .error fault next ∨
      ∃ left, result.run left = .error fault next := by
  rw [expression_run] at h
  cases hTokens : (feedAll (Text.pieces text)).run e with
  | error fault left =>
    rw [hTokens] at h
    cases h
    exact Or.inl rfl
  | ok _ left =>
    rw [hTokens] at h
    exact Or.inr ⟨left, h⟩

/-- An expression fails at an unknown operator exactly if one of its tokens does, and leaves what the
tokens before that one have left. -/
theorem expression_run_unknown_iff {text token : String} :
    (expression text).run e = .error (.unknownOperator token) next ↔
      ∃ i, FailsAt e (Text.pieces text) i (.unknownOperator token) next next := by
  constructor
  · intro h
    rcases expression_run_error h with hTokens | ⟨left, hResult⟩
    · obtain ⟨i, ⟨m, ⟨values⟩⟩, hFails⟩ := feedAll_run_error_iff.mp hTokens
      obtain ⟨other, -, hFeed⟩ := hFails.run_token
      rcases feed_run_error hFeed with ⟨-, rfl⟩ | ⟨hFault, -⟩
      · exact ⟨i, hFails⟩
      · cases hFault
    · rcases result_run_error hResult with ⟨hFault, -⟩ | ⟨hFault, -⟩
      · cases hFault
      · cases hFault
  · rintro ⟨i, hFails⟩
    rw [expression_run, feedAll_run_error_iff.mpr ⟨i, next, hFails⟩]

/-! ## Calls -/

theorem answerOf_eq_fault_iff {onValue : α → Answer} {r : EStateM.Result EvalError Evaluator α}
    (hValue : ∀ a, onValue a ≠ .fault fault) :
    answerOf onValue r = (.fault fault, next) ↔ r = .error fault next := by
  cases r with
  | ok a left => simp [answerOf, hValue a]
  | error other left => simp [answerOf]

/-- A call fails where the calculation that it makes does. -/
theorem perform_eq_fault_iff {step : Step} :
    e.perform step = (.fault fault, next) ↔
      match step with
      | .feed token => (feed token).run e = .error fault next
      | .operator token => (operator token).run e = .error fault next
      | .expression text => (expression text).run e = .error fault next
      | .result => result.run e = .error fault next
      | _ => False := by
  cases step with
  | feed token => exact answerOf_eq_fault_iff (by simp)
  | operand x => simp [perform, operand_run, answerOf]
  | operator token => exact answerOf_eq_fault_iff (by simp)
  | expression text => exact answerOf_eq_fault_iff (by simp)
  | result => exact answerOf_eq_fault_iff (by simp)
  | reset => simp [perform]
  | matching => simp [perform]
  | display => simp [perform]

/-- Whatever finds too few operands has taken all there were. -/
theorem perform_tooFewOperands {step : Step}
    (h : e.perform step = (.fault .tooFewOperands, next)) : next.stack = .empty := by
  have hFault := perform_eq_fault_iff.mp h
  cases step with
  | feed token =>
    have hRun : (feedAll [token]).run e = .error .tooFewOperands next :=
      (feedAll_singleton_run token e).trans hFault
    exact feedAll_run_tooFewOperands hRun
  | operator token =>
    obtain ⟨m, ⟨values⟩⟩ := e
    rcases operator_run_error hFault with ⟨-, hOther, -⟩ | ⟨-, -, -, rfl⟩
    · cases hOther
    · rfl
  | expression text =>
    rcases expression_run_error hFault with hTokens | ⟨left, hResult⟩
    · exact feedAll_run_tooFewOperands hTokens
    · exact result_run_tooFewOperands hResult
  | result => exact result_run_tooFewOperands hFault
  | operand x => exact hFault.elim
  | reset => exact hFault.elim
  | matching => exact hFault.elim
  | display => exact hFault.elim

theorem perform_unknownOperator {step : Step} {token other : String}
    (hStep : step = .feed token ∨ step = .operator token)
    (h : e.perform step = (.fault (.unknownOperator other), next)) :
    other = token ∧ next = e := by
  have hFault := perform_eq_fault_iff.mp h
  have hRun : (operator token).run e = .error (.unknownOperator other) next := by
    rcases hStep with rfl | rfl
    · exact operator_run_of_feed_run_error hFault
    · exact hFault
  obtain ⟨m, ⟨values⟩⟩ := e
  rcases operator_run_error hRun with ⟨-, hOther, rfl⟩ | ⟨-, -, hOther, -⟩
  · exact ⟨EvalError.unknownOperator.inj hOther, rfl⟩
  · cases hOther

theorem perform_operator_tooFewOperands_iff (e : Evaluator) (token : String) :
    (e.perform (.operator token)).1 = .fault .tooFewOperands ↔
      (Operator.lookup? e.matching token).isSome ∧ e.stack.size < 2 := by
  constructor
  · intro h
    have hFault := perform_eq_fault_iff.mp (Prod.fst_eq_iff.mp h)
    obtain ⟨m, ⟨values⟩⟩ := e
    rcases operator_run_error hFault with ⟨-, hOther, -⟩ | ⟨hLookup, hShort, -, -⟩
    · cases hOther
    · exact ⟨hLookup, hShort⟩
  · rintro ⟨hLookup, hShort⟩
    obtain ⟨op, hOp⟩ := Option.isSome_iff_exists.mp hLookup
    obtain ⟨m, ⟨values⟩⟩ := e
    rw [perform, operator_run, hOp]
    rcases values with _ | ⟨right, _ | ⟨left, below⟩⟩
    · rfl
    · rfl
    · simp only [Stack.size, List.length_cons] at hShort
      omega

theorem perform_result_tooFewOperands_iff (e : Evaluator) :
    (e.perform .result).1 = .fault .tooFewOperands ↔ e.stack.size = 0 := by
  obtain ⟨m, ⟨values⟩⟩ := e
  rw [perform, result_run]
  rcases values with _ | ⟨x, _ | ⟨y, below⟩⟩ <;> simp [answerOf, Stack.size]

theorem perform_result_tooManyOperands_iff (e : Evaluator) :
    (e.perform .result).1 = .fault .tooManyOperands ↔ 2 ≤ e.stack.size := by
  obtain ⟨m, ⟨values⟩⟩ := e
  rw [perform, result_run]
  rcases values with _ | ⟨x, _ | ⟨y, below⟩⟩ <;> simp [answerOf, Stack.size]

/-- Only the top operand is removed. -/
theorem perform_result_tooManyOperands
    (h : e.perform .result = (.fault .tooManyOperands, next)) :
    ∃ top, e.stack = next.stack.push top := by
  rcases result_run_error (perform_eq_fault_iff.mp h) with ⟨hFault, -⟩ | ⟨-, -, hTop⟩
  · cases hFault
  · exact hTop

/-- An operator that is applied replaces the two top operands, and nothing below them. -/
theorem perform_operator_done {step : Step} {token : String}
    (hStep : step = .operator token ∨ (step = .feed token ∧ Numeral.scan? token = none))
    (h : e.perform step = (.done, next)) :
    ∃ (op : Operator) (right left : Binary64) (below : Stack),
      Operator.lookup? e.matching token = some op ∧
        e.stack = (below.push left).push right ∧ next.stack = below.push (op.apply right left) := by
  have hDone : answerOf (fun _ => Answer.done) ((operator token).run e) = (.done, next) := by
    rcases hStep with rfl | ⟨rfl, hScan⟩
    · exact h
    · rw [← feed_run_of_no_numeral hScan]
      exact h
  obtain ⟨m, ⟨values⟩⟩ := e
  cases hRun : (operator token).run ⟨m, ⟨values⟩⟩ with
  | error fault left => simp [hRun, answerOf] at hDone
  | ok _ left =>
    simp only [hRun, answerOf, Prod.mk.injEq, true_and] at hDone
    subst hDone
    obtain ⟨op, right, left, below, hLookup, rfl, rfl⟩ := operator_run_ok hRun
    exact ⟨op, right, left, ⟨below⟩, hLookup, rfl, rfl⟩

/-! ## The way of matching -/

theorem snd_answerOf (onValue : α → Answer) (r : EStateM.Result EvalError Evaluator α) :
    (answerOf onValue r).2 = leftBy r := by
  cases r <;> rfl

theorem matching_operator (token : String) (e : Evaluator) :
    (leftBy ((operator token).run e)).matching = e.matching := by
  obtain ⟨m, ⟨values⟩⟩ := e
  cases hRun : (operator token).run ⟨m, ⟨values⟩⟩ with
  | ok _ next =>
    obtain ⟨op, right, left, below, -, -, rfl⟩ := operator_run_ok hRun
    rfl
  | error fault next =>
    rcases operator_run_error hRun with ⟨-, -, rfl⟩ | ⟨-, -, -, rfl⟩
    · rfl
    · rfl

theorem matching_result (e : Evaluator) : (leftBy (result.run e)).matching = e.matching := by
  obtain ⟨m, ⟨values⟩⟩ := e
  rcases values with _ | ⟨x, _ | ⟨y, below⟩⟩ <;> rfl

theorem matching_expression (text : String) (e : Evaluator) :
    (leftBy ((expression text).run e)).matching = e.matching := by
  have hTokens := matching_feedAll (Text.pieces text) e
  rw [expression_run]
  cases hRun : (feedAll (Text.pieces text)).run e with
  | ok _ next =>
    rw [hRun] at hTokens
    exact (matching_result next).trans hTokens
  | error fault next =>
    rw [hRun] at hTokens
    exact hTokens

/-- No call changes the way in which operators are matched. -/
theorem matching_perform (e : Evaluator) (step : Step) :
    (e.perform step).2.matching = e.matching := by
  cases step with
  | feed token => exact (congrArg matching (snd_answerOf _ _)).trans (matching_feed token e)
  | operand x => rfl
  | operator token => exact (congrArg matching (snd_answerOf _ _)).trans (matching_operator token e)
  | expression text => exact (congrArg matching (snd_answerOf _ _)).trans (matching_expression text e)
  | result => exact (congrArg matching (snd_answerOf _ _)).trans (matching_result e)
  | reset => rfl
  | matching => rfl
  | display => rfl

/-! ## All calls -/

/-- **What a call leaves.** On every evaluator, whatever calls have led to it:

* a token or an operator that is unknown leaves everything as it was;
* every call that finds too few operands leaves the empty stack. An operator does so if it is known
  and there are fewer than two operands, taking the result if there is none;
* taking the result finds too many operands if there are two or more, and removes the top one;
* an operator that is applied replaces the two top operands and nothing below them;
* an expression fails at an unknown operator if one of its tokens does, and leaves what the tokens
  before that one have left;
* the way of matching stays. -/
theorem perform_leaves (e : Evaluator) :
    (∀ step token other next, step = .feed token ∨ step = .operator token →
      e.perform step = (.fault (.unknownOperator other), next) → other = token ∧ next = e) ∧
    (∀ step next, e.perform step = (.fault .tooFewOperands, next) → next.stack = .empty) ∧
    (∀ token, (e.perform (.operator token)).1 = .fault .tooFewOperands ↔
      (Operator.lookup? e.matching token).isSome ∧ e.stack.size < 2) ∧
    ((e.perform .result).1 = .fault .tooFewOperands ↔ e.stack.size = 0) ∧
    ((e.perform .result).1 = .fault .tooManyOperands ↔ 2 ≤ e.stack.size) ∧
    (∀ next, e.perform .result = (.fault .tooManyOperands, next) →
      ∃ top, e.stack = next.stack.push top) ∧
    (∀ step token next, step = .operator token ∨ (step = .feed token ∧ Numeral.scan? token = none) →
      e.perform step = (.done, next) →
      ∃ (op : Operator) (right left : Binary64) (below : Stack),
        Operator.lookup? e.matching token = some op ∧
          e.stack = (below.push left).push right ∧
          next.stack = below.push (op.apply right left)) ∧
    (∀ text token next, e.perform (.expression text) = (.fault (.unknownOperator token), next) ↔
      ∃ i, FailsAt e (Text.pieces text) i (.unknownOperator token) next next) ∧
    ∀ step, (e.perform step).2.matching = e.matching := by
  refine ⟨fun _ _ _ _ => perform_unknownOperator, fun _ _ => perform_tooFewOperands,
    perform_operator_tooFewOperands_iff e, perform_result_tooFewOperands_iff e,
    perform_result_tooManyOperands_iff e, fun _ => perform_result_tooManyOperands,
    fun _ _ _ => perform_operator_done, ?_, matching_perform e⟩
  intro text token next
  rw [perform_eq_fault_iff]
  exact expression_run_unknown_iff

/-- Every sort of failure, and an operator that is applied, after two expressions that have failed.
The second one has failed at its unknown operator, so its operands are still there. -/
theorem perform_leaves_after_failures :
    let one : Binary64 := ⟨false, 0x3ff0000000000000, by decide⟩
    let two : Binary64 := ⟨false, 0x4000000000000000, by decide⟩
    let e := (((fresh .exact).perform (.expression "1 +")).2.perform (.expression "1 2 ^")).2
    e.stack = .ofList [one, two] ∧
      e.perform (.feed "x") = (.fault (.unknownOperator "x"), e) ∧
      (e.perform (.expression "+ +")).1 = .fault .tooFewOperands ∧
      (e.perform (.expression "+ +")).2.stack = .empty ∧
      (e.perform .result).1 = .fault .tooManyOperands ∧
      (∃ top, e.stack = (e.perform .result).2.stack.push top) ∧
      (e.perform (.operator "+")).1 = .done ∧
      ∃ (op : Operator) (right left : Binary64) (below : Stack),
        Operator.lookup? .exact "+" = some op ∧ e.stack = (below.push left).push right ∧
          (e.perform (.operator "+")).2.stack = below.push (op.apply right left) := by
  intro one two e
  obtain ⟨hUnknown, hFew, -, -, hMany, hTop, hDone, -⟩ := perform_leaves e
  have hFeed : (e.perform (.feed "x")).1 = .fault (.unknownOperator "x") := by decide +kernel
  have hExpression : (e.perform (.expression "+ +")).1 = .fault .tooFewOperands := by
    decide +kernel
  have hOperator : (e.perform (.operator "+")).1 = .done := by decide +kernel
  have hResult := hMany.mpr (by decide +kernel)
  have hLeft := (hUnknown _ "x" "x" _ (Or.inl rfl) (Prod.fst_eq_iff.mp hFeed)).2
  refine ⟨by decide +kernel, Prod.ext hFeed hLeft, hExpression, ?_, hResult, ?_, hOperator, ?_⟩
  · exact hFew _ _ (Prod.fst_eq_iff.mp hExpression)
  · exact hTop _ (Prod.fst_eq_iff.mp hResult)
  · exact hDone _ "+" _ (Or.inl rfl) (Prod.fst_eq_iff.mp hOperator)

end ReversePolish.Evaluator
