import ReversePolish.Proofs.Evaluator.Failure

/-!
# What an evaluator forgets

An evaluator is its way of matching and its stack, and the way of matching never changes. So where
the stack is empty nothing is left of the calls that were made, and from there on every script has
the answers and the stacks that it has on a fresh evaluator.

* `performAll_append`: a script is continued on the evaluator that its first part leaves.
* `Renews`, `perform_eq_fresh`: the calls that leave a fresh evaluator. Besides a reset these are
  the calls that answer with a value, which was the last operand, and those that find too few
  operands.
* `performAll_renewed`: what follows such a call does not depend on what was before it.
-/

namespace ReversePolish.Evaluator

variable {e next : Evaluator}

/-! ## Scripts in two parts -/

/-- The evaluator that a script leaves. -/
def after (e : Evaluator) (script : List Step) : Evaluator :=
  script.foldl (fun e step => (e.perform step).2) e

theorem after_cons (e : Evaluator) (step : Step) (script : List Step) :
    e.after (step :: script) = (e.perform step).2.after script := rfl

theorem performAll_cons (e : Evaluator) (step : Step) (script : List Step) :
    e.performAll (step :: script) = e.perform step :: (e.perform step).2.performAll script := rfl

theorem performAll_append (e : Evaluator) (first second : List Step) :
    e.performAll (first ++ second) = e.performAll first ++ (e.after first).performAll second := by
  induction first generalizing e with
  | nil => rfl
  | cons step first ih =>
    rw [List.cons_append, performAll_cons, performAll_cons, ih, after_cons, List.cons_append]

theorem matching_after (e : Evaluator) (script : List Step) :
    (e.after script).matching = e.matching := by
  induction script generalizing e with
  | nil => rfl
  | cons step script ih => rw [after_cons, ih, matching_perform]

/-! ## Calls that leave a fresh evaluator -/

/-- The call is a reset, or it answers with a value or with too few operands. -/
def Renews (step : Step) (answer : Answer) : Prop :=
  step = .reset ∨ (∃ x, answer = .value x) ∨ answer = .fault .tooFewOperands

theorem answerOf_eq_value {r : EStateM.Result EvalError Evaluator Binary64} {x : Binary64}
    (h : answerOf .value r = (.value x, next)) : r = .ok x next := by
  cases r with
  | ok y left =>
    cases h
    rfl
  | error fault left => cases h

/-- A value that is answered was the last operand. -/
theorem perform_value {step : Step} {x : Binary64} (h : e.perform step = (.value x, next)) :
    next.stack = .empty := by
  cases step with
  | feed token =>
    rw [perform] at h
    cases hRun : (feed token).run e <;> simp [hRun, answerOf] at h
  | operand y => simp [perform, operand_run, answerOf] at h
  | operator token =>
    rw [perform] at h
    cases hRun : (operator token).run e <;> simp [hRun, answerOf] at h
  | expression text => exact expression_run_ok (answerOf_eq_value h)
  | result => exact (result_run_ok (answerOf_eq_value h)).2
  | reset => simp [perform] at h
  | matching => simp [perform] at h
  | display => simp [perform] at h

theorem eq_fresh_of_stack_eq {m : Matching} (hMatching : e.matching = m)
    (hStack : e.stack = .empty) : e = fresh m := by
  cases e
  cases hMatching
  cases hStack
  rfl

theorem perform_eq_fresh {step : Step} (h : Renews step (e.perform step).1) :
    (e.perform step).2 = fresh e.matching := by
  apply eq_fresh_of_stack_eq (matching_perform e step)
  rcases h with rfl | ⟨x, hValue⟩ | hFew
  · rfl
  · exact perform_value (Prod.fst_eq_iff.mp hValue)
  · exact perform_tooFewOperands (Prod.fst_eq_iff.mp hFew)

/-- **Nothing is left of earlier evaluations.** For an evaluator that has taken over any stack and
has made any calls, failing ones among them:

* what was on the stack that it has taken over does not matter;
* after a reset, after a value that was answered and after a failure with too few operands, every
  script has the answers and the stacks that it has on a fresh evaluator;
* so an expression after another one that has a value, or has too few operands, is evaluated as on a
  fresh evaluator. -/
theorem performAll_renewed (m : Matching) (supplied : Stack) (history : List Step) :
    (∀ later, (ofStack m supplied).performAll later = (fresh m).performAll later) ∧
    (∀ step later, Renews step (((ofStack m supplied).after history).perform step).1 →
      (ofStack m supplied).performAll (history ++ step :: later) =
        (ofStack m supplied).performAll (history ++ [step]) ++ (fresh m).performAll later) ∧
    ∀ first second,
      let e := (ofStack m supplied).after history
      Renews (.expression first) (e.perform (.expression first)).1 →
        (e.perform (.expression first)).2.perform (.expression second) =
          (fresh m).perform (.expression second) := by
  have hMatching : ((ofStack m supplied).after history).matching = m := matching_after _ history
  refine ⟨fun _ => rfl, ?_, ?_⟩
  · intro step later hRenews
    have hFresh := perform_eq_fresh hRenews
    rw [hMatching] at hFresh
    rw [List.append_cons, performAll_append _ (history ++ [step])]
    congr 2
    rw [← hFresh, after, List.foldl_append]
    rfl
  · intro first second e hRenews
    rw [perform_eq_fresh hRenews, hMatching]

/-- The operand that is taken over is dropped, and of three tokens the unknown one changes nothing. The
first expression uses up the other two and has too few operands; the second one is evaluated on a
fresh stack, and its operator is still matched loosely. -/
theorem performAll_renewed_two_expressions :
    let supplied : Stack := .ofList [⟨true, 0, by decide⟩]
    let history : List Step := [.feed "2", .operator "%", .feed "3"]
    let later : List Step := [.expression "6 7 a*b", .result]
    let e := (ofStack .loose supplied).after history
    e.stack.size = 2 ∧
      (e.perform (.expression "+ 1 x-y -")).1 = .fault .tooFewOperands ∧
      (ofStack .loose supplied).performAll (history ++ .expression "+ 1 x-y -" :: later) =
        (ofStack .loose supplied).performAll (history ++ [.expression "+ 1 x-y -"]) ++
          (fresh .loose).performAll later ∧
      (e.perform (.expression "+ 1 x-y -")).2.perform (.expression "6 7 a*b") =
        (fresh .loose).perform (.expression "6 7 a*b") := by
  intro supplied history later e
  have hFew : (e.perform (.expression "+ 1 x-y -")).1 = .fault .tooFewOperands := by
    decide +kernel
  have hRenews : Renews (.expression "+ 1 x-y -") (e.perform (.expression "+ 1 x-y -")).1 :=
    Or.inr (Or.inr hFew)
  obtain ⟨-, hScript, hExpression⟩ := performAll_renewed .loose supplied history
  exact ⟨by decide +kernel, hFew, hScript _ later hRenews, hExpression _ _ hRenews⟩

end ReversePolish.Evaluator
