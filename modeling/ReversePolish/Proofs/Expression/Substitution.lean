import ReversePolish.Proofs.Expression.Tree
import ReversePolish.Proofs.Stack.Display

/-!
# An expression in place of its value

An expression with a finite value and the text of that value can stand for each other wherever
single spaces separate them from the rest: the value or the error is the same, and so is the stack
that is left. What stands around them is any text. It may fail before they are reached, use what was
on the stack before, or need more operands than there are.

* `Expression.feedAll_run_tokens`: the listing of a tree pushes the value of the tree, and nothing
  below is touched.
* `feedAll_run_congr`: tokens that do the same on every stack do the same between other tokens.
-/

namespace ReversePolish

open Evaluator (feedAll feedAll_append_run feedAll_singleton_run feed_run_number feed_run_combine)

/-- The text between two others, each of which may be absent. -/
def Text.surrounded (before : Option String) (middle : String) (after : Option String) : String :=
  before.elim "" (· ++ " ") ++ middle ++ after.elim "" (" " ++ ·)

theorem Text.pieces_append_after (text : String) (after : Option String) :
    pieces (text ++ after.elim "" (" " ++ ·)) = pieces text ++ after.elim [] pieces := by
  cases after with
  | none => simp
  | some after =>
    rw [Option.elim_some, ← String.append_assoc, pieces_append_space, Option.elim_some]

theorem Text.pieces_surrounded (before : Option String) (middle : String) (after : Option String) :
    pieces (surrounded before middle after) =
      before.elim [] pieces ++ (pieces middle ++ after.elim [] pieces) := by
  rw [surrounded, pieces_append_after]
  cases before with
  | none => simp
  | some before => simp [pieces_append_space]

theorem Expression.feedAll_run_tokens {m : Matching} (t : Expression m) (values : List Binary64) :
    (feedAll t.tokens).run ⟨m, ⟨values⟩⟩ = .ok () ⟨m, ⟨t.value :: values⟩⟩ := by
  induction t generalizing values with
  | leaf l => rw [tokens, feedAll_singleton_run, feed_run_number (l.meaning_token m), value]
  | node j left right ihLeft ihRight =>
    rw [tokens, feedAll_append_run, ihLeft]
    dsimp only
    rw [feedAll_append_run, ihRight]
    dsimp only
    rw [feedAll_singleton_run, feed_run_combine j.meaning_token, value]

namespace Evaluator

variable {m : Matching}

theorem feedAll_run_congr {middle middle' : List String}
    (hSame : ∀ values,
      (feedAll middle).run ⟨m, ⟨values⟩⟩ = (feedAll middle').run ⟨m, ⟨values⟩⟩)
    (before after : List String) (values : List Binary64) :
    (feedAll (before ++ (middle ++ after))).run ⟨m, ⟨values⟩⟩ =
      (feedAll (before ++ (middle' ++ after))).run ⟨m, ⟨values⟩⟩ := by
  rw [feedAll_append_run before, feedAll_append_run before]
  cases hBefore : (feedAll before).run ⟨m, ⟨values⟩⟩ with
  | error fault left => rfl
  | ok _ next =>
    obtain ⟨left, rfl⟩ := feedAll_run_matching hBefore
    dsimp only
    rw [feedAll_append_run middle, feedAll_append_run middle', hSame]

/-- **An expression in place of its value.** From every state of the evaluator and with any texts
around them, an expression with a finite value and the text of that value lead to the same result or
the same error, and leave the same evaluator. -/
theorem expression_run_value {e : Evaluator} {sub : String} {v : Binary64}
    (hSub : evaluate e.matching sub = .ok v) (hFinite : v.isFinite = true)
    (before after : Option String) :
    (expression (Text.surrounded before sub after)).run e =
      (expression (Text.surrounded before v.text after)).run e := by
  obtain ⟨m, stack⟩ := e
  obtain ⟨t, hTokens⟩ := Expression.exists_tokens_eq_of_evaluate hSub
  have hValue : v = t.value :=
    Except.ok.inj (hSub.symm.trans (Expression.evaluate_of_tokens_eq hTokens))
  have hText : Text.pieces v.text = [v.text] := by
    apply Text.pieces_of_space_not_mem
    intro hSpace
    exact Binary64.padding_not_mem_text hFinite ' ' hSpace (by decide)
  -- both push the value, on whatever the text before has left
  have hSame (values : List Binary64) : (feedAll (Text.pieces sub)).run ⟨m, ⟨values⟩⟩ =
      (feedAll (Text.pieces v.text)).run ⟨m, ⟨values⟩⟩ := by
    rw [← hTokens, t.feedAll_run_tokens, hText, feedAll_singleton_run,
      feed_run_number (Token.meaning_text hFinite m), hValue]
  rw [expression_run, expression_run, Text.pieces_surrounded, Text.pieces_surrounded,
    feedAll_run_congr hSame]

/-- A negative zero as a divisor, matched loosely. Its sign counts, and the addition behind it has
too few operands. -/
theorem expression_run_value_negative_zero :
    let v : Binary64 := ⟨true, 0, by decide⟩
    evaluate .loose "-1 0 *" = .ok v ∧ v.isFinite = true ∧
      (expression (Text.surrounded (some "1") "-1 0 *" (some "/ a+b"))).run (fresh .loose) =
        (expression (Text.surrounded (some "1") v.text (some "/ a+b"))).run (fresh .loose) := by
  intro v
  have hSub : evaluate .loose "-1 0 *" = .ok v := by decide +kernel
  have hFinite : v.isFinite = true := by decide
  exact ⟨hSub, hFinite, expression_run_value (e := fresh .loose) hSub hFinite _ _⟩

end Evaluator

end ReversePolish
