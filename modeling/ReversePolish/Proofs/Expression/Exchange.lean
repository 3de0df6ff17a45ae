import ReversePolish.Proofs.Expression.Tree

/-!
# Exchanging the operands of an addition or a multiplication

A sum and a product do not depend on the order of their operands, down to the sign of a zero and to
the double that stands for a result without a meaning. So the two expressions under any node that
adds or multiplies can change places, however large they are and however deep the node is, and the
whole expression has the same value.

* `Binary64.add_comm`, `Binary64.mul_comm`: the operations on all doubles.
* `Exchanged`: the operands of one node of a tree have changed places.
* `Exchanged.value_eq`, `Exchanged.exists_tokens_eq`: what this does to the value and to the listing
  of the tree, each by induction on the place of the node.
* `evaluate_exchanged`: what it does to the evaluation of the expression.
-/

namespace ReversePolish

/-! ## Sums and products -/

namespace Binary64

theorem addFinite_comm (negX : Bool) (unitsX : Nat) (negY : Bool) (unitsY : Nat) :
    addFinite negX unitsX negY unitsY = addFinite negY unitsY negX unitsX := by
  unfold addFinite
  rw [Int.add_comm (signed negX unitsX), Bool.and_comm negX]

protected theorem add_comm (x y : Binary64) : x.add y = y.add x := by
  unfold add
  cases x.value with
  | nan => cases y.value <;> rfl
  | infinite s =>
    cases y.value with
    | nan => rfl
    | infinite t => cases s <;> cases t <;> rfl
    | finite t b => rfl
  | finite s a =>
    cases y.value with
    | nan => rfl
    | infinite t => rfl
    | finite t b => exact addFinite_comm s a t b

protected theorem mul_comm (x y : Binary64) : x.mul y = y.mul x := by
  unfold mul
  cases x.value with
  | nan => cases y.value <;> rfl
  | infinite s =>
    cases y.value with
    | nan => rfl
    | infinite t => simp only [Bool.xor_comm s]
    | finite t b => simp only [Bool.xor_comm s]
  | finite s a =>
    cases y.value with
    | nan => rfl
    | infinite t => simp only [Bool.xor_comm s]
    | finite t b => simp only [Bool.xor_comm s, Nat.mul_comm a]

end Binary64

/-- The operator adds or multiplies. -/
def Operator.Commutes (op : Operator) : Prop := op = .add ∨ op = .mul

theorem Operator.Commutes.apply_comm {op : Operator} (h : op.Commutes) (right left : Binary64) :
    op.apply right left = op.apply left right := by
  rcases h with rfl | rfl
  · exact right.add_comm left
  · exact right.mul_comm left

namespace Expression

variable {m : Matching} {t t' : Expression m}

/-! ## Trees -/

/-- The two trees differ only in that the operands of one node, at any depth, have changed places,
and that node adds or multiplies. -/
inductive Exchanged : Expression m → Expression m → Prop
  | here (j : Joint m) (left right : Expression m) (hOp : j.op.Commutes) :
      Exchanged (node j left right) (node j right left)
  | inLeft (j : Joint m) {left left' : Expression m} (right : Expression m)
      (h : Exchanged left left') : Exchanged (node j left right) (node j left' right)
  | inRight (j : Joint m) (left : Expression m) {right right' : Expression m}
      (h : Exchanged right right') : Exchanged (node j left right) (node j left right')

theorem Exchanged.value_eq (h : Exchanged t t') : t.value = t'.value := by
  induction h with
  | here j left right hOp => exact hOp.apply_comm right.value left.value
  | inLeft j right _ ih => rw [value, value, ih]
  | inRight j left _ ih => rw [value, value, ih]

/-- In the listing two neighbouring blocks of tokens change places. -/
theorem Exchanged.exists_tokens_eq (h : Exchanged t t') :
    ∃ (j : Joint m) (left right : Expression m) (before after : List String), j.op.Commutes ∧
      t.tokens = before ++ (left.tokens ++ (right.tokens ++ j.token :: after)) ∧
      t'.tokens = before ++ (right.tokens ++ (left.tokens ++ j.token :: after)) := by
  induction h with
  | here j left right hOp => exact ⟨j, left, right, [], [], hOp, rfl, rfl⟩
  | inLeft j' right' _ ih =>
    obtain ⟨j, left, right, before, after, hOp, ht, ht'⟩ := ih
    refine ⟨j, left, right, before, after ++ (right'.tokens ++ [j'.token]), hOp, ?_, ?_⟩
    · rw [tokens, ht]
      simp
    · rw [tokens, ht']
      simp
  | inRight j' left' _ ih =>
    obtain ⟨j, left, right, before, after, hOp, ht, ht'⟩ := ih
    refine ⟨j, left, right, left'.tokens ++ before, after ++ [j'.token], hOp, ?_, ?_⟩
    · rw [tokens, ht]
      simp
    · rw [tokens, ht']
      simp

/-! ## Expressions -/

theorem tokens_ne_nil (t : Expression m) : t.tokens ≠ [] := by
  cases t with
  | leaf l => simp [tokens]
  | node j left right => simp [tokens]

theorem space_not_mem_of_mem_tokens {token : String} (h : token ∈ t.tokens) :
    ' ' ∉ token.toList := by
  rw [tokens_eq] at h
  obtain ⟨s, -, rfl⟩ := List.mem_map.mp h
  cases s with
  | leaf l => exact l.no_space
  | joint j => exact j.no_space

/-- The listing of a tree with single spaces in it is an expression with the value of the tree. -/
theorem evaluate_spaced_tokens (t : Expression m) :
    Evaluator.evaluate m (Text.spaced t.tokens) = .ok t.value :=
  evaluate_of_tokens_eq
    (Text.pieces_spaced t.tokens_ne_nil (fun _ => space_not_mem_of_mem_tokens)).symm

/-- **Exchanged operands.** Where the two expressions under a node that adds or multiplies change
places, at any depth of a tree, two neighbouring blocks of tokens change places in its expression.
Both expressions have a value, and it is the same double. -/
theorem evaluate_exchanged (h : Exchanged t t') :
    (∃ (j : Joint m) (left right : Expression m) (before after : List String), j.op.Commutes ∧
      t.tokens = before ++ (left.tokens ++ (right.tokens ++ j.token :: after)) ∧
      t'.tokens = before ++ (right.tokens ++ (left.tokens ++ j.token :: after))) ∧
    ∃ x, Evaluator.evaluate m (Text.spaced t.tokens) = .ok x ∧
      Evaluator.evaluate m (Text.spaced t'.tokens) = .ok x := by
  refine ⟨h.exists_tokens_eq, t.value, t.evaluate_spaced_tokens, ?_⟩
  rw [h.value_eq]
  exact t'.evaluate_spaced_tokens

/-- A product that is a negative zero, as a divisor: its sign decides the sign of an infinity. The
token of the product is matched loosely. -/
theorem evaluate_exchanged_negative_zero :
    ∃ t t' : Expression .loose, Exchanged t t' ∧
      Text.spaced t.tokens = "1 0 -3 mul* /" ∧ Text.spaced t'.tokens = "1 -3 0 mul* /" ∧
      ∃ x, Evaluator.evaluate .loose "1 0 -3 mul* /" = .ok x ∧
        Evaluator.evaluate .loose "1 -3 0 mul* /" = .ok x := by
  let one : Expression .loose := leaf ⟨"1", by decide, by decide⟩
  let zero : Expression .loose := leaf ⟨"0", by decide, by decide⟩
  let three : Expression .loose := leaf ⟨"-3", by decide, by decide⟩
  let times : Joint .loose := ⟨"mul*", .mul, by decide, by decide, by decide⟩
  let divide : Joint .loose := ⟨"/", .div, by decide, by decide, by decide⟩
  have h : Exchanged (node divide one (node times zero three))
      (node divide one (node times three zero)) :=
    .inRight divide one (.here times zero three (Or.inr rfl))
  obtain ⟨-, x, hBefore, hAfter⟩ := evaluate_exchanged h
  exact ⟨_, _, h, by decide, by decide, x, hBefore, hAfter⟩

end Expression

end ReversePolish
