import Mathlib.Data.List.Induction
import ReversePolish.Proofs.Evaluator.Run
import ReversePolish.Proofs.Text.Pieces

/-!
# Which outcome an expression has

The outcome of an expression depends on the kinds of its tokens only. The *depth* after some tokens
is the number of operands minus the number of operators among them, on top of the operands that
were there at the start. A token is a *fault* if it is unknown, or if it is an operator at a depth
below two.

* `feed_run_of_depth`, `feedAll_run_of_no_fault`: without a fault all tokens are accepted, and the
  height of the stack is the depth. This is the invariant of one step and of a run; the run is an
  induction on the tokens from the right.
* `feedAll_run_unknown`, `feedAll_run_short`: the first fault ends the run, with an error that says
  of which sort it is.
* `one_le_depth`: tokens that are accepted leave at least one operand.
* `evaluate_outcome`: the four outcomes of an expression.
-/

namespace ReversePolish.Evaluator

open Token (Kind Meaning kind kinds meaning)

/-- The operands minus the operators, on top of `start` operands. -/
def depth (start : Nat) (ks : List Kind) : Int :=
  start + ks.count .operand - ks.count .operator

/-- The token at place `i` cannot be accepted: it is unknown, or an operator without two
operands. -/
def Fault (start : Nat) (ks : List Kind) (i : Nat) : Prop :=
  ks[i]? = some .unknown ∨ (ks[i]? = some .operator ∧ depth start (ks.take i) < 2)

instance (start : Nat) (ks : List Kind) (i : Nat) : Decidable (Fault start ks i) :=
  inferInstanceAs (Decidable (_ ∨ _))

def FirstFault (start : Nat) (ks : List Kind) (i : Nat) : Prop :=
  Fault start ks i ∧ ∀ j < i, ¬ Fault start ks j

instance (start : Nat) (ks : List Kind) (i : Nat) : Decidable (FirstFault start ks i) :=
  inferInstanceAs (Decidable (_ ∧ _))

/-! ## Depths and faults -/

@[simp] theorem depth_nil (start : Nat) : depth start [] = start := by
  simp [depth]

theorem depth_append_operand (start : Nat) (ks : List Kind) :
    depth start (ks ++ [.operand]) = depth start ks + 1 := by
  simp [depth, List.count_append]
  omega

theorem depth_append_operator (start : Nat) (ks : List Kind) :
    depth start (ks ++ [.operator]) = depth start ks - 1 := by
  simp [depth, List.count_append]
  omega

theorem Fault.lt_length {start : Nat} {ks : List Kind} {i : Nat} (h : Fault start ks i) :
    i < ks.length := by
  rcases h with hUnknown | ⟨hOperator, -⟩
  · exact (List.getElem?_eq_some_iff.mp hUnknown).1
  · exact (List.getElem?_eq_some_iff.mp hOperator).1

/-- A fault is decided by the tokens up to its place. -/
theorem fault_take_iff {start : Nat} {ks : List Kind} {i n : Nat} :
    Fault start (ks.take n) i ↔ i < n ∧ Fault start ks i := by
  by_cases hi : i < n
  · have hTake : (ks.take n).take i = ks.take i := by
      rw [List.take_take, Nat.min_eq_left (by omega)]
    simp [Fault, hi, hTake]
  · simp [Fault, hi]

theorem kinds_take (m : Matching) (tokens : List String) (n : Nat) :
    kinds m (tokens.take n) = (kinds m tokens).take n := List.map_take

theorem kinds_getElem? {m : Matching} {tokens : List String} {i : Nat} {token : String}
    (h : tokens[i]? = some token) : (kinds m tokens)[i]? = some (kind m token) := by
  rw [kinds, List.getElem?_map, h, Option.map_some]

/-- Without a fault among some tokens and one more, there is none among the tokens before it, and
the last one is known and has its operands. -/
theorem no_fault_of_append {start : Nat} {ks : List Kind} {k : Kind}
    (h : ∀ i, ¬ Fault start (ks ++ [k]) i) :
    (∀ i, ¬ Fault start ks i) ∧ k ≠ .unknown ∧ (k = .operator → 2 ≤ depth start ks) := by
  have hTake : (ks ++ [k]).take ks.length = ks := List.take_left
  have hLast := h ks.length
  rw [Fault, hTake, List.getElem?_append_right (Nat.le_refl _), Nat.sub_self] at hLast
  refine ⟨?_, ?_, ?_⟩
  · intro i hFault
    rw [← hTake, fault_take_iff] at hFault
    exact h i hFault.2
  · rintro rfl
    exact hLast (Or.inl rfl)
  · rintro rfl
    by_contra hFew
    exact hLast (Or.inr ⟨rfl, by omega⟩)

/-! ## Runs without a fault -/

/-- The invariant of one step: a known token that has its operands takes the height of the stack
from one depth to the next. -/
theorem feed_run_of_depth {m : Matching} {token : String} {start : Nat} {ks : List Kind}
    {values : List Binary64} (hDepth : (values.length : Int) = depth start ks)
    (hKnown : kind m token ≠ .unknown) (hTwo : kind m token = .operator → 2 ≤ depth start ks) :
    ∃ next, (feed token).run ⟨m, ⟨values⟩⟩ = .ok () ⟨m, ⟨next⟩⟩ ∧
      (next.length : Int) = depth start (ks ++ [kind m token]) := by
  cases hKind : kind m token with
  | operand =>
    obtain ⟨x, hMeaning⟩ := Token.exists_meaning_eq_number hKind
    refine ⟨x :: values, feed_run_number hMeaning values, ?_⟩
    rw [depth_append_operand, ← hDepth, List.length_cons]
    omega
  | operator =>
    obtain ⟨op, hMeaning⟩ := Token.exists_meaning_eq_combine hKind
    have hMany := hTwo hKind
    rcases values with _ | ⟨right, _ | ⟨left, rest⟩⟩
    · simp only [List.length_nil] at hDepth
      omega
    · simp only [List.length_cons, List.length_nil] at hDepth
      omega
    · refine ⟨op.apply right left :: rest, feed_run_combine hMeaning right left rest, ?_⟩
      rw [depth_append_operator, ← hDepth]
      simp only [List.length_cons]
      omega
  | unknown => exact absurd hKind hKnown

/-- The invariant of a run: without a fault the height of the stack is the depth. -/
theorem feedAll_run_of_no_fault {m : Matching} {values : List Binary64} {tokens : List String}
    (h : ∀ i, ¬ Fault values.length (kinds m tokens) i) :
    ∃ left, (feedAll tokens).run ⟨m, ⟨values⟩⟩ = .ok () ⟨m, ⟨left⟩⟩ ∧
      (left.length : Int) = depth values.length (kinds m tokens) := by
  -- depths are counted from the left, so it is the last token that is split off
  induction tokens using List.reverseRecOn with
  | nil => exact ⟨values, rfl, by simp [kinds]⟩
  | append_singleton tokens token ih =>
    have hKinds : kinds m (tokens ++ [token]) = kinds m tokens ++ [kind m token] := by
      simp [kinds]
    rw [hKinds] at h ⊢
    obtain ⟨hBefore, hKnown, hTwo⟩ := no_fault_of_append h
    obtain ⟨middle, hRun, hDepth⟩ := ih hBefore
    obtain ⟨left, hFeed, hNext⟩ := feed_run_of_depth hDepth hKnown hTwo
    refine ⟨left, ?_, hNext⟩
    rw [feedAll_append_run, hRun]
    dsimp only
    rw [feedAll_singleton_run, hFeed]

/-- Before the first fault the height of the stack is the depth. -/
theorem feedAll_run_take {m : Matching} {values : List Binary64} {tokens : List String} {i : Nat}
    (h : ∀ j < i, ¬ Fault values.length (kinds m tokens) j) :
    ∃ left, (feedAll (tokens.take i)).run ⟨m, ⟨values⟩⟩ = .ok () ⟨m, ⟨left⟩⟩ ∧
      (left.length : Int) = depth values.length ((kinds m tokens).take i) := by
  rw [← kinds_take]
  apply feedAll_run_of_no_fault
  intro j hFault
  rw [kinds_take, fault_take_iff] at hFault
  exact h j hFault.1 hFault.2

/-! ## Runs with a fault -/

/-- A run goes on with the token at place `i` if all tokens before it are accepted. -/
theorem feedAll_run_split {e middle : Evaluator} {tokens : List String} {i : Nat} {token : String}
    (hToken : tokens[i]? = some token) (hRun : (feedAll (tokens.take i)).run e = .ok () middle) :
    (feedAll tokens).run e = (feedAll (token :: tokens.drop (i + 1))).run middle := by
  obtain ⟨hi, hGet⟩ := List.getElem?_eq_some_iff.mp hToken
  have hSplit : tokens.take i ++ token :: tokens.drop (i + 1) = tokens := by
    rw [← hGet, List.cons_getElem_drop_succ, List.take_append_drop]
  conv_lhs => rw [← hSplit, feedAll_append_run, hRun]

theorem feedAll_run_unknown {m : Matching} {values : List Binary64} {tokens : List String} {i : Nat}
    {token : String} (hToken : tokens[i]? = some token) (hKind : kind m token = .unknown)
    (hBefore : ∀ j < i, ¬ Fault values.length (kinds m tokens) j) :
    ∃ left, (feedAll tokens).run ⟨m, ⟨values⟩⟩ = .error (.unknownOperator token) left := by
  obtain ⟨left, hRun, -⟩ := feedAll_run_take hBefore
  rw [feedAll_run_split hToken hRun, feedAll_cons_run,
    feed_run_unknown (Token.meaning_eq_unknown hKind)]
  exact ⟨_, rfl⟩

theorem feedAll_run_short {m : Matching} {values : List Binary64} {tokens : List String} {i : Nat}
    {token : String} (hToken : tokens[i]? = some token) (hKind : kind m token = .operator)
    (hFirst : FirstFault values.length (kinds m tokens) i) :
    ∃ left, (feedAll tokens).run ⟨m, ⟨values⟩⟩ = .error .tooFewOperands left := by
  obtain ⟨hFault, hBefore⟩ := hFirst
  obtain ⟨left, hRun, hLength⟩ := feedAll_run_take hBefore
  rw [Fault, kinds_getElem? hToken, hKind, ← hLength] at hFault
  have hShort : left.length < 2 := by
    have : (left.length : Int) < 2 := by simpa using hFault
    omega
  obtain ⟨op, hMeaning⟩ := Token.exists_meaning_eq_combine hKind
  rw [feedAll_run_split hToken hRun, feedAll_cons_run, feed_run_short hMeaning hShort]
  exact ⟨_, rfl⟩

/-! ## Whole expressions -/

/-- Tokens without a fault leave at least one operand, whatever the last of them is. -/
theorem one_le_depth {start : Nat} {ks : List Kind} (hNil : ks ≠ [])
    (h : ∀ i, ¬ Fault start ks i) : 1 ≤ depth start ks := by
  induction ks using List.reverseRecOn with
  | nil => exact absurd rfl hNil
  | append_singleton ks k ih =>
    obtain ⟨hBefore, hKnown, hTwo⟩ := no_fault_of_append h
    cases k with
    | operand =>
      have hDepth : 0 ≤ depth start ks := by
        by_cases hEmpty : ks = []
        · simp [hEmpty]
        · have := ih hEmpty hBefore
          omega
      rw [depth_append_operand]
      omega
    | operator =>
      have := hTwo rfl
      rw [depth_append_operator]
      omega
    | unknown => exact absurd rfl hKnown

theorem evaluate_of_unknown {m : Matching} {text : String} {i : Nat} {token : String}
    (hToken : (Text.pieces text)[i]? = some token) (hKind : kind m token = .unknown)
    (hFirst : FirstFault 0 (kinds m (Text.pieces text)) i) :
    evaluate m text = .error (.unknownOperator token) := by
  have hBefore : ∀ j < i, ¬ Fault ([] : List Binary64).length (kinds m (Text.pieces text)) j :=
    hFirst.2
  obtain ⟨left, hRun⟩ := feedAll_run_unknown hToken hKind hBefore
  rw [evaluate_eq, fresh_eq, hRun]

theorem evaluate_of_short {m : Matching} {text : String} {i : Nat} {token : String}
    (hToken : (Text.pieces text)[i]? = some token) (hKind : kind m token = .operator)
    (hFirst : FirstFault 0 (kinds m (Text.pieces text)) i) :
    evaluate m text = .error .tooFewOperands := by
  have hStart : FirstFault ([] : List Binary64).length (kinds m (Text.pieces text)) i := hFirst
  obtain ⟨left, hRun⟩ := feedAll_run_short hToken hKind hStart
  rw [evaluate_eq, fresh_eq, hRun]

/-- Without a fault all tokens are accepted, at least one operand is left, and the outcome is
decided by whether there is another one. -/
theorem evaluate_of_no_fault {m : Matching} {text : String}
    (h : ∀ i, ¬ Fault 0 (kinds m (Text.pieces text)) i) :
    ∃ left, (feedAll (Text.pieces text)).run (fresh m) = .ok () ⟨m, left⟩ ∧
      (left.size : Int) = depth 0 (kinds m (Text.pieces text)) ∧ 1 ≤ left.size ∧
      (left.size = 1 → ∃ x, evaluate m text = .ok x) ∧
      (2 ≤ left.size → evaluate m text = .error .tooManyOperands) := by
  have hStart : ∀ i, ¬ Fault ([] : List Binary64).length (kinds m (Text.pieces text)) i := h
  obtain ⟨left, hRun, hLength⟩ := feedAll_run_of_no_fault hStart
  have hNil : kinds m (Text.pieces text) ≠ [] := by
    simpa [kinds] using Text.pieces_ne_nil text
  have hOne := one_le_depth hNil hStart
  have hEvaluate := evaluate_eq m text
  rw [fresh_eq, hRun] at hEvaluate
  dsimp only at hEvaluate
  rw [result_run] at hEvaluate
  refine ⟨⟨left⟩, hRun, hLength, ?_, ?_, ?_⟩
  · show 1 ≤ left.length
    omega
  · intro hSize
    obtain ⟨x, rfl⟩ := List.length_eq_one_iff.mp hSize
    exact ⟨x, hEvaluate⟩
  · intro hSize
    rcases left with _ | ⟨x, _ | ⟨y, rest⟩⟩
    · simp [Stack.size] at hSize
    · simp [Stack.size] at hSize
    · exact hEvaluate

/-- There is a first fault, or there is none at all. -/
theorem exists_firstFault_or (start : Nat) (ks : List Kind) :
    (∃ i, FirstFault start ks i) ∨ ∀ i, ¬ Fault start ks i := by
  by_cases h : ∃ i, Fault start ks i
  · exact Or.inl ⟨Nat.find h, Nat.find_spec h, fun j hj => Nat.find_min h hj⟩
  · exact Or.inr (fun i hFault => h ⟨i, hFault⟩)

/-! ## The outcome without its value -/

/-- An outcome without its value or token. -/
inductive Outcome where
  | value
  | tooFewOperands
  | tooManyOperands
  | unknownOperator
  deriving DecidableEq

def outcome : Except EvalError Binary64 → Outcome
  | .ok _ => .value
  | .error .tooFewOperands => .tooFewOperands
  | .error .tooManyOperands => .tooManyOperands
  | .error (.unknownOperator _) => .unknownOperator

theorem outcome_of_firstFault {m : Matching} {text : String} {i : Nat}
    (hFirst : FirstFault 0 (kinds m (Text.pieces text)) i) :
    outcome (evaluate m text) =
      if (kinds m (Text.pieces text))[i]? = some .unknown then .unknownOperator
      else .tooFewOperands := by
  have hLength : i < (Text.pieces text).length := by
    simpa [kinds] using hFirst.1.lt_length
  have hToken := List.getElem?_eq_getElem hLength
  have hPlace := kinds_getElem? (m := m) hToken
  split
  · rename_i hUnknown
    have hKind := Option.some.inj (hPlace.symm.trans hUnknown)
    rw [evaluate_of_unknown hToken hKind hFirst]
    rfl
  · rename_i hKnown
    have hOperator : (kinds m (Text.pieces text))[i]? = some .operator :=
      (hFirst.1.resolve_left hKnown).1
    have hKind := Option.some.inj (hPlace.symm.trans hOperator)
    rw [evaluate_of_short hToken hKind hFirst]
    rfl

theorem outcome_of_no_fault {m : Matching} {text : String}
    (h : ∀ i, ¬ Fault 0 (kinds m (Text.pieces text)) i) :
    outcome (evaluate m text) =
      if depth 0 (kinds m (Text.pieces text)) = 1 then .value else .tooManyOperands := by
  obtain ⟨left, -, hSize, hOne, hValue, hMany⟩ := evaluate_of_no_fault h
  split
  · rename_i hDepth
    obtain ⟨x, hx⟩ := hValue (by omega)
    rw [hx]
    rfl
  · rename_i hDepth
    rw [hMany (by omega)]
    rfl

/-- **The outcome of an expression.** The first fault among its tokens decides which error is
reported. Without a fault all tokens are accepted and at least one operand is left, so that the
result never lacks its operand: the expression has a value if exactly one is left, and has too many
operands otherwise. Only the kinds of the tokens matter for which outcome it is. -/
theorem evaluate_outcome (m : Matching) (text : String) :
    let tokens := Text.pieces text
    let ks := kinds m tokens
    tokens ≠ [] ∧
    (∀ i token, tokens[i]? = some token → FirstFault 0 ks i →
      (kind m token = .unknown → evaluate m text = .error (.unknownOperator token)) ∧
      (kind m token = .operator → evaluate m text = .error .tooFewOperands)) ∧
    ((∀ i, ¬ Fault 0 ks i) →
      (∃ left, (feedAll tokens).run (fresh m) = .ok () ⟨m, left⟩ ∧
        (left.size : Int) = depth 0 ks) ∧
      1 ≤ depth 0 ks ∧
      ((∃ x, evaluate m text = .ok x) ↔ depth 0 ks = 1) ∧
      (evaluate m text = .error .tooManyOperands ↔ 2 ≤ depth 0 ks)) ∧
    ∀ m' text', kinds m' (Text.pieces text') = ks →
      outcome (evaluate m' text') = outcome (evaluate m text) := by
  intro tokens ks
  refine ⟨Text.pieces_ne_nil text, ?_, ?_, ?_⟩
  · intro i token hToken hFirst
    exact ⟨fun hKind => evaluate_of_unknown hToken hKind hFirst,
      fun hKind => evaluate_of_short hToken hKind hFirst⟩
  · intro h
    obtain ⟨left, hRun, hSize, hOne, hValue, hMany⟩ := evaluate_of_no_fault h
    change (left.size : Int) = depth 0 ks at hSize
    have hOneOrMore : left.size = 1 ∨ 2 ≤ left.size := by omega
    refine ⟨⟨left, hRun, hSize⟩, by omega, ?_, ?_⟩
    · constructor
      · rintro ⟨x, hx⟩
        rcases hOneOrMore with hSingle | hMore
        · omega
        · rw [hMany hMore] at hx
          cases hx
      · intro hDepth
        exact hValue (by omega)
    · constructor
      · intro hError
        rcases hOneOrMore with hSingle | hMore
        · obtain ⟨x, hx⟩ := hValue hSingle
          rw [hx] at hError
          cases hError
        · omega
      · intro hDepth
        exact hMany (by omega)
  · intro m' text' hKinds
    rcases exists_firstFault_or 0 ks with ⟨i, hFirst⟩ | hNone
    · have hFirst' : FirstFault 0 (kinds m' (Text.pieces text')) i := hKinds ▸ hFirst
      rw [outcome_of_firstFault hFirst, outcome_of_firstFault hFirst', hKinds]
    · have hNone' : ∀ i, ¬ Fault 0 (kinds m' (Text.pieces text')) i := hKinds ▸ hNone
      rw [outcome_of_no_fault hNone, outcome_of_no_fault hNone', hKinds]

/-- Every failure occurs. The first fault decides, although another one comes later. -/
theorem evaluate_outcome_failures :
    evaluate .exact "1 + ^" = .error .tooFewOperands ∧
      evaluate .exact "1 ^ +" = .error (.unknownOperator "^") ∧
      evaluate .exact "1 2" = .error .tooManyOperands := by
  have hShort : FirstFault 0 (kinds .exact (Text.pieces "1 + ^")) 1 := by decide +kernel
  have hUnknown : FirstFault 0 (kinds .exact (Text.pieces "1 ^ +")) 1 := by decide +kernel
  have hKinds : kinds .exact (Text.pieces "1 2") = [.operand, .operand] := by decide +kernel
  have hNone : ∀ i, ¬ Fault 0 (kinds .exact (Text.pieces "1 2")) i := by
    rw [hKinds]
    intro i hFault
    have hLength : i < 2 := hFault.lt_length
    have hPlace : i = 0 ∨ i = 1 := by omega
    rcases hPlace with rfl | rfl
    · exact absurd hFault (by decide)
    · exact absurd hFault (by decide)
  obtain ⟨-, hFaultShort, -⟩ := evaluate_outcome .exact "1 + ^"
  obtain ⟨-, hFaultUnknown, -⟩ := evaluate_outcome .exact "1 ^ +"
  obtain ⟨-, -, hNoFault, -⟩ := evaluate_outcome .exact "1 2"
  obtain ⟨-, -, -, hMany⟩ := hNoFault hNone
  refine ⟨?_, ?_, ?_⟩
  · exact (hFaultShort 1 "+" (by decide +kernel) hShort).2 (by decide +kernel)
  · exact (hFaultUnknown 1 "^" (by decide +kernel) hUnknown).1 (by decide +kernel)
  · rw [hMany, hKinds]
    decide

end ReversePolish.Evaluator
