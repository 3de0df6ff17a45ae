import ReversePolish.Evaluator.Basic
import ReversePolish.Proofs.Numeral.Value

/-!
# What a token does to an evaluator

A token is an operand, an operator or unknown: its *kind*. What it does depends on a little more,
the value of an operand or the operator that is meant: its *meaning*. `feed_run` says all that
feeding a token can do, case by case of its meaning, and every statement about runs is derived from
it. Runs of several tokens are put together by `feedAll_append_run`.
-/

namespace ReversePolish

/-- What a token is taken for, without its value. -/
inductive Token.Kind where
  | operand
  | operator
  | unknown
  deriving DecidableEq

/-- An operand is what is recognised as a numeral; of the rest, an operator is what matches one. -/
def Token.kind (matching : Matching) (token : String) : Kind :=
  if (Numeral.scan? token).isSome then .operand
  else if (Operator.lookup? matching token).isSome then .operator
  else .unknown

/-- What a token does when it is fed. -/
inductive Token.Meaning where
  | number (x : Binary64)
  | combine (op : Operator)
  | unknown
  deriving DecidableEq

def Token.meaning (matching : Matching) (token : String) : Meaning :=
  match Token.value? token with
  | some x => .number x
  | none =>
    match Operator.lookup? matching token with
    | some op => .combine op
    | none => .unknown

def Token.Meaning.kind : Meaning → Kind
  | .number _ => .operand
  | .combine _ => .operator
  | .unknown => .unknown

theorem Token.kind_meaning (matching : Matching) (token : String) :
    (Token.meaning matching token).kind = Token.kind matching token := by
  have hValue := Token.value?_isSome token
  unfold Token.meaning Token.kind
  rw [← hValue]
  cases Token.value? token with
  | some x => rfl
  | none => cases Operator.lookup? matching token <;> rfl

theorem Token.exists_meaning_eq_number {m : Matching} {token : String}
    (h : kind m token = .operand) : ∃ x, meaning m token = .number x := by
  rw [← kind_meaning] at h
  cases hMeaning : meaning m token with
  | number x => exact ⟨x, rfl⟩
  | combine op => simp [hMeaning, Meaning.kind] at h
  | unknown => simp [hMeaning, Meaning.kind] at h

theorem Token.exists_meaning_eq_combine {m : Matching} {token : String}
    (h : kind m token = .operator) : ∃ op, meaning m token = .combine op := by
  rw [← kind_meaning] at h
  cases hMeaning : meaning m token with
  | number x => simp [hMeaning, Meaning.kind] at h
  | combine op => exact ⟨op, rfl⟩
  | unknown => simp [hMeaning, Meaning.kind] at h

theorem Token.meaning_eq_unknown {m : Matching} {token : String}
    (h : kind m token = .unknown) : meaning m token = .unknown := by
  rw [← kind_meaning] at h
  cases hMeaning : meaning m token with
  | number x => simp [hMeaning, Meaning.kind] at h
  | combine op => simp [hMeaning, Meaning.kind] at h
  | unknown => rfl

def Token.kinds (matching : Matching) (tokens : List String) : List Kind :=
  tokens.map (Token.kind matching)

namespace Evaluator

open Token (Kind Meaning kind kinds meaning)

/-! ## One token -/

/-- All that feeding a token can do. A lone operand is taken before an operator fails. -/
theorem feed_run (m : Matching) (token : String) (values : List Binary64) :
    (feed token).run ⟨m, ⟨values⟩⟩ =
      match meaning m token, values with
      | .number x, values => .ok () ⟨m, ⟨x :: values⟩⟩
      | .combine op, right :: left :: rest => .ok () ⟨m, ⟨op.apply right left :: rest⟩⟩
      | .combine _, _ => .error .tooFewOperands ⟨m, .empty⟩
      | .unknown, values => .error (.unknownOperator token) ⟨m, ⟨values⟩⟩ := by
  unfold feed Token.classify meaning
  cases Token.value? token with
  | some x => exact operand_run _ x
  | none =>
    dsimp only
    rw [operator_run]
    cases Operator.lookup? m token with
    | none => rfl
    | some op => rcases values with _ | ⟨right, _ | ⟨left, rest⟩⟩ <;> rfl

theorem feed_run_number {m : Matching} {token : String} {x : Binary64}
    (h : meaning m token = .number x) (values : List Binary64) :
    (feed token).run ⟨m, ⟨values⟩⟩ = .ok () ⟨m, ⟨x :: values⟩⟩ := by
  rw [feed_run, h]

theorem feed_run_combine {m : Matching} {token : String} {op : Operator}
    (h : meaning m token = .combine op) (right left : Binary64) (rest : List Binary64) :
    (feed token).run ⟨m, ⟨right :: left :: rest⟩⟩ =
      .ok () ⟨m, ⟨op.apply right left :: rest⟩⟩ := by
  rw [feed_run, h]

theorem feed_run_short {m : Matching} {token : String} {op : Operator}
    (h : meaning m token = .combine op) {values : List Binary64} (hShort : values.length < 2) :
    (feed token).run ⟨m, ⟨values⟩⟩ = .error .tooFewOperands ⟨m, .empty⟩ := by
  rw [feed_run, h]
  rcases values with _ | ⟨right, _ | ⟨left, rest⟩⟩
  · rfl
  · rfl
  · simp only [List.length_cons] at hShort
    omega

theorem feed_run_unknown {m : Matching} {token : String} (h : meaning m token = .unknown)
    (values : List Binary64) :
    (feed token).run ⟨m, ⟨values⟩⟩ = .error (.unknownOperator token) ⟨m, ⟨values⟩⟩ := by
  rw [feed_run, h]

/-- A token that is accepted pushes its value, or combines the two top operands. -/
theorem feed_run_ok {m : Matching} {token : String} {values : List Binary64} {next : Evaluator}
    (h : (feed token).run ⟨m, ⟨values⟩⟩ = .ok () next) :
    (∃ x, meaning m token = .number x ∧ next = ⟨m, ⟨x :: values⟩⟩) ∨
      ∃ op right left rest, meaning m token = .combine op ∧ values = right :: left :: rest ∧
        next = ⟨m, ⟨op.apply right left :: rest⟩⟩ := by
  cases hMeaning : meaning m token with
  | number x =>
    rw [feed_run_number hMeaning] at h
    cases h
    exact Or.inl ⟨x, rfl, rfl⟩
  | combine op =>
    rcases values with _ | ⟨right, _ | ⟨left, rest⟩⟩
    · rw [feed_run_short hMeaning (by simp)] at h
      cases h
    · rw [feed_run_short hMeaning (by simp)] at h
      cases h
    · rw [feed_run_combine hMeaning] at h
      cases h
      exact Or.inr ⟨op, right, left, rest, rfl, rfl, rfl⟩
  | unknown =>
    rw [feed_run_unknown hMeaning] at h
    cases h

/-- The evaluator that a calculation leaves, whether it fails or not. -/
def leftBy {α : Type} : EStateM.Result EvalError Evaluator α → Evaluator
  | .ok _ left => left
  | .error _ left => left

theorem exists_eq_of_matching {e : Evaluator} {m : Matching} (h : e.matching = m) :
    ∃ values, e = ⟨m, ⟨values⟩⟩ := by
  cases h
  exact ⟨e.stack.values, rfl⟩

/-- A token changes the stack only. -/
theorem matching_feed (token : String) (e : Evaluator) :
    (leftBy ((feed token).run e)).matching = e.matching := by
  obtain ⟨m, ⟨values⟩⟩ := e
  rw [feed_run]
  cases meaning m token with
  | number x => rfl
  | combine op => rcases values with _ | ⟨right, _ | ⟨left, rest⟩⟩ <;> rfl
  | unknown => rfl

theorem feed_run_matching {m : Matching} {token : String} {values : List Binary64}
    {next : Evaluator} (h : (feed token).run ⟨m, ⟨values⟩⟩ = .ok () next) :
    ∃ left, next = ⟨m, ⟨left⟩⟩ := by
  have hMatching := matching_feed token ⟨m, ⟨values⟩⟩
  rw [h] at hMatching
  exact exists_eq_of_matching hMatching

/-! ## Several tokens -/

theorem feedAll_cons_run (token : String) (tokens : List String) (e : Evaluator) :
    (feedAll (token :: tokens)).run e =
      match (feed token).run e with
      | .ok _ next => (feedAll tokens).run next
      | .error fault left => .error fault left := by
  rw [feedAll_cons, EStateM.run_bind]
  cases (feed token).run e <;> rfl

theorem feedAll_append_run (first second : List String) (e : Evaluator) :
    (feedAll (first ++ second)).run e =
      match (feedAll first).run e with
      | .ok _ next => (feedAll second).run next
      | .error fault left => .error fault left := by
  rw [feedAll_append, EStateM.run_bind]
  cases (feedAll first).run e <;> rfl

theorem feedAll_singleton_run (token : String) (e : Evaluator) :
    (feedAll [token]).run e = (feed token).run e := by
  rw [feedAll_cons_run]
  cases (feed token).run e <;> rfl

/-- A run changes the stack only. -/
theorem matching_feedAll (tokens : List String) (e : Evaluator) :
    (leftBy ((feedAll tokens).run e)).matching = e.matching := by
  induction tokens generalizing e with
  | nil => rfl
  | cons token tokens ih =>
    have hToken := matching_feed token e
    rw [feedAll_cons_run]
    cases hFeed : (feed token).run e with
    | ok _ next =>
      rw [hFeed] at hToken
      exact (ih next).trans hToken
    | error fault next =>
      rw [hFeed] at hToken
      exact hToken

theorem feedAll_run_matching {m : Matching} {tokens : List String} {values : List Binary64}
    {next : Evaluator} (h : (feedAll tokens).run ⟨m, ⟨values⟩⟩ = .ok () next) :
    ∃ left, next = ⟨m, ⟨left⟩⟩ := by
  have hMatching := matching_feedAll tokens ⟨m, ⟨values⟩⟩
  rw [h] at hMatching
  exact exists_eq_of_matching hMatching

/-- Tokens that are accepted leave an operand, whichever token is the last. -/
theorem feedAll_run_ne_empty {tokens : List String} {e next : Evaluator} (hNil : tokens ≠ [])
    (h : (feedAll tokens).run e = .ok () next) : next.stack ≠ .empty := by
  induction tokens generalizing e with
  | nil => exact absurd rfl hNil
  | cons token tokens ih =>
    rw [feedAll_cons_run] at h
    cases hFeed : (feed token).run e with
    | error fault left => simp [hFeed] at h
    | ok _ middle =>
      rw [hFeed] at h
      by_cases hLast : tokens = []
      · subst hLast
        cases h
        obtain ⟨m, ⟨values⟩⟩ := e
        rcases feed_run_ok hFeed with ⟨x, -, rfl⟩ | ⟨op, right, left, rest, -, -, rfl⟩
        · simp [Stack.empty]
        · simp [Stack.empty]
      · exact ih hLast h

/-- An expression is a run of its pieces, and the result if none of them fails. -/
theorem expression_run (text : String) (e : Evaluator) :
    (expression text).run e =
      match (feedAll (Text.pieces text)).run e with
      | .ok _ next => result.run next
      | .error fault left => .error fault left := by
  unfold expression
  rw [EStateM.run_bind]
  cases (feedAll (Text.pieces text)).run e <;> rfl

theorem fresh_eq (m : Matching) : fresh m = ⟨m, ⟨[]⟩⟩ := rfl

theorem evaluate_eq (m : Matching) (text : String) :
    evaluate m text =
      match (feedAll (Text.pieces text)).run (fresh m) with
      | .ok _ next =>
        match result.run next with
        | .ok x _ => .ok x
        | .error fault _ => .error fault
      | .error fault _ => .error fault := by
  unfold evaluate
  rw [expression_run]
  cases (feedAll (Text.pieces text)).run (fresh m) <;> rfl

end Evaluator

end ReversePolish
