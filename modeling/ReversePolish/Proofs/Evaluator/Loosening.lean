import ReversePolish.Proofs.Evaluator.Run

/-!
# Exact runs under loose matching

Loose matching finds every operator that exact matching finds, and numerals are recognised before
operators are looked up. So a run with exact matching is repeated token by token with loose matching
until a token is unknown, and beyond: that token is unknown again unless a symbol occurs in it.

* `meaning_loose`: the tokens for which the two ways of matching agree.
* `feed_run_loose`, `feedAll_run_loose`: one token, and by induction all tokens of a run.
* `expression_run_loose`: an expression.
-/

namespace ReversePolish

open Token (Meaning meaning)

/-! ## Tokens -/

/-- The symbol of an operator occurs in the token. -/
def Token.HasSymbol (token : String) : Prop := ∃ op : Operator, op.symbol ∈ token.toList

theorem Token.hasSymbol_iff {token : String} :
    HasSymbol token ↔ ∃ op ∈ Operator.table, op.symbol ∈ token.toList := by
  simp [HasSymbol, Operator.mem_table]

instance (token : String) : Decidable (Token.HasSymbol token) :=
  decidable_of_iff _ Token.hasSymbol_iff.symm

theorem Operator.lookup?_loose_eq_none_iff {token : String} :
    lookup? .loose token = none ↔ ¬ Token.HasSymbol token := by
  simp [lookup?, Token.hasSymbol_iff, Matching.accepts]

theorem Operator.toList_eq_of_lookup?_exact {token : String} {op : Operator}
    (h : lookup? .exact token = some op) : token.toList = [op.symbol] := by
  have hAccepts := List.find?_some h
  simpa [Matching.accepts] using hAccepts

/-- For a token of one character the two ways of matching are the same. -/
theorem Matching.accepts_singleton (c symbol : Char) :
    accepts .loose [c] symbol = accepts .exact [c] symbol := by
  rw [Bool.eq_iff_iff, accepts, accepts, List.contains_iff_mem, List.mem_singleton, beq_iff_eq,
    List.singleton_inj]
  exact eq_comm

theorem Operator.lookup?_loose_of_exact {token : String} {op : Operator}
    (h : lookup? .exact token = some op) : lookup? .loose token = some op := by
  rw [← h, lookup?, lookup?, toList_eq_of_lookup?_exact h]
  congr 1
  funext other
  exact Matching.accepts_singleton op.symbol other.symbol

theorem Token.meaning_loose {token : String}
    (h : meaning .exact token = .unknown → ¬ HasSymbol token) :
    meaning .loose token = meaning .exact token := by
  unfold meaning at h ⊢
  cases hValue : value? token with
  | some x => rfl
  | none =>
    rw [hValue] at h
    cases hExact : Operator.lookup? .exact token with
    | some op => rw [Operator.lookup?_loose_of_exact hExact]
    | none =>
      rw [hExact] at h
      rw [Operator.lookup?_loose_eq_none_iff.mpr (h rfl)]

namespace Evaluator

/-! ## Runs -/

def loosened (e : Evaluator) : Evaluator := { e with matching := .loose }

variable {α : Type}

/-- The same result, left by the evaluator with loose matching. -/
def loosenedResult : EStateM.Result EvalError Evaluator α → EStateM.Result EvalError Evaluator α
  | .ok x left => .ok x left.loosened
  | .error fault left => .error fault left.loosened

/-- If a token was unknown, no symbol occurs in it. -/
def Plain (r : EStateM.Result EvalError Evaluator α) : Prop :=
  ∀ token left, r = .error (.unknownOperator token) left → ¬ Token.HasSymbol token

theorem feed_run_loose {token : String} (values : List Binary64)
    (h : meaning .exact token = .unknown → ¬ Token.HasSymbol token) :
    (feed token).run ⟨.loose, ⟨values⟩⟩ =
      loosenedResult ((feed token).run ⟨.exact, ⟨values⟩⟩) := by
  rw [feed_run, feed_run, Token.meaning_loose h]
  cases meaning .exact token with
  | number x => rfl
  | combine op => rcases values with _ | ⟨right, _ | ⟨left, rest⟩⟩ <;> rfl
  | unknown => rfl

theorem feedAll_run_loose {tokens : List String} {values : List Binary64}
    (h : Plain ((feedAll tokens).run ⟨.exact, ⟨values⟩⟩)) :
    (feedAll tokens).run ⟨.loose, ⟨values⟩⟩ =
      loosenedResult ((feedAll tokens).run ⟨.exact, ⟨values⟩⟩) := by
  induction tokens generalizing values with
  | nil => rfl
  | cons token tokens ih =>
    rw [feedAll_cons_run] at h
    have hToken : meaning .exact token = .unknown → ¬ Token.HasSymbol token := by
      intro hUnknown
      rw [feed_run_unknown hUnknown] at h
      exact h token _ rfl
    rw [feedAll_cons_run, feedAll_cons_run, feed_run_loose values hToken]
    cases hFeed : (feed token).run ⟨.exact, ⟨values⟩⟩ with
    | error fault left => rfl
    | ok _ next =>
      obtain ⟨left, rfl⟩ := feed_run_matching hFeed
      rw [hFeed] at h
      exact ih h

theorem result_run_loosened (e : Evaluator) :
    result.run e.loosened = loosenedResult (result.run e) := by
  obtain ⟨m, ⟨values⟩⟩ := e
  rcases values with _ | ⟨x, _ | ⟨y, rest⟩⟩ <;> rfl

theorem expression_run_loose {text : String} {values : List Binary64}
    (h : Plain ((expression text).run ⟨.exact, ⟨values⟩⟩)) :
    (expression text).run ⟨.loose, ⟨values⟩⟩ =
      loosenedResult ((expression text).run ⟨.exact, ⟨values⟩⟩) := by
  rw [expression_run] at h
  have hTokens : Plain ((feedAll (Text.pieces text)).run ⟨.exact, ⟨values⟩⟩) := by
    intro token left hUnknown
    rw [hUnknown] at h
    exact h token left rfl
  rw [expression_run, expression_run, feedAll_run_loose hTokens]
  cases (feedAll (Text.pieces text)).run ⟨.exact, ⟨values⟩⟩ with
  | error fault left => rfl
  | ok _ next => exact result_run_loosened next

end Evaluator

end ReversePolish
