import ReversePolish.Proofs.Evaluator.Run
import ReversePolish.Proofs.Text.Pieces

/-!
# Expression trees and their evaluation

An expression tree has operands at its leaves and operators at its nodes, each with the token that
it is written as. Its postorder listing is the expression in reverse Polish notation, and evaluating
that expression is evaluating the tree.

* `Expression.read_symbols_append`: reading a listing back, with a stack of trees instead of a stack
  of operands, puts the tree on the stack, whatever is below it and whatever follows. Hence a
  listing has one tree only (`Expression.tokens_injective`).
* `feedAll_run_symbols`: a run of the evaluator is a reading, with each tree replaced by its value.
* `written_of_read`: the trees on the stack are always what has been read so far.
* `evaluate_eq_ok_iff_tree`: an expression has a value exactly if it is the listing of a tree.
-/

namespace ReversePolish

open Token (Meaning meaning)

/-- A leaf of an expression tree: a token without spaces that is recognised as a numeral. -/
structure Leaf where
  token : String
  no_space : ' ' ∉ token.toList
  numeral : (Numeral.scan? token).isSome = true

/-- The operator at a node: a token without spaces that is no numeral and that matches. -/
structure Joint (m : Matching) where
  token : String
  op : Operator
  no_space : ' ' ∉ token.toList
  no_numeral : Numeral.scan? token = none
  lookup : Operator.lookup? m token = some op

/-- An expression tree for a way of matching operators. -/
inductive Expression (m : Matching) where
  | leaf (l : Leaf)
  | node (j : Joint m) (left right : Expression m)

theorem Leaf.value?_isSome (l : Leaf) : (Token.value? l.token).isSome = true := by
  rw [Token.value?_isSome]
  exact l.numeral

/-- The double that the token of a leaf stands for. -/
def Leaf.value (l : Leaf) : Binary64 := (Token.value? l.token).get l.value?_isSome

theorem Leaf.value?_eq (l : Leaf) : Token.value? l.token = some l.value :=
  (Option.some_get l.value?_isSome).symm

/-- A leaf's token is classified as an operand with the leaf's value. -/
theorem Leaf.classify_token (l : Leaf) : Token.classify l.token = .operand l.value := by
  rw [Token.classify, l.value?_eq]

theorem Leaf.meaning_token (l : Leaf) (m : Matching) : meaning m l.token = .number l.value := by
  rw [meaning, l.value?_eq]

theorem Joint.meaning_token {m : Matching} (j : Joint m) : meaning m j.token = .combine j.op := by
  rw [meaning, Token.value?_eq_none j.no_numeral, j.lookup]

namespace Expression

variable {m : Matching}

/-- The tokens of an expression tree in reverse Polish order. -/
def tokens : Expression m → List String
  | leaf l => [l.token]
  | node j left right => left.tokens ++ (right.tokens ++ [j.token])

def value : Expression m → Binary64
  | leaf l => l.value
  | node j left right => j.op.apply right.value left.value

/-! ## Listings -/

/-- A leaf or the operator of a node, as an entry of a listing. -/
inductive Symbol (m : Matching) where
  | leaf (l : Leaf)
  | joint (j : Joint m)

def Symbol.token : Symbol m → String
  | leaf l => l.token
  | joint j => j.token

/-- The entries of an expression tree in reverse Polish order. -/
def symbols : Expression m → List (Symbol m)
  | leaf l => [.leaf l]
  | node j left right => left.symbols ++ (right.symbols ++ [.joint j])

theorem tokens_eq (t : Expression m) : t.tokens = t.symbols.map Symbol.token := by
  induction t with
  | leaf l => rfl
  | node j left right ihLeft ihRight =>
    simp [tokens, symbols, ihLeft, ihRight, Symbol.token]

/-- A token is an entry in at most one way. -/
theorem Symbol.token_injective : Function.Injective (token (m := m)) := by
  intro s s' h
  cases s with
  | leaf l =>
    cases s' with
    | leaf l' =>
      obtain ⟨token, _, _⟩ := l
      obtain ⟨token', _, _⟩ := l'
      obtain rfl : token = token' := h
      rfl
    | joint j' =>
      have hNumeral := l.numeral
      rw [show l.token = j'.token from h, j'.no_numeral] at hNumeral
      cases hNumeral
  | joint j =>
    cases s' with
    | leaf l' =>
      have hNumeral := l'.numeral
      rw [← show j.token = l'.token from h, j.no_numeral] at hNumeral
      cases hNumeral
    | joint j' =>
      obtain ⟨token, op, _, _, hLookup⟩ := j
      obtain ⟨token', op', _, _, hLookup'⟩ := j'
      obtain rfl : token = token' := h
      obtain rfl : op = op' := Option.some.inj (hLookup.symm.trans hLookup')
      rfl

/-- Every token without spaces that is not unknown is an entry. -/
theorem Symbol.exists_token_eq {token : String} (hSpace : ' ' ∉ token.toList)
    (hKnown : meaning m token ≠ .unknown) : ∃ s : Symbol m, s.token = token := by
  by_cases hNumeral : (Numeral.scan? token).isSome = true
  · exact ⟨.leaf ⟨token, hSpace, hNumeral⟩, rfl⟩
  · have hNone : Numeral.scan? token = none := by simpa using hNumeral
    cases hLookup : Operator.lookup? m token with
    | none => simp [meaning, Token.value?_eq_none hNone, hLookup] at hKnown
    | some op => exact ⟨.joint ⟨token, op, hSpace, hNone, hLookup⟩, rfl⟩

/-! ## Reading a listing back -/

/-- Read entries with a stack of trees, the last tree on top. -/
def read : List (Expression m) → List (Symbol m) → Option (List (Expression m))
  | stack, [] => some stack
  | stack, .leaf l :: rest => read (leaf l :: stack) rest
  | right :: left :: stack, .joint j :: rest => read (node j left right :: stack) rest
  | _, .joint _ :: _ => none

/-- Reading the listing of a tree puts the tree on the stack. -/
theorem read_symbols_append (t : Expression m) (stack : List (Expression m))
    (rest : List (Symbol m)) : read stack (t.symbols ++ rest) = read (t :: stack) rest := by
  induction t generalizing stack rest with
  | leaf l => rfl
  | node j left right ihLeft ihRight =>
    rw [symbols, List.append_assoc, List.append_assoc, ihLeft, ihRight]
    rfl

theorem read_symbols (t : Expression m) : read [] t.symbols = some [t] := by
  have h := read_symbols_append t [] []
  rwa [List.append_nil] at h

/-- A sequence of tokens is the listing of at most one tree. -/
theorem tokens_injective : Function.Injective (tokens (m := m)) := by
  intro t t' h
  rw [tokens_eq, tokens_eq] at h
  have hSymbols : t.symbols = t'.symbols := Symbol.token_injective.list_map h
  have hRead := read_symbols t
  rw [hSymbols, read_symbols] at hRead
  exact (List.cons.inj (Option.some.inj hRead)).1.symm

/-- The listings of the trees on a stack, from bottom to top. -/
def written (stack : List (Expression m)) : List (Symbol m) := stack.reverse.flatMap symbols

/-- The trees on the stack are what has been read so far. -/
theorem written_of_read {stack final : List (Expression m)} {input : List (Symbol m)}
    (h : read stack input = some final) : written final = written stack ++ input := by
  fun_induction read stack input with
  | case1 stack =>
    cases h
    simp
  | case2 stack l rest ih =>
    rw [ih h]
    simp [written, symbols]
  | case3 right left stack j rest ih =>
    rw [ih h]
    simp [written, symbols]
  | case4 => cases h

/-! ## Runs of the evaluator -/

open Evaluator

/-- A run of the evaluator is a reading, with every tree replaced by its value. -/
theorem feedAll_run_symbols (stack : List (Expression m)) (input : List (Symbol m)) :
    (feedAll (input.map Symbol.token)).run ⟨m, ⟨stack.map value⟩⟩ =
      match read stack input with
      | some final => .ok () ⟨m, ⟨final.map value⟩⟩
      | none => .error .tooFewOperands ⟨m, .empty⟩ := by
  fun_induction read stack input with
  | case1 stack => rfl
  | case2 stack l rest ih =>
    rw [List.map_cons, feedAll_cons_run, Symbol.token, feed_run_number (l.meaning_token m)]
    exact ih
  | case3 right left stack j rest ih =>
    rw [List.map_cons, feedAll_cons_run, Symbol.token, List.map_cons, List.map_cons,
      feed_run_combine j.meaning_token]
    exact ih
  | case4 stack j rest hFew =>
    have hShort : (stack.map value).length < 2 := by
      rcases stack with _ | ⟨right, _ | ⟨left, stack⟩⟩
      · simp
      · simp
      · exact (hFew right left stack rfl).elim
    rw [List.map_cons, feedAll_cons_run, Symbol.token, feed_run_short j.meaning_token hShort]

theorem feedAll_run_symbols_fresh (input : List (Symbol m)) :
    (feedAll (input.map Symbol.token)).run (fresh m) =
      match read [] input with
      | some final => .ok () ⟨m, ⟨final.map value⟩⟩
      | none => .error .tooFewOperands ⟨m, .empty⟩ :=
  feedAll_run_symbols [] input

/-- Tokens that are accepted are entries. -/
theorem exists_symbols_of_feedAll_run {inputs : List String} {values : List Binary64}
    {left : Evaluator} (hSpace : ∀ token ∈ inputs, ' ' ∉ token.toList)
    (h : (feedAll inputs).run ⟨m, ⟨values⟩⟩ = .ok () left) :
    ∃ input : List (Symbol m), input.map Symbol.token = inputs := by
  induction inputs generalizing values with
  | nil => exact ⟨[], rfl⟩
  | cons token inputs ih =>
    rw [feedAll_cons_run] at h
    cases hFeed : (feed token).run ⟨m, ⟨values⟩⟩ with
    | error fault left => simp [hFeed] at h
    | ok _ next =>
      simp only [hFeed] at h
      have hNext : meaning m token ≠ .unknown ∧ ∃ later, next = ⟨m, ⟨later⟩⟩ := by
        rcases feed_run_ok hFeed with ⟨x, hMeaning, rfl⟩ | ⟨op, _, _, _, hMeaning, -, rfl⟩
        · exact ⟨by simp [hMeaning], _, rfl⟩
        · exact ⟨by simp [hMeaning], _, rfl⟩
      obtain ⟨hKnown, later, rfl⟩ := hNext
      obtain ⟨s, rfl⟩ := Symbol.exists_token_eq (hSpace token (by simp)) hKnown
      obtain ⟨input, rfl⟩ := ih (fun t ht => hSpace t (List.mem_cons_of_mem _ ht)) h
      exact ⟨s :: input, rfl⟩

theorem evaluate_of_tokens_eq {t : Expression m} {text : String}
    (h : t.tokens = Text.pieces text) : evaluate m text = .ok t.value := by
  have hRun := feedAll_run_symbols_fresh t.symbols
  rw [read_symbols, ← tokens_eq, h] at hRun
  rw [evaluate_eq, hRun]
  rfl

theorem exists_tokens_eq_of_evaluate {text : String} {x : Binary64}
    (h : evaluate m text = .ok x) : ∃ t : Expression m, t.tokens = Text.pieces text := by
  rw [evaluate_eq] at h
  cases hRun : (feedAll (Text.pieces text)).run (fresh m) with
  | error fault left => simp [hRun] at h
  | ok _ left =>
    obtain ⟨input, hInput⟩ := exists_symbols_of_feedAll_run
      (fun _ => Text.space_not_mem_of_mem_pieces) hRun
    have hReading := feedAll_run_symbols_fresh input
    rw [hInput, hRun] at hReading
    cases hRead : read [] input with
    | none => simp [hRead] at hReading
    | some final =>
      simp only [hRead, EStateM.Result.ok.injEq, true_and] at hReading
      simp only [hRun, hReading] at h
      have hWritten := written_of_read hRead
      -- the result is taken from a single value, so a single tree has been read
      rcases final with _ | ⟨t, _ | ⟨below, final⟩⟩
      · cases h
      · refine ⟨t, ?_⟩
        have hSymbols : t.symbols = input := by simpa [written] using hWritten
        rw [tokens_eq, hSymbols, hInput]
      · cases h

/-- **Evaluation of trees.** An expression has a value if and only if its pieces are the listing
of an expression tree, and the value is the tree's; there is at most one such tree. -/
theorem evaluate_eq_ok_iff_tree (m : Matching) (text : String) :
    (∀ x, evaluate m text = .ok x ↔
      ∃ t : Expression m, t.tokens = Text.pieces text ∧ x = t.value) ∧
    ∀ t t' : Expression m, t.tokens = Text.pieces text → t'.tokens = Text.pieces text → t = t' := by
  constructor
  · intro x
    constructor
    · intro h
      obtain ⟨t, ht⟩ := exists_tokens_eq_of_evaluate h
      have hValue := evaluate_of_tokens_eq ht
      rw [h] at hValue
      exact ⟨t, ht, Except.ok.inj hValue⟩
    · rintro ⟨t, ht, rfl⟩
      exact evaluate_of_tokens_eq ht
  · intro t t' ht ht'
    exact tokens_injective (ht.trans ht'.symm)

end Expression

end ReversePolish
