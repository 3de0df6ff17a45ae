import ReversePolish.Operator

/-!
# Which operator is found

A token may match several symbols. The operator that is found is the first of them in the order `+`,
`-`, `*`, `/`, wherever the symbols stand in the token.

* `find?_eq_some_iff`: a search through operators in order finds the first one that passes the test.
* `find?_or`: what passes one of two tests is found where the earlier of the two searches ends.
* `lookup?_in_order`: both ways of matching, and what loose matching makes of a longer token.
-/

namespace ReversePolish.Operator

variable {m : Matching} {op : Operator} {token token' : String} {operators : List Operator}
variable {p q : Operator → Bool}

/-- The place of an operator in the order `+`, `-`, `*`, `/`. -/
def rank : Operator → Nat
  | .add => 0
  | .sub => 1
  | .mul => 2
  | .div => 3

/-- The operators are listed in their order, each at most once. -/
def InOrder (operators : List Operator) : Prop :=
  operators.Pairwise (fun first second => first.rank < second.rank)

theorem table_inOrder : InOrder table := by
  unfold InOrder
  decide

/-- The one of two answers that comes first in the order; to find nothing counts as last. -/
def earlier : Option Operator → Option Operator → Option Operator
  | none, found => found
  | found, none => found
  | some op, some op' => if op.rank ≤ op'.rank then some op else some op'

/-! ## Searching operators in order -/

theorem find?_eq_some_iff (hOrder : InOrder operators) :
    operators.find? p = some op ↔
      op ∈ operators ∧ p op = true ∧
        ∀ other ∈ operators, other.rank < op.rank → p other = false := by
  rw [List.find?_eq_some_iff_append]
  constructor
  · rintro ⟨hOp, before, after, rfl, hBefore⟩
    refine ⟨by simp, hOp, ?_⟩
    intro other hOther hRank
    obtain ⟨-, hTail, -⟩ := List.pairwise_append.mp hOrder
    have hAfter := (List.pairwise_cons.mp hTail).1
    rcases List.mem_append.mp hOther with hOther | hOther
    · simpa using hBefore other hOther
    · rcases List.mem_cons.mp hOther with rfl | hOther
      · omega
      · have := hAfter other hOther
        omega
  · rintro ⟨hMem, hOp, hFirst⟩
    obtain ⟨before, after, rfl⟩ := List.append_of_mem hMem
    obtain ⟨-, -, hAcross⟩ := List.pairwise_append.mp hOrder
    refine ⟨hOp, before, after, rfl, ?_⟩
    intro other hOther
    have hRank : other.rank < op.rank := hAcross other hOther op List.mem_cons_self
    simpa using hFirst other (List.mem_append_left _ hOther) hRank

theorem find?_or (hOrder : InOrder operators) :
    operators.find? (fun op => p op || q op) =
      earlier (operators.find? p) (operators.find? q) := by
  induction operators with
  | nil => rfl
  | cons first rest ih =>
    obtain ⟨hFirst, hRest⟩ := List.pairwise_cons.mp hOrder
    -- whatever is found further on comes after the first operator
    have hLater {test : Operator → Bool} {op : Operator} (h : rest.find? test = some op) :
        first.rank < op.rank := hFirst op (List.mem_of_find?_eq_some h)
    rw [List.find?_cons, List.find?_cons, List.find?_cons]
    cases hp : p first with
    | true =>
      cases hq : q first with
      | true => simp [earlier]
      | false =>
        cases hFound : rest.find? q with
        | none => rfl
        | some op =>
          have hRank := hLater hFound
          rw [earlier, if_pos (Nat.le_of_lt hRank)]
          rfl
    | false =>
      cases hq : q first with
      | true =>
        cases hFound : rest.find? p with
        | none => rfl
        | some op =>
          have hRank := hLater hFound
          rw [earlier, if_neg (Nat.not_le_of_lt hRank)]
          rfl
      | false => exact ih hRest

/-! ## Looking up a token -/

theorem symbol_inj {other : Operator} : op.symbol = other.symbol ↔ op = other := by
  cases op <;> cases other <;> decide

/-- The operator that is found is the first one whose symbol the token matches. -/
theorem lookup?_eq_some_iff :
    lookup? m token = some op ↔
      m.accepts token.toList op.symbol = true ∧
        ∀ other : Operator, other.rank < op.rank →
          m.accepts token.toList other.symbol = false := by
  rw [lookup?, find?_eq_some_iff table_inOrder]
  simp only [mem_table, true_and, forall_const]

theorem lookup?_eq_none_iff :
    lookup? m token = none ↔ ∀ op : Operator, m.accepts token.toList op.symbol = false := by
  simp [lookup?, mem_table]

theorem lookup?_congr
    (h : ∀ op : Operator,
      m.accepts token.toList op.symbol = m.accepts token'.toList op.symbol) :
    lookup? m token = lookup? m token' := by
  unfold lookup?
  congr 1
  funext op
  exact h op

/-- At most one symbol is the whole token, so that the order does not matter. -/
theorem lookup?_exact_eq_some_iff :
    lookup? .exact token = some op ↔ token = String.singleton op.symbol := by
  rw [lookup?_eq_some_iff, ← String.toList_inj, String.toList_singleton]
  simp only [Matching.accepts, beq_iff_eq]
  constructor
  · exact And.left
  · intro hToken
    refine ⟨hToken, ?_⟩
    intro other hRank
    have hOther : op ≠ other := by
      rintro rfl
      omega
    simpa [hToken, symbol_inj] using hOther

theorem accepts_loose_iff {symbol : Char} :
    Matching.loose.accepts token.toList symbol = true ↔ symbol ∈ token.toList := by
  rw [Matching.accepts, List.contains_iff_mem]

theorem accepts_loose_eq_false_iff {symbol : Char} :
    Matching.loose.accepts token.toList symbol = false ↔ symbol ∉ token.toList := by
  rw [← Bool.not_eq_true, accepts_loose_iff]

theorem lookup?_loose_append :
    lookup? .loose (token ++ token') = earlier (lookup? .loose token) (lookup? .loose token') := by
  unfold lookup?
  rw [← find?_or table_inOrder]
  congr 1
  funext op
  rw [Bool.eq_iff_iff, Bool.or_eq_true, accepts_loose_iff, accepts_loose_iff, accepts_loose_iff,
    String.toList_append, List.mem_append]

/-- **The operator of a token.** With exact matching it is the one whose symbol is the token. With
loose matching it is the first one, in the order `+`, `-`, `*`, `/`, whose symbol occurs in the
token, and there is none only if no symbol occurs. So it matters which symbols occur and not where,
and two tokens put together have the earlier one of their operators. -/
theorem lookup?_in_order (token : String) :
    (∀ op, lookup? .exact token = some op ↔ token = String.singleton op.symbol) ∧
    (∀ op, lookup? .loose token = some op ↔
      op.symbol ∈ token.toList ∧
        ∀ other : Operator, other.rank < op.rank → other.symbol ∉ token.toList) ∧
    (lookup? .loose token = none ↔ ∀ op : Operator, op.symbol ∉ token.toList) ∧
    (∀ token', (∀ op : Operator, op.symbol ∈ token.toList ↔ op.symbol ∈ token'.toList) →
      lookup? .loose token = lookup? .loose token') ∧
    ∀ token', lookup? .loose (token ++ token') =
      earlier (lookup? .loose token) (lookup? .loose token') := by
  refine ⟨fun _ => lookup?_exact_eq_some_iff, ?_, ?_, ?_, fun _ => lookup?_loose_append⟩
  · intro op
    rw [lookup?_eq_some_iff, accepts_loose_iff]
    simp only [accepts_loose_eq_false_iff]
  · rw [lookup?_eq_none_iff]
    simp only [accepts_loose_eq_false_iff]
  · intro token' hSame
    apply lookup?_congr
    intro op
    rw [Bool.eq_iff_iff, accepts_loose_iff, accepts_loose_iff]
    exact hSame op

/-- The same symbols in another order, and behind them an earlier one. -/
theorem lookup?_in_order_scattered :
    (∀ op : Operator, op.symbol ∈ "a/b*2-c".toList ↔ op.symbol ∈ "-*/".toList) ∧
      lookup? .loose "a/b*2-c" = lookup? .loose "-*/" ∧
      lookup? .loose "a/b*2-c" = some .sub ∧ lookup? .loose ("a/b*2-c" ++ "+") = some .add := by
  obtain ⟨-, hFound, -, hSame, hAppend⟩ := lookup?_in_order "a/b*2-c"
  have hSymbols : ∀ op : Operator, op.symbol ∈ "a/b*2-c".toList ↔ op.symbol ∈ "-*/".toList := by
    intro op
    cases op <;> decide
  have hSub : lookup? .loose "a/b*2-c" = some .sub := by
    rw [hFound]
    refine ⟨by decide, ?_⟩
    intro other hRank
    cases other with
    | add => decide
    | sub | mul | div => exact absurd hRank (by decide)
  refine ⟨hSymbols, hSame _ hSymbols, hSub, ?_⟩
  rw [hAppend, hSub]
  decide

end ReversePolish.Operator
