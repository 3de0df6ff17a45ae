import ReversePolish.Binary64.Arithmetic

/-!
# Operators

The four operators, their symbols, and how a token is matched against them. The table is ordered:
where a token matches several symbols, the first one in the table decides.
-/

namespace ReversePolish

inductive Operator where
  | add
  | sub
  | mul
  | div
  deriving DecidableEq

/-- How a token is matched against a symbol. -/
inductive Matching where
  /-- The token is the symbol. -/
  | exact
  /-- The symbol occurs in the token. -/
  | loose
  deriving DecidableEq

namespace Operator

/-- The character that stands for the operator. -/
def symbol : Operator → Char
  | .add => '+'
  | .sub => '-'
  | .mul => '*'
  | .div => '/'

def arity (_ : Operator) : Nat := 2

/-- The operators in the order in which they are tried. -/
def table : List Operator := [.add, .sub, .mul, .div]

/-- Apply the operator to operands in the order in which they leave a stack, the right one
first. -/
def apply (op : Operator) (right left : Binary64) : Binary64 :=
  match op with
  | .add => right.add left
  | .sub => left.sub right
  | .mul => right.mul left
  | .div => left.div right

end Operator

def Matching.accepts : Matching → List Char → Char → Bool
  | .exact, token, symbol => token == [symbol]
  | .loose, token, symbol => token.contains symbol

/-- The first operator in the table whose symbol the token matches. -/
def Operator.lookup? (matching : Matching) (token : String) : Option Operator :=
  table.find? (fun op => matching.accepts token.toList op.symbol)

theorem Operator.mem_table (op : Operator) : op ∈ Operator.table := by
  cases op <;> decide

end ReversePolish
