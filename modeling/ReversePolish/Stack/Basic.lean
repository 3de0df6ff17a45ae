import ReversePolish.Binary64.Text

/-!
# The operand stack

A stack of doubles. Its view is `toList`, the values from bottom to top; pushing adds at the end
of that list and popping takes from there.
-/

namespace ReversePolish

/-- A stack of operands, the top one first. -/
structure Stack where
  values : List Binary64
  deriving DecidableEq

namespace Stack

def empty : Stack := ⟨[]⟩

/-- The stack of the given operands, bottom to top. -/
def ofList (values : List Binary64) : Stack := ⟨values.reverse⟩

/-- The operands from bottom to top. -/
def toList (s : Stack) : List Binary64 := s.values.reverse

def size (s : Stack) : Nat := s.values.length

def isEmpty (s : Stack) : Bool := s.values.isEmpty

def push (s : Stack) (x : Binary64) : Stack := ⟨x :: s.values⟩

/-- Take the top operand, if there is one. -/
def pop? (s : Stack) : Option (Binary64 × Stack) :=
  match s.values with
  | [] => none
  | x :: rest => some (x, ⟨rest⟩)

/-- What is said when an operand is taken from the empty stack. -/
def underflowMessage : String := "stack is empty"

def clear (_ : Stack) : Stack := empty

/-- The texts of the operands from bottom to top, one a line, without a line end after the
last. -/
def display (s : Stack) : String := "\n".intercalate (s.toList.map Binary64.text)

/-- Equality as stacks of numbers: the same height, and equal as numbers place by place. -/
def numEq (s t : Stack) : Bool :=
  s.size == t.size && (s.values.zip t.values).all (fun (x, y) => x.numEq y)

@[simp] theorem toList_empty : empty.toList = [] := rfl

@[simp] theorem toList_ofList (values : List Binary64) : (ofList values).toList = values :=
  List.reverse_reverse values

@[simp] theorem ofList_toList (s : Stack) : ofList s.toList = s := by
  simp [ofList, toList]

@[simp] theorem toList_push (s : Stack) (x : Binary64) : (s.push x).toList = s.toList ++ [x] :=
  List.reverse_cons

@[simp] theorem pop?_empty : empty.pop? = none := rfl

@[simp] theorem pop?_push (s : Stack) (x : Binary64) : (s.push x).pop? = some (x, s) := rfl

theorem length_toList (s : Stack) : s.toList.length = s.size := List.length_reverse

end Stack

end ReversePolish
