/-!
# A cursor over the characters of a text

A cursor splits a text into the characters consumed so far and the unread rest. It moves forward
by accepting characters of a given set, and back to an offset that it has been at before. The text
itself, `source`, never changes.
-/

namespace ReversePolish

/-- A place in a text: the characters before it, nearest first, and the characters after it. -/
structure Cursor where
  before : List Char
  rest : List Char
  deriving DecidableEq

namespace Cursor

def ofList (text : List Char) : Cursor := ⟨[], text⟩

/-- The characters consumed so far. -/
def view (k : Cursor) : List Char := k.before.reverse

def source (k : Cursor) : List Char := k.view ++ k.rest

/-- The number of characters consumed so far. -/
def offset (k : Cursor) : Nat := k.before.length

def peek (k : Cursor) : Option Char := k.rest.head?

def exhausted (k : Cursor) : Bool := k.rest.isEmpty

/-- Consume the next character if it is in the set; the answer is that character. -/
def acceptAny (k : Cursor) (set : List Char) : Option Char × Cursor :=
  match k.rest with
  | [] => (none, k)
  | c :: rest => if set.contains c then (some c, ⟨c :: k.before, rest⟩) else (none, k)

/-- Consume the next character if it is the given one. -/
def accept (k : Cursor) (c : Char) : Option Char × Cursor := k.acceptAny [c]

/-- Consume characters as long as they are in the set; the answer is whether there were any. -/
def skipAll (k : Cursor) (set : List Char) : Bool × Cursor :=
  let run := k.rest.takeWhile set.contains
  (!run.isEmpty, ⟨run.reverse ++ k.before, k.rest.dropWhile set.contains⟩)

/-- Go to an offset of the same text. -/
def rewind (k : Cursor) (offset : Nat) : Cursor :=
  ⟨(k.source.take offset).reverse, k.source.drop offset⟩

@[simp] theorem view_ofList (text : List Char) : (ofList text).view = [] := rfl

@[simp] theorem source_ofList (text : List Char) : (ofList text).source = text := rfl

theorem length_view (k : Cursor) : k.view.length = k.offset := List.length_reverse

theorem rewind_offset (k : Cursor) : k.rewind k.offset = k := by
  simp [rewind, source, view, offset]

/-- Skipping is accepting for as long as the set allows. -/
theorem skipAll_eq (k : Cursor) (set : List Char) :
    k.skipAll set =
      match k.acceptAny set with
      | (some _, next) => (true, (next.skipAll set).2)
      | (none, _) => (false, k) := by
  obtain ⟨before, rest⟩ := k
  cases rest with
  | nil => rfl
  | cons c rest =>
    by_cases h : set.contains c = true
    · simp only [skipAll, acceptAny, h, if_true, List.takeWhile_cons, List.dropWhile_cons,
        List.reverse_cons, List.append_assoc, List.singleton_append, List.isEmpty_cons,
        Bool.not_false]
    · simp only [skipAll, acceptAny, h, List.takeWhile_cons, List.dropWhile_cons, if_false,
        Bool.false_eq_true, List.reverse_nil, List.nil_append, List.isEmpty_nil, Bool.not_true]

end Cursor

end ReversePolish
