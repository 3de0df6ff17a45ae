import ReversePolish.Cursor.Basic

/-!
# Scripts for a cursor

A script is a list of cursor operations as data, with two that save the cursor's offset in a new
slot and go back to a saved one. Slot `0` holds the offset at which the script starts.
-/

namespace ReversePolish.Cursor

inductive Step where
  | peek
  | exhausted
  | view
  | acceptAny (set : List Char)
  | accept (c : Char)
  | skipAll (set : List Char)
  | save
  | restore (slot : Nat)
  deriving DecidableEq

inductive Answer where
  | character (c : Option Char)
  | flag (b : Bool)
  | text (s : List Char)
  | slot (n : Nat)
  | done
  deriving DecidableEq

/-- A cursor and the offsets saved so far, the oldest first. -/
structure Reader where
  cursor : Cursor
  saved : List Nat
  deriving DecidableEq

namespace Reader

/-- The reader at the start of a text, with that offset in slot `0`. -/
def ofList (text : List Char) : Reader := ⟨Cursor.ofList text, [(Cursor.ofList text).offset]⟩

/-- Perform one operation. Restoring a slot that was never saved changes nothing. -/
def perform (r : Reader) : Step → Answer × Reader
  | .peek => (.character r.cursor.peek, r)
  | .exhausted => (.flag r.cursor.exhausted, r)
  | .view => (.text r.cursor.view, r)
  | .acceptAny set =>
    let (c, next) := r.cursor.acceptAny set
    (.character c, { r with cursor := next })
  | .accept c =>
    let (c, next) := r.cursor.accept c
    (.character c, { r with cursor := next })
  | .skipAll set =>
    let (b, next) := r.cursor.skipAll set
    (.flag b, { r with cursor := next })
  | .save => (.slot r.saved.length, { r with saved := r.saved ++ [r.cursor.offset] })
  | .restore slot =>
    (.done, { r with cursor := (r.saved[slot]?).elim r.cursor r.cursor.rewind })

/-- Perform a script: each operation's answer with the reader after it. -/
def performAll (r : Reader) : List Step → List (Answer × Reader)
  | [] => []
  | step :: script =>
    let outcome := r.perform step
    outcome :: outcome.2.performAll script

end Reader

end ReversePolish.Cursor
