import ReversePolish.Cursor.Basic

/-!
# What the steps of a cursor consume

Every forward step of a cursor consumes a text: it takes the text from the front of the unread rest
and puts it behind what was consumed before. `Consumes` states this for two cursors, and it is all
that later proofs need to know about a step.

* `acceptAny_cases`: either one character of the set is consumed, or the cursor stays because the
  next character, if any, is not in the set.
* `skipAll_append`: on a run of characters of the set and a rest that does not go on with one,
  skipping consumes exactly the run; `skipAll_consumes` says the same of any cursor.
* `Consumes.rewind`: after any text has been consumed, the offset of the earlier cursor leads back to
  it.
-/

namespace ReversePolish

/-! ## Runs of characters of a set -/

theorem mem_of_mem_takeWhile_contains {set text : List Char} :
    ∀ c ∈ text.takeWhile set.contains, c ∈ set := by
  intro c hc
  have hAll : (text.takeWhile set.contains).all set.contains = true := List.all_takeWhile
  exact List.contains_iff_mem.mp (List.all_eq_true.mp hAll c hc)

theorem head_dropWhile_contains {set text : List Char} :
    ∀ c ∈ (text.dropWhile set.contains).head?, c ∉ set := by
  intro c hc hMem
  have hNot := List.head?_dropWhile_not set.contains text
  rw [Option.mem_def.mp hc] at hNot
  simp [hMem] at hNot

namespace Cursor

/-- The cursor `next` is the cursor `k` after `text` has been consumed. -/
structure Consumes (k : Cursor) (text : List Char) (next : Cursor) : Prop where
  rest_eq : k.rest = text ++ next.rest
  before_eq : next.before = text.reverse ++ k.before

namespace Consumes

theorem refl (k : Cursor) : k.Consumes [] k := ⟨rfl, rfl⟩

theorem trans {k middle next : Cursor} {first second : List Char}
    (hFirst : k.Consumes first middle) (hSecond : middle.Consumes second next) :
    k.Consumes (first ++ second) next := by
  constructor
  · rw [hFirst.rest_eq, hSecond.rest_eq, List.append_assoc]
  · rw [hSecond.before_eq, hFirst.before_eq, List.reverse_append, List.append_assoc]

theorem view_eq {k next : Cursor} {text : List Char} (h : k.Consumes text next) :
    next.view = k.view ++ text := by
  rw [view, view, h.before_eq, List.reverse_append, List.reverse_reverse]

theorem source_eq {k next : Cursor} {text : List Char} (h : k.Consumes text next) :
    next.source = k.source := by
  rw [source, source, h.view_eq, h.rest_eq, List.append_assoc]

/-- The source does not change, so the offset of the earlier cursor leads back to it. -/
theorem rewind {k next : Cursor} {text : List Char} (h : k.Consumes text next) :
    next.rewind k.offset = k := by
  have hBack := rewind_offset k
  unfold Cursor.rewind at hBack ⊢
  rw [h.source_eq]
  exact hBack

end Consumes

/-! ## Accepting one character -/

theorem acceptAny_cons {before rest set : List Char} {c : Char} (hc : c ∈ set) :
    (⟨before, c :: rest⟩ : Cursor).acceptAny set = (some c, ⟨c :: before, rest⟩) := by
  simp [acceptAny, hc]

theorem acceptAny_stays {k : Cursor} {set : List Char} (h : ∀ c ∈ k.rest.head?, c ∉ set) :
    k.acceptAny set = (none, k) := by
  obtain ⟨before, rest⟩ := k
  cases rest with
  | nil => rfl
  | cons c rest => simp [acceptAny, h c rfl]

/-- A cursor accepts one character of the set, or stays where it is. -/
theorem acceptAny_cases (k : Cursor) (set : List Char) :
    (∃ c ∈ set, ∃ next, k.acceptAny set = (some c, next) ∧ k.Consumes [c] next) ∨
      (k.acceptAny set = (none, k) ∧ ∀ c ∈ k.rest.head?, c ∉ set) := by
  obtain ⟨before, rest⟩ := k
  cases rest with
  | nil => exact Or.inr ⟨rfl, by simp⟩
  | cons c rest =>
    by_cases hc : c ∈ set
    · exact Or.inl ⟨c, hc, _, acceptAny_cons hc, rfl, rfl⟩
    · have hHead : ∀ d ∈ (c :: rest).head?, d ∉ set := by
        intro d hd
        cases hd
        exact hc
      exact Or.inr ⟨acceptAny_stays hHead, hHead⟩

/-! ## Skipping a run of characters -/

/-- Maximal munch: a run of characters of the set is skipped as a whole, and no more. -/
theorem skipAll_append {before run rest set : List Char} (hRun : ∀ c ∈ run, c ∈ set)
    (hRest : ∀ c ∈ rest.head?, c ∉ set) :
    (⟨before, run ++ rest⟩ : Cursor).skipAll set =
      (!run.isEmpty, ⟨run.reverse ++ before, rest⟩) := by
  have hAll : ∀ c ∈ run, set.contains c = true := fun c hc => List.contains_iff_mem.mpr (hRun c hc)
  have hTake : rest.takeWhile set.contains = [] := by
    cases rest with
    | nil => rfl
    | cons c rest => simp [hRest c rfl]
  have hDrop : rest.dropWhile set.contains = rest := by
    cases rest with
    | nil => rfl
    | cons c rest => simp [hRest c rfl]
  simp only [skipAll, List.takeWhile_append_of_pos hAll, List.dropWhile_append_of_pos hAll, hTake,
    hDrop, List.append_nil]

/-- Skipping consumes a run of characters of the set that the rest does not continue. -/
theorem skipAll_consumes (k : Cursor) (set : List Char) :
    ∃ run next, k.skipAll set = (!run.isEmpty, next) ∧ k.Consumes run next ∧
      (∀ c ∈ run, c ∈ set) ∧ ∀ c ∈ next.rest.head?, c ∉ set := by
  obtain ⟨before, rest⟩ := k
  have hSplit : rest.takeWhile set.contains ++ rest.dropWhile set.contains = rest :=
    List.takeWhile_append_dropWhile
  exact ⟨_, _, rfl, ⟨hSplit.symm, rfl⟩, mem_of_mem_takeWhile_contains, head_dropWhile_contains⟩

end Cursor

end ReversePolish
