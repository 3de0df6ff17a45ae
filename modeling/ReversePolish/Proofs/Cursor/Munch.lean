import ReversePolish.Proofs.Cursor.Consumption

/-!
# Skipping takes all that it can

To skip is to accept characters of the set one at a time until none is accepted. `AcceptsAll` is
this loop, one constructor for each way in which a round can go. Every round that accepts leaves one
character fewer unread, so the loop ends, and it ends where skipping leads to.

* `AcceptsAll.of_consumes`: the loop takes a run of characters of the set that the rest does not
  continue; the induction is on the run.
* `AcceptsAll.unique`: it takes nothing else.
* `skipAll_longest`: what has been skipped is the longest beginning of the rest with all characters
  in the set, and what follows for skipping again.
-/

namespace ReversePolish.Cursor

variable {set : List Char} {k next next' : Cursor} {run run' : List Char}

/-- Characters of the set are accepted from `k` until none is; these are `run`, and the loop leaves
the cursor at `next`. -/
inductive AcceptsAll (set : List Char) : Cursor → List Char → Cursor → Prop
  | stop {k next : Cursor} (h : k.acceptAny set = (none, next)) : AcceptsAll set k [] next
  | step {k middle next : Cursor} {c : Char} {run : List Char}
      (h : k.acceptAny set = (some c, middle)) (hRest : AcceptsAll set middle run next) :
      AcceptsAll set k (c :: run) next

theorem AcceptsAll.of_consumes (h : k.Consumes run next) (hRun : ∀ c ∈ run, c ∈ set)
    (hStop : ∀ c ∈ next.rest.head?, c ∉ set) : AcceptsAll set k run next := by
  induction run generalizing k with
  | nil =>
    obtain ⟨before, rest⟩ := k
    obtain ⟨hRest, hBefore⟩ := h
    obtain rfl : next = ⟨before, rest⟩ := by
      cases next
      simp_all
    exact .stop (acceptAny_stays hStop)
  | cons c run ih =>
    obtain ⟨before, rest⟩ := k
    obtain ⟨hRest, hBefore⟩ := h
    obtain rfl : rest = c :: (run ++ next.rest) := hRest
    have hMiddle : (⟨c :: before, run ++ next.rest⟩ : Cursor).Consumes run next :=
      ⟨rfl, by simpa using hBefore⟩
    exact .step (acceptAny_cons (hRun c (by simp)))
      (ih hMiddle (fun d hd => hRun d (List.mem_cons_of_mem c hd)))

theorem AcceptsAll.unique (h : AcceptsAll set k run next) (h' : AcceptsAll set k run' next') :
    run' = run ∧ next' = next := by
  induction h generalizing run' next' with
  | stop hStop =>
    cases h' with
    | stop hStop' =>
      rw [hStop, Prod.mk.injEq] at hStop'
      exact ⟨rfl, hStop'.2.symm⟩
    | step hStep => simp [hStop] at hStep
  | step hStep _ ih =>
    cases h' with
    | stop hStop => simp [hStep] at hStop
    | step hStep' hRest' =>
      rw [hStep, Prod.mk.injEq, Option.some.injEq] at hStep'
      obtain ⟨rfl, rfl⟩ := hStep'
      obtain ⟨rfl, rfl⟩ := ih hRest'
      exact ⟨rfl, rfl⟩

/-- A run of characters of the set that the rest does not continue is what skipping takes. -/
theorem skipAll_eq_of_consumes (h : k.Consumes run next) (hRun : ∀ c ∈ run, c ∈ set)
    (hStop : ∀ c ∈ next.rest.head?, c ∉ set) : k.skipAll set = (!run.isEmpty, next) := by
  obtain ⟨before, rest⟩ := k
  obtain ⟨hRest, hBefore⟩ := h
  obtain rfl : rest = run ++ next.rest := hRest
  rw [skipAll_append hRun hStop, ← hBefore]

/-- A beginning of the rest with all characters in the set does not go past the run. -/
theorem prefix_run {rest taken : List Char} (hStop : ∀ c ∈ rest.head?, c ∉ set)
    (hTaken : taken <+: run ++ rest) (hAll : ∀ c ∈ taken, c ∈ set) : taken <+: run := by
  rcases List.prefix_or_prefix_of_prefix hTaken (List.prefix_append run rest) with hWithin | hPast
  · exact hWithin
  · obtain ⟨more, rfl⟩ := hPast
    rw [List.prefix_append_right_inj] at hTaken
    cases more with
    | nil => simp
    | cons c more =>
      obtain ⟨later, rfl⟩ := hTaken
      exact absurd (hAll c (by simp)) (hStop c rfl)

/-- **Maximal munch.** From any place in a text and for any set, skipping ends, and it is the one
run of the loop that accepts characters. The characters that it adds to the view are the longest
beginning of the rest with all characters in the set; it answers whether there are any. The next
character, if there is one, is not in the set, so to skip again does nothing. To skip the characters
of one set and then those of its union with another one leads where skipping those of the union
does. -/
theorem skipAll_longest (k : Cursor) (set : List Char) :
    let next := (k.skipAll set).2
    (∃ run, k.rest = run ++ next.rest ∧ next.view = k.view ++ run ∧ (∀ c ∈ run, c ∈ set) ∧
      (∀ taken, taken <+: k.rest → (∀ c ∈ taken, c ∈ set) → taken <+: run) ∧
      ((k.skipAll set).1 = true ↔ run ≠ []) ∧
      ∀ run' next', AcceptsAll set k run' next' ↔ run' = run ∧ next' = next) ∧
    (∀ c ∈ next.peek, c ∉ set) ∧
    next.skipAll set = (false, next) ∧
    ∀ other union : List Char, (∀ c, c ∈ union ↔ c ∈ set ∨ c ∈ other) →
      (next.skipAll union).2 = (k.skipAll union).2 := by
  obtain ⟨run, next, hSkip, hNext, hRun, hStop⟩ := k.skipAll_consumes set
  rw [hSkip]
  refine ⟨⟨run, hNext.rest_eq, hNext.view_eq, hRun, ?_, by simp, ?_⟩, hStop,
    skipAll_eq_of_consumes (.refl next) (by simp) hStop, ?_⟩
  · intro taken hTaken hAll
    rw [hNext.rest_eq] at hTaken
    exact prefix_run hStop hTaken hAll
  · intro run' next'
    have hLoop : AcceptsAll set k run next := .of_consumes hNext hRun hStop
    constructor
    · exact hLoop.unique
    · rintro ⟨rfl, rfl⟩
      exact hLoop
  · intro other union hUnion
    obtain ⟨more, last, hMore, hLast, hInUnion, hEnd⟩ := next.skipAll_consumes union
    have hBoth : ∀ c ∈ run ++ more, c ∈ union := by
      intro c hc
      rcases List.mem_append.mp hc with hc | hc
      · exact (hUnion c).mpr (Or.inl (hRun c hc))
      · exact hInUnion c hc
    rw [hMore, skipAll_eq_of_consumes (hNext.trans hLast) hBoth hEnd]

/-- Digits and then whatever can stand in a number, from behind a sign and with repetitions in the
sets; the digits end at the point, and the letter ends both ways of skipping. -/
theorem skipAll_longest_number :
    let k : Cursor := ⟨['-'], "12.5e3".toList⟩
    let digits := "1234567890".toList
    (['1'] <+: k.rest ∧ (∀ c ∈ ['1'], c ∈ digits) ∧
      ∃ run, (k.skipAll digits).2.view = k.view ++ run ∧ ['1'] <+: run) ∧
      ((k.skipAll digits).2.peek = some '.' ∧ '.' ∉ digits) ∧
      (∀ c, c ∈ digits ++ "..0".toList ↔ c ∈ digits ∨ c ∈ "..0".toList) ∧
      ((k.skipAll digits).2.skipAll (digits ++ "..0".toList)).2 =
        (k.skipAll (digits ++ "..0".toList)).2 ∧
      (k.skipAll (digits ++ "..0".toList)).2.view = "-12.5".toList := by
  intro k digits
  have hPrefix : ['1'] <+: k.rest := ⟨"2.5e3".toList, rfl⟩
  have hDigits : ∀ c ∈ ['1'], c ∈ digits := by simp [digits]
  have hPeek : (k.skipAll digits).2.peek = some '.' := by decide
  have hUnion : ∀ c, c ∈ digits ++ "..0".toList ↔ c ∈ digits ∨ c ∈ "..0".toList :=
    fun _ => List.mem_append
  obtain ⟨⟨run, -, hView, -, hLongest, -⟩, hEnd, -, hBoth⟩ := skipAll_longest k digits
  exact ⟨⟨hPrefix, hDigits, run, hView, hLongest _ hPrefix hDigits⟩, ⟨hPeek, hEnd '.' hPeek⟩, hUnion,
    hBoth _ _ hUnion, by decide⟩

end ReversePolish.Cursor
