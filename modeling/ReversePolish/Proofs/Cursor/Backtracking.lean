import ReversePolish.Cursor.Script
import ReversePolish.Proofs.Cursor.Consumption

/-!
# Where a cursor is, and how it goes back

A reader performs the steps of a script on a cursor and keeps the offsets that it has saved. However
often it goes back, the text stays the same and every saved offset lies within it; `Within` is this
invariant, one step keeps it, and so does a script. All else that a cursor shows is read off its
place in the text.

Going back to a saved offset is going back to the cursor. From there on a script has the answers
that it had when the offset was saved. Only the numbers of the slots differ that are saved
afterwards, since others have been saved in between: `Step.shift` and `Answer.shift` count them from
their new beginning.

* `perform_consumes`: every step but a restoring one consumes the characters that it accepts.
* `within_after`: the invariant of a run.
* `Resumed.perform`, `Resumed.performAll`: two readers in the same place, of which one has saved
  more.
* `performAll_retraces`: all of it for every text and every script.
-/

namespace ReversePolish.Cursor

variable {k k' : Cursor} {text : List Char}

/-! ## Places in a text -/

/-- The index of the last character consumed, one less than the number of characters; it is `-1`
before the first one. -/
def position (k : Cursor) : Int := k.offset - 1

theorem view_eq_take (k : Cursor) : k.view = k.source.take k.offset := by
  rw [source, ← length_view, List.take_left]

theorem rest_eq_drop (k : Cursor) : k.rest = k.source.drop k.offset := by
  rw [source, ← length_view, List.drop_left]

theorem offset_le (k : Cursor) : k.offset ≤ k.source.length := by
  rw [source, List.length_append, length_view]
  exact Nat.le_add_right _ _

theorem peek_eq_getElem? (k : Cursor) : k.peek = k.source[k.offset]? := by
  rw [peek, rest_eq_drop, List.head?_drop]

theorem exhausted_iff (k : Cursor) : k.exhausted = true ↔ k.view = k.source := by
  rw [exhausted, List.isEmpty_iff, source]
  exact List.self_eq_append_right.symm

theorem source_rewind (k : Cursor) (offset : Nat) : (k.rewind offset).source = k.source := by
  simp [rewind, source, view]

theorem offset_rewind {offset : Nat} (h : offset ≤ k.source.length) :
    (k.rewind offset).offset = offset := by
  rw [Cursor.offset, rewind, List.length_reverse, List.length_take, Nat.min_eq_left h]

/-- Where a cursor goes back to does not depend on where it is. -/
theorem rewind_eq_of_source_eq (h : k'.source = k.source) : k'.rewind k.offset = k := by
  have hBack := k.rewind_offset
  unfold rewind at hBack ⊢
  rw [h]
  exact hBack

theorem Consumes.position_eq {taken : List Char} (h : k.Consumes taken k') :
    k'.position = k.position + taken.length := by
  rw [position, position, ← length_view, ← length_view, h.view_eq, List.length_append]
  omega

/-! ## The characters that a step accepts -/

/-- The step, answered like this, has accepted these characters. There is no such statement about a
step that restores. -/
inductive Accepted : Step → Answer → List Char → Prop
  | character {set : List Char} {c : Char} (h : c ∈ set) :
      Accepted (.acceptAny set) (.character (some c)) [c]
  | noCharacter {set : List Char} : Accepted (.acceptAny set) (.character none) []
  | given {c : Char} : Accepted (.accept c) (.character (some c)) [c]
  | notGiven {c : Char} : Accepted (.accept c) (.character none) []
  | skipped {set run : List Char} (h : ∀ c ∈ run, c ∈ set) :
      Accepted (.skipAll set) (.flag (!run.isEmpty)) run
  | peek {c : Option Char} : Accepted .peek (.character c) []
  | exhausted {b : Bool} : Accepted .exhausted (.flag b) []
  | view {s : List Char} : Accepted .view (.text s) []
  | save {n : Nat} : Accepted .save (.slot n) []

namespace Reader

variable {r r' : Reader} {step : Step} {script : List Step}

theorem perform_consumes (r : Reader) (hStep : ∀ slot, step ≠ .restore slot) :
    ∃ taken, Accepted step (r.perform step).1 taken ∧
      r.cursor.Consumes taken (r.perform step).2.cursor := by
  cases step with
  | peek => exact ⟨[], .peek, .refl _⟩
  | exhausted => exact ⟨[], .exhausted, .refl _⟩
  | view => exact ⟨[], .view, .refl _⟩
  | acceptAny set =>
    rcases r.cursor.acceptAny_cases set with ⟨c, hc, next, hAccept, hNext⟩ | ⟨hAccept, -⟩
    · exact ⟨[c], by simp only [perform, hAccept]; exact .character hc,
        by simpa only [perform, hAccept] using hNext⟩
    · exact ⟨[], by simp only [perform, hAccept]; exact .noCharacter,
        by simpa only [perform, hAccept] using .refl _⟩
  | accept given =>
    rcases r.cursor.acceptAny_cases [given] with ⟨c, hc, next, hAccept, hNext⟩ | ⟨hAccept, -⟩
    · obtain rfl := List.mem_singleton.mp hc
      exact ⟨[c], by simp only [perform, accept, hAccept]; exact .given,
        by simpa only [perform, accept, hAccept] using hNext⟩
    · exact ⟨[], by simp only [perform, accept, hAccept]; exact .notGiven,
        by simpa only [perform, accept, hAccept] using .refl _⟩
  | skipAll set =>
    obtain ⟨run, next, hSkip, hNext, hRun, -⟩ := r.cursor.skipAll_consumes set
    exact ⟨run, by simp only [perform, hSkip]; exact .skipped hRun,
      by simpa only [perform, hSkip] using hNext⟩
  | save => exact ⟨[], .save, .refl _⟩
  | restore slot => exact absurd rfl (hStep slot)

theorem perform_restore {slot offset : Nat} (h : r.saved[slot]? = some offset) :
    r.perform (.restore slot) = (.done, { r with cursor := r.cursor.rewind offset }) := by
  rw [perform, h, Option.elim_some]

theorem source_perform (r : Reader) (step : Step) :
    (r.perform step).2.cursor.source = r.cursor.source := by
  by_cases hStep : ∃ slot, step = .restore slot
  · obtain ⟨slot, rfl⟩ := hStep
    cases hSlot : r.saved[slot]? with
    | none => rw [perform, hSlot, Option.elim_none]
    | some offset => rw [perform_restore hSlot, source_rewind]
  · obtain ⟨taken, -, hTaken⟩ := r.perform_consumes (fun slot h => hStep ⟨slot, h⟩)
    exact hTaken.source_eq

/-- A slot is added at the end or not at all. -/
theorem saved_perform (r : Reader) (step : Step) :
    (r.perform step).2.saved = r.saved ++ if step = .save then [r.cursor.offset] else [] := by
  cases step <;> simp [perform]

/-! ## The invariant -/

/-- The reader reads the text, and every offset that it has saved lies within. -/
structure Within (text : List Char) (r : Reader) : Prop where
  source_eq : r.cursor.source = text
  saved_le : ∀ offset ∈ r.saved, offset ≤ text.length

theorem within_ofList (text : List Char) : Within text (ofList text) := by
  refine ⟨rfl, ?_⟩
  intro offset hOffset
  obtain rfl := List.mem_singleton.mp hOffset
  exact Nat.zero_le _

theorem Within.perform (h : Within text r) (step : Step) : Within text (r.perform step).2 := by
  refine ⟨(r.source_perform step).trans h.source_eq, ?_⟩
  rw [saved_perform]
  intro offset hOffset
  rcases List.mem_append.mp hOffset with hOld | hNew
  · exact h.saved_le offset hOld
  · split at hNew
    · obtain rfl := List.mem_singleton.mp hNew
      exact h.source_eq ▸ r.cursor.offset_le
    · cases hNew

/-- The reader that a script leaves. -/
def after (r : Reader) (script : List Step) : Reader :=
  script.foldl (fun r step => (r.perform step).2) r

theorem after_cons (r : Reader) (step : Step) (script : List Step) :
    r.after (step :: script) = (r.perform step).2.after script := rfl

theorem Within.after (h : Within text r) (script : List Step) : Within text (r.after script) := by
  induction script generalizing r with
  | nil => exact h
  | cons step script ih => exact ih (h.perform step)

theorem source_after (r : Reader) (script : List Step) :
    (r.after script).cursor.source = r.cursor.source := by
  induction script generalizing r with
  | nil => rfl
  | cons step script ih => rw [after_cons, ih, source_perform]

theorem exists_saved_after (r : Reader) (script : List Step) :
    ∃ later, (r.after script).saved = r.saved ++ later := by
  induction script generalizing r with
  | nil => exact ⟨[], (List.append_nil _).symm⟩
  | cons step script ih =>
    obtain ⟨later, hLater⟩ := ih (r := (r.perform step).2)
    rw [saved_perform, List.append_assoc] at hLater
    exact ⟨_, hLater⟩

/-! ## Counting slots from a new beginning -/

end Reader

/-- The step with the slots from the `first` on moved up. -/
def Step.shift (first distance : Nat) : Step → Step
  | .restore slot => .restore (if slot < first then slot else slot + distance)
  | step => step

/-- The answer with the slots from the `first` on moved up. -/
def Answer.shift (first distance : Nat) : Answer → Answer
  | .slot n => .slot (if n < first then n else n + distance)
  | answer => answer

namespace Reader

/-- The second reader is where the first one is, and between the slots of the first one it has saved
`between` as well. -/
structure Resumed (old between : List Nat) (r r' : Reader) : Prop where
  cursor_eq : r'.cursor = r.cursor
  saved_eq : ∃ new, r.saved = old ++ new ∧ r'.saved = old ++ (between ++ new)

variable {old between : List Nat}

theorem getElem?_shift (old between new : List Nat) (slot : Nat) :
    (old ++ (between ++ new))[if slot < old.length then slot else slot + between.length]? =
      (old ++ new)[slot]? := by
  split
  · rename_i hOld
    rw [List.getElem?_append_left hOld, List.getElem?_append_left hOld]
  · rename_i hNew
    rw [List.getElem?_append_right (by omega), List.getElem?_append_right (by omega),
      List.getElem?_append_right (by omega)]
    congr 1
    omega

theorem Resumed.perform (h : Resumed old between r r') (step : Step) :
    (r'.perform (step.shift old.length between.length)).1 =
        (r.perform step).1.shift old.length between.length ∧
      Resumed old between (r.perform step).2
        (r'.perform (step.shift old.length between.length)).2 := by
  obtain ⟨cursor, saved⟩ := r
  obtain ⟨cursor', saved'⟩ := r'
  obtain ⟨rfl, new, rfl, rfl⟩ := h
  cases step with
  | peek => exact ⟨rfl, rfl, new, rfl, rfl⟩
  | exhausted => exact ⟨rfl, rfl, new, rfl, rfl⟩
  | view => exact ⟨rfl, rfl, new, rfl, rfl⟩
  | acceptAny set => exact ⟨rfl, rfl, new, rfl, rfl⟩
  | accept c => exact ⟨rfl, rfl, new, rfl, rfl⟩
  | skipAll set => exact ⟨rfl, rfl, new, rfl, rfl⟩
  | save =>
    refine ⟨?_, rfl, new ++ [cursor'.offset], ?_, ?_⟩
    · have hNew : ¬ (old ++ new).length < old.length := by simp
      have hLength : (old ++ (between ++ new)).length = (old ++ new).length + between.length := by
        simp only [List.length_append]
        omega
      simp only [Reader.perform, Step.shift, Answer.shift, if_neg hNew, hLength]
    · simp [Reader.perform]
    · simp [Reader.perform, Step.shift]
  | restore slot =>
    refine ⟨rfl, ?_, new, rfl, rfl⟩
    simp only [Reader.perform, Step.shift, getElem?_shift]

theorem Resumed.performAll (h : Resumed old between r r') (script : List Step) :
    (r'.performAll (script.map (Step.shift old.length between.length))).map
        (fun outcome => (outcome.1, outcome.2.cursor)) =
      (r.performAll script).map
        (fun outcome => (outcome.1.shift old.length between.length, outcome.2.cursor)) := by
  induction script generalizing r r' with
  | nil => rfl
  | cons step script ih =>
    obtain ⟨hAnswer, hNext⟩ := h.perform step
    simp only [List.map_cons, Reader.performAll, ih hNext, hAnswer, hNext.cursor_eq]

/-- Going back to an offset that was saved on the spot. -/
theorem resumed_restore {slot : Nat} (h : r.saved[slot]? = some r.cursor.offset)
    (script : List Step) : ∃ between,
      (r.after script).saved = r.saved ++ between ∧
        Resumed r.saved between r ((r.after script).perform (.restore slot)).2 := by
  obtain ⟨between, hSaved⟩ := r.exists_saved_after script
  have hSlot : (r.after script).saved[slot]? = some r.cursor.offset := by
    rw [hSaved, List.getElem?_append_left (List.getElem?_eq_some_iff.mp h).1, h]
  refine ⟨between, hSaved, ?_⟩
  rw [perform_restore hSlot]
  exact ⟨rewind_eq_of_source_eq (r.source_after script), [], (List.append_nil _).symm,
    by rw [hSaved, List.append_nil]⟩

/-- **A faithful cursor.** For every text and after every script on it:

* the position is at least `-1` and less than the number of characters, so that a slice up to it and
  the character behind it are within reach, and every saved offset is one of the text;
* the view is the text up to the position and the next character is the one behind it; the view and
  the rest make up the text, which is exhausted exactly if the view is all of it;
* a step that does not restore moves the position forward by the characters that it accepts, which
  are none unless it is an accepting step; and a step that restores leads to the saved offset;
* from an offset that is saved in a slot, going on and then back, however often, leads to the same
  cursor, and every script has the answers and the cursors that it has at the time. The slots that
  are saved from then on count from after the ones saved in between. -/
theorem performAll_retraces (text : List Char) (script : List Step) :
    let r := (ofList text).after script
    (-1 ≤ r.cursor.position ∧ r.cursor.position < text.length ∧
      ∀ offset ∈ r.saved, offset ≤ text.length) ∧
    (r.cursor.view = text.take (r.cursor.position + 1).toNat ∧
      r.cursor.peek = text[(r.cursor.position + 1).toNat]? ∧
      r.cursor.view ++ r.cursor.rest = text ∧
      (r.cursor.exhausted = true ↔ r.cursor.view = text)) ∧
    (∀ step, (∀ slot, step ≠ .restore slot) →
      ∃ taken, Accepted step (r.perform step).1 taken ∧
        (r.perform step).2.cursor.position = r.cursor.position + taken.length ∧
        (r.perform step).2.cursor.view = r.cursor.view ++ taken) ∧
    (∀ slot offset, r.saved[slot]? = some offset →
      (r.perform (.restore slot)).2.cursor.offset = offset) ∧
    ∀ slot, r.saved[slot]? = some r.cursor.offset → ∀ between later : List Step,
      let again := ((r.after between).perform (.restore slot)).2
      let distance := (r.after between).saved.length - r.saved.length
      again.cursor = r.cursor ∧
      (again.performAll (later.map (.shift r.saved.length distance))).map
          (fun outcome => (outcome.1, outcome.2.cursor)) =
        (r.performAll later).map
          (fun outcome => (outcome.1.shift r.saved.length distance, outcome.2.cursor)) := by
  intro r
  have hWithin : Within text r := (within_ofList text).after script
  have hOffset : r.cursor.offset ≤ text.length := hWithin.source_eq ▸ r.cursor.offset_le
  have hPosition : (r.cursor.position + 1).toNat = r.cursor.offset := by
    unfold position
    omega
  refine ⟨⟨?_, ?_, hWithin.saved_le⟩, ⟨?_, ?_, hWithin.source_eq, ?_⟩, ?_, ?_, ?_⟩
  · unfold position
    omega
  · unfold position
    omega
  · rw [hPosition, view_eq_take, hWithin.source_eq]
  · rw [hPosition, peek_eq_getElem?, hWithin.source_eq]
  · rw [exhausted_iff, hWithin.source_eq]
  · intro step hStep
    obtain ⟨taken, hAccepted, hTaken⟩ := r.perform_consumes hStep
    exact ⟨taken, hAccepted, hTaken.position_eq, hTaken.view_eq⟩
  · intro slot offset hSlot
    rw [perform_restore hSlot]
    apply offset_rewind
    rw [hWithin.source_eq]
    exact hWithin.saved_le offset (List.mem_of_getElem? hSlot)
  · intro slot hSlot between later again distance
    obtain ⟨new, hSaved, hResumed⟩ := resumed_restore hSlot between
    have hDistance : distance = new.length := by
      simp only [distance, hSaved, List.length_append]
      omega
    rw [hDistance]
    exact ⟨hResumed.cursor_eq, hResumed.performAll later⟩

/-- A dangling exponent: its mark and sign are taken, the place behind them is saved in slot `2`,
and slot `1` leads back to the mark. What is saved from there on gets slot `3` in place of `2`. -/
theorem performAll_retraces_exponent :
    let text := "12e+".toList
    let r := (ofList text).after [.skipAll "0123456789".toList, .save]
    let between := [.accept 'e', .accept '+', .save, .restore 0]
    let later := [.peek, .save, .accept 'e', .restore 2, .view]
    let again := ((r.after between).perform (.restore 1)).2
    (∃ taken, Accepted (.accept 'e') (r.perform (.accept 'e')).1 taken ∧
        (r.perform (.accept 'e')).2.cursor.view = r.cursor.view ++ taken) ∧
      (2 ∈ r.saved ∧ 2 ≤ text.length) ∧
      r.saved[0]? = some 0 ∧ (r.perform (.restore 0)).2.cursor.offset = 0 ∧
      r.saved[1]? = some r.cursor.offset ∧ again.cursor = r.cursor ∧
      (again.performAll (later.map (.shift 2 1))).map
          (fun outcome => (outcome.1, outcome.2.cursor)) =
        (r.performAll later).map (fun outcome => (outcome.1.shift 2 1, outcome.2.cursor)) ∧
      (again.performAll (later.map (.shift 2 1))).map Prod.fst =
        [.character (some 'e'), .slot 3, .character (some 'e'), .done, .text "12".toList] := by
  intro text r between later again
  have hSlot : r.saved[1]? = some r.cursor.offset := by decide
  obtain ⟨⟨-, -, hSaved⟩, -, hMoves, hRestores, hRetraces⟩ :=
    performAll_retraces text [.skipAll "0123456789".toList, .save]
  obtain ⟨taken, hAccepted, -, hView⟩ := hMoves (.accept 'e') (fun _ => Step.noConfusion)
  have hPlace : 2 ∈ r.saved := by decide
  have hStart : r.saved[0]? = some 0 := by decide
  obtain ⟨hCursor, hAnswers⟩ := hRetraces 1 hSlot between later
  exact ⟨⟨taken, hAccepted, hView⟩, ⟨hPlace, hSaved 2 hPlace⟩, hStart, hRestores 0 0 hStart, hSlot,
    hCursor, hAnswers, by decide⟩

end Reader

end ReversePolish.Cursor
