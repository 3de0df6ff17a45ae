import Mathlib.Data.List.Induction
import Mathlib.Data.List.Infix
import Mathlib.Data.List.Sigma
import ReversePolish.Stack.Script

/-!
# What a stack takes in and gives out

The values that a stack has taken in are numbered in the order in which they were added, those that
it started with from bottom to top. A ledger records them, and which of them have been taken. It
knows nothing of the stack: `Ledger.Entry` says which answers fit a ledger, one constructor for each
way in which a step can go. A script without a clearing step has only answers that fit, so no value
is lost, doubled or out of its turn.

* `Ledger.Accounts.perform`, `Ledger.Accounts.after`: the ledger accounts for the stack after a step,
  and so after a script.
* `exists_above_after`: steps that never take more than they have pushed leave what was there before
  them. This is asked of all their beginnings, so the induction takes steps off the end.
* `performAll_conserves`: what follows for every script that does not clear the stack.
-/

namespace ReversePolish.Stack

variable {s : Stack} {script block : List Step}

/-! ## What a script pushes and takes -/

/-- The stack that a script leaves. -/
def after (s : Stack) (script : List Step) : Stack :=
  script.foldl (fun s step => (s.perform step).2) s

def answers (s : Stack) (script : List Step) : List Answer := (s.performAll script).map Prod.fst

def Step.pushed? : Step → Option Binary64
  | .push x => some x
  | _ => none

def Answer.taken? : Answer → Option Binary64
  | .taken x => x
  | _ => none

/-- The values that a script pushes, in order. -/
def pushed (script : List Step) : List Binary64 := script.filterMap Step.pushed?

/-- The values that are taken according to the answers, in order. -/
def popped (answers : List Answer) : List Binary64 := answers.filterMap Answer.taken?

theorem after_cons (s : Stack) (step : Step) (script : List Step) :
    s.after (step :: script) = (s.perform step).2.after script := rfl

theorem answers_cons (s : Stack) (step : Step) (script : List Step) :
    s.answers (step :: script) = (s.perform step).1 :: (s.perform step).2.answers script := rfl

theorem pushed_cons (step : Step) (script : List Step) :
    pushed (step :: script) = step.pushed?.toList ++ pushed script := by
  rw [pushed, List.filterMap_cons]
  cases step.pushed? <;> rfl

theorem popped_cons (answer : Answer) (answers : List Answer) :
    popped (answer :: answers) = answer.taken?.toList ++ popped answers := by
  rw [popped, List.filterMap_cons]
  cases answer.taken? <;> rfl

theorem after_append (s : Stack) (first second : List Step) :
    s.after (first ++ second) = (s.after first).after second := List.foldl_append

theorem answers_append (s : Stack) (first second : List Step) :
    s.answers (first ++ second) = s.answers first ++ (s.after first).answers second := by
  induction first generalizing s with
  | nil => rfl
  | cons step first ih =>
    rw [List.cons_append, answers_cons, answers_cons, ih, after_cons, List.cons_append]

theorem pushed_append (first second : List Step) :
    pushed (first ++ second) = pushed first ++ pushed second := List.filterMap_append

theorem popped_append (first second : List Answer) :
    popped (first ++ second) = popped first ++ popped second := List.filterMap_append

/-- Nothing is taken exactly from the empty stack. -/
theorem perform_pop_eq_none_iff (s : Stack) :
    (s.perform .pop).1 = .taken none ↔ s.toList = [] := by
  obtain ⟨_ | ⟨x, rest⟩⟩ := s
  · exact iff_of_true rfl rfl
  · simp [perform, pop?, toList]

theorem isEmpty_iff (s : Stack) : s.isEmpty = true ↔ s.toList = [] := by
  rw [isEmpty, List.isEmpty_iff, toList, List.reverse_eq_nil_iff]

theorem perform_pop_of_none (h : (s.perform .pop).1 = .taken none) : (s.perform .pop).2 = s := by
  obtain ⟨_ | ⟨x, rest⟩⟩ := s
  · rfl
  · simp [perform, pop?] at h

/-- A step that does not clear the stack pushes a value, or takes the one on top, or changes
nothing. -/
theorem step_cases (s : Stack) {step : Step} (hStep : step ≠ .clear) :
    (∃ x, pushed [step] = [x] ∧ popped (s.answers [step]) = [] ∧ s.after [step] = s.push x) ∨
    (∃ x, ∃ rest : Stack, pushed [step] = [] ∧ popped (s.answers [step]) = [x] ∧
      s = rest.push x ∧ s.after [step] = rest) ∨
    (pushed [step] = [] ∧ popped (s.answers [step]) = [] ∧ s.after [step] = s) := by
  cases step with
  | push x => exact Or.inl ⟨x, rfl, rfl, rfl⟩
  | pop =>
    obtain ⟨_ | ⟨x, rest⟩⟩ := s
    · exact Or.inr (Or.inr ⟨rfl, rfl, rfl⟩)
    · exact Or.inr (Or.inl ⟨x, ⟨rest⟩, rfl, rfl, rfl, rfl⟩)
  | clear => exact absurd rfl hStep
  | list => exact Or.inr (Or.inr ⟨rfl, rfl, rfl⟩)
  | display => exact Or.inr (Or.inr ⟨rfl, rfl, rfl⟩)
  | compare values => exact Or.inr (Or.inr ⟨rfl, rfl, rfl⟩)

/-! ## The ledger -/

/-- All values that have been added, the oldest first, and those of them that have been taken, each
with its number in the order of adding. The number tells equal values apart. -/
structure Ledger where
  added : List Binary64
  taken : List (Binary64 × Nat)

namespace Ledger

variable {l l' : Ledger}

/-- The values that have not been taken, with their numbers, the oldest first. -/
def left (l : Ledger) : List (Binary64 × Nat) := l.added.zipIdx.filter (· ∉ l.taken)

/-- The answer to a step fits the first ledger, which goes on as the second. What is taken is the
value that was added last of those that are left, and nothing is taken only once as many values have
been taken as were added. The values are listed in the order in which they were added. -/
inductive Entry : Ledger → Step → Answer → Ledger → Prop
  | push {l : Ledger} {x : Binary64} : Entry l (.push x) .done ⟨l.added ++ [x], l.taken⟩
  | pop {l : Ledger} {x : Binary64} {i : Nat} (h : l.left.getLast? = some (x, i)) :
      Entry l .pop (.taken (some x)) ⟨l.added, l.taken ++ [(x, i)]⟩
  | underflow {l : Ledger} (h : l.taken.length = l.added.length) : Entry l .pop (.taken none) l
  | list {l : Ledger} : Entry l .list (.values (l.left.map Prod.fst)) l
  | display {l : Ledger} {text : String} : Entry l .display (.text text) l
  | compare {l : Ledger} {values : List Binary64} {b : Bool} : Entry l (.compare values) (.flag b) l

/-- The answers to the steps of a script fit, one after the other. -/
inductive Entries : Ledger → List Step → List Answer → Ledger → Prop
  | nil {l : Ledger} : Entries l [] [] l
  | cons {l middle l' : Ledger} {step : Step} {answer : Answer} {script : List Step}
      {answers : List Answer} (hEntry : Entry l step answer middle)
      (hRest : Entries middle script answers l') :
      Entries l (step :: script) (answer :: answers) l'

theorem Entry.added_eq {step : Step} {answer : Answer} (h : Entry l step answer l') :
    l'.added = l.added ++ step.pushed?.toList := by
  cases h <;> simp [Step.pushed?]

theorem Entry.taken_eq {step : Step} {answer : Answer} (h : Entry l step answer l') :
    l'.taken.map Prod.fst = l.taken.map Prod.fst ++ answer.taken?.toList := by
  cases h <;> simp [Answer.taken?]

theorem Entries.added_eq {answers : List Answer} (h : Entries l script answers l') :
    l'.added = l.added ++ pushed script := by
  induction h with
  | nil => exact (List.append_nil _).symm
  | cons hEntry _ ih => rw [ih, hEntry.added_eq, List.append_assoc, pushed_cons]

theorem Entries.taken_eq {answers : List Answer} (h : Entries l script answers l') :
    l'.taken.map Prod.fst = l.taken.map Prod.fst ++ popped answers := by
  induction h with
  | nil => exact (List.append_nil _).symm
  | cons hEntry _ ih => rw [ih, hEntry.taken_eq, List.append_assoc, popped_cons]

/-! ### What is left after an entry -/

theorem nodup_left (l : Ledger) : l.left.Nodup :=
  ((List.nodup_zipIdx_map_snd l.added).of_map Prod.snd).filter _

theorem left_push {x : Binary64} (h : ∀ item ∈ l.taken, item.2 < l.added.length) :
    left ⟨l.added ++ [x], l.taken⟩ = l.left ++ [(x, l.added.length)] := by
  have hNew : (x, l.added.length) ∉ l.taken := fun hTaken => (h _ hTaken).false
  simp [left, List.zipIdx_append, hNew]

theorem left_pop {rest : List (Binary64 × Nat)} {item : Binary64 × Nat}
    (h : l.left = rest ++ [item]) : left ⟨l.added, l.taken ++ [item]⟩ = rest := by
  have hNodup : (rest ++ [item]).Nodup := h ▸ l.nodup_left
  have hRest : ∀ other ∈ rest, other ≠ item := by
    rintro other hOther rfl
    exact List.disjoint_of_nodup_append hNodup hOther (by simp)
  calc left ⟨l.added, l.taken ++ [item]⟩
      = l.left.filter (· ≠ item) := by
        rw [left, left, List.filter_filter]
        congr 1
        funext other
        simp [and_comm]
    _ = rest := by
        rw [h, List.filter_append, List.filter_eq_self.mpr (by simpa using hRest)]
        simp

/-! ### The stack of a ledger -/

/-- The ledger accounts for the stack: the values that are left are those on the stack, and these
and the ones taken are all that have been added, each of them once. -/
structure Accounts (l : Ledger) (s : Stack) : Prop where
  left_eq : l.left.map Prod.fst = s.toList
  perm : (l.taken ++ l.left).Perm l.added.zipIdx

theorem accounts_ofList (initial : List Binary64) : Accounts ⟨initial, []⟩ (ofList initial) := by
  have hLeft : left ⟨initial, []⟩ = initial.zipIdx := by simp [left]
  constructor
  · rw [hLeft, List.zipIdx_map_fst, toList_ofList]
  · rw [hLeft, List.nil_append]

namespace Accounts

theorem lt_length (h : Accounts l s) : ∀ item ∈ l.taken, item.2 < l.added.length := by
  intro item hItem
  have hAdded := h.perm.subset (List.mem_append_left _ hItem)
  simpa using (List.mem_zipIdx hAdded).2.1

theorem perm_added (h : Accounts l s) :
    (l.taken.map Prod.fst ++ s.toList).Perm l.added := by
  have hValues := h.perm.map Prod.fst
  rwa [List.map_append, h.left_eq, List.zipIdx_map_fst] at hValues

theorem length_eq_iff (h : Accounts l s) : l.taken.length = l.added.length ↔ s.toList = [] := by
  have hLength := h.perm_added.length_eq
  rw [List.length_append, List.length_map] at hLength
  rw [← List.length_eq_zero_iff]
  omega

theorem push (h : Accounts l s) (x : Binary64) :
    Accounts ⟨l.added ++ [x], l.taken⟩ (s.push x) := by
  constructor
  · rw [left_push h.lt_length, List.map_append, h.left_eq, toList_push]
    rfl
  · rw [left_push h.lt_length, List.zipIdx_append, ← List.append_assoc]
    simpa using h.perm.append_right [(x, l.added.length)]

/-- The value on top is the last one left. -/
theorem pop {x : Binary64} (h : Accounts l (s.push x)) :
    ∃ i, l.left.getLast? = some (x, i) ∧ Accounts ⟨l.added, l.taken ++ [(x, i)]⟩ s := by
  have hLeft := h.left_eq
  rw [toList_push] at hLeft
  obtain ⟨rest, last, hSplit, hRest, hLast⟩ := List.map_eq_append_iff.mp hLeft
  obtain ⟨⟨y, i⟩, rfl, rfl⟩ := List.map_eq_singleton_iff.mp hLast
  refine ⟨i, by simp [hSplit], ?_, ?_⟩
  · rw [left_pop hSplit, hRest]
  · have hPerm := h.perm
    rw [hSplit] at hPerm
    rw [left_pop hSplit, List.append_assoc]
    exact (List.perm_append_comm.append_left _).trans hPerm

theorem perform (h : Accounts l s) {step : Step} (hStep : step ≠ .clear) :
    ∃ l', Entry l step (s.perform step).1 l' ∧ Accounts l' (s.perform step).2 := by
  cases step with
  | push x => exact ⟨_, .push, h.push x⟩
  | pop =>
    obtain ⟨_ | ⟨x, rest⟩⟩ := s
    · exact ⟨l, .underflow (h.length_eq_iff.mpr rfl), h⟩
    · obtain ⟨i, hLast, hNext⟩ := pop (s := ⟨rest⟩) h
      exact ⟨_, .pop hLast, hNext⟩
  | clear => exact absurd rfl hStep
  | list =>
    refine ⟨l, ?_, h⟩
    rw [Stack.perform, ← h.left_eq]
    exact .list
  | display => exact ⟨l, .display, h⟩
  | compare values => exact ⟨l, .compare, h⟩

theorem after (h : Accounts l s) (hScript : .clear ∉ script) :
    ∃ l', Entries l script (s.answers script) l' ∧ Accounts l' (s.after script) := by
  induction script generalizing l s with
  | nil => exact ⟨l, .nil, h⟩
  | cons step script ih =>
    rw [List.mem_cons, not_or] at hScript
    obtain ⟨middle, hEntry, hMiddle⟩ := h.perform (Ne.symm hScript.1)
    obtain ⟨l', hEntries, hAfter⟩ := ih hMiddle hScript.2
    exact ⟨l', .cons hEntry hEntries, hAfter⟩

end Accounts

end Ledger

/-! ## Balanced blocks -/

/-- From this stack on, the steps have never taken more values than they have pushed. -/
def Covered (s : Stack) (block : List Step) : Prop :=
  ∀ first, first <+: block → (popped (s.answers first)).length ≤ (pushed first).length

/-- From this stack on, the steps take as many values as they push, and never more on the way. -/
structure Balanced (s : Stack) (block : List Step) : Prop where
  settled : (popped (s.answers block)).length = (pushed block).length
  covered : Covered s block

theorem Covered.of_append {first second : List Step} (h : Covered s (first ++ second)) :
    Covered s first := fun earlier hEarlier =>
  h earlier (hEarlier.trans (List.prefix_append first second))

/-- What has been pushed and not taken lies above what was there before. -/
theorem exists_above_after (hBlock : .clear ∉ block) (hCovered : Covered s block) :
    ∃ above : List Binary64, s.after block = ⟨above ++ s.values⟩ ∧
      above.length + (popped (s.answers block)).length = (pushed block).length := by
  induction block using List.reverseRecOn with
  | nil => exact ⟨[], rfl, rfl⟩
  | append_singleton block step ih =>
    rw [List.mem_append, not_or, List.mem_singleton] at hBlock
    obtain ⟨above, hAfter, hLength⟩ := ih hBlock.1 hCovered.of_append
    have hLast := hCovered (block ++ [step]) List.prefix_rfl
    rw [answers_append, popped_append, pushed_append, List.length_append,
      List.length_append] at hLast ⊢
    rw [after_append]
    rcases (s.after block).step_cases (Ne.symm hBlock.2) with
      ⟨x, hPushed, hPopped, hNext⟩ | ⟨x, rest, hPushed, hPopped, hStack, hNext⟩ |
        ⟨hPushed, hPopped, hNext⟩
    · rw [hPushed, hPopped, hNext, hAfter]
      refine ⟨x :: above, rfl, ?_⟩
      simp only [List.length_cons, List.length_nil]
      omega
    · rw [hPushed, hPopped] at hLast ⊢
      rw [hNext]
      have hValues : above ++ s.values = x :: rest.values := by
        rw [hAfter] at hStack
        exact congrArg values hStack
      simp only [List.length_cons, List.length_nil] at hLast ⊢
      -- With nothing above, the block would have taken one more than it has pushed.
      cases above with
      | nil =>
        rw [List.length_nil] at hLength
        omega
      | cons y above =>
        obtain ⟨rfl, hRest⟩ := List.cons.inj hValues
        refine ⟨above, congrArg mk hRest.symm, ?_⟩
        rw [List.length_cons] at hLength
        omega
    · rw [hPushed, hPopped, hNext]
      exact ⟨above, hAfter, hLength⟩

theorem Balanced.after_eq (h : Balanced s block) (hBlock : .clear ∉ block) :
    s.after block = s := by
  obtain ⟨above, hAfter, hLength⟩ := exists_above_after hBlock h.covered
  have hNil : above = [] := by
    rw [← List.length_eq_zero_iff]
    have := h.settled
    omega
  rw [hAfter, hNil, List.nil_append]

/-- **A stack loses, doubles and reorders nothing.** For all values that a stack starts with, and
after every script that does not clear it, and so after every step of one:

* the values taken and those that are left are the ones that it started with and the ones pushed,
  word for word and as many times;
* all answers fit a ledger. So every value that is taken is the one that was added last of those not
  taken before, and those that are left are in the order in which they were added;
* to take a value fails exactly if as many have been taken as were ever added, and changes nothing
  then;
* a block of steps that takes as many values as it pushes, and never more on the way, leaves the
  stack as it was;
* the size is the number of values, and the stack is empty if there are none. -/
theorem performAll_conserves (initial : List Binary64) (hScript : .clear ∉ script) :
    let s := (ofList initial).after script
    let answers := (ofList initial).answers script
    let added := initial ++ pushed script
    (popped answers ++ s.toList).Perm added ∧
    (∃ l, Ledger.Entries ⟨initial, []⟩ script answers l ∧ l.added = added ∧
      l.taken.map Prod.fst = popped answers ∧ l.left.map Prod.fst = s.toList) ∧
    (((s.perform .pop).1 = .taken none ↔ (popped answers).length = added.length) ∧
      ((s.perform .pop).1 = .taken none → (s.perform .pop).2 = s)) ∧
    (∀ block, .clear ∉ block → Balanced s block → s.after block = s) ∧
    s.size = s.toList.length ∧ (s.isEmpty = true ↔ s.toList = []) := by
  intro s answers added
  obtain ⟨l, hEntries, hAccounts⟩ := (Ledger.accounts_ofList initial).after hScript
  have hAdded : l.added = added := hEntries.added_eq
  have hTaken : l.taken.map Prod.fst = popped answers := hEntries.taken_eq
  refine ⟨?_, ⟨l, hEntries, hAdded, hTaken, hAccounts.left_eq⟩, ⟨?_, perform_pop_of_none⟩,
    fun block hBlock hBalanced => hBalanced.after_eq hBlock, s.length_toList.symm, s.isEmpty_iff⟩
  · rw [← hTaken, ← hAdded]
    exact hAccounts.perm_added
  · rw [perform_pop_eq_none_iff, ← hTaken, List.length_map, ← hAdded]
    exact hAccounts.length_eq_iff.symm

/-- A negative zero and a NaN with a payload, which as a number differs from itself. Both are taken
as the words that they are, and then there is none to take. A block on the negative zero pushes the
NaN and another zero and takes them again. -/
theorem performAll_conserves_nan :
    let minus := Binary64.zero true
    let nan : Binary64 := ⟨true, 0x7ff8000000000001, by decide⟩
    let script : List Step := [.push nan, .pop, .list, .pop, .pop]
    let block : List Step := [.push nan, .push (.zero false), .pop, .display, .pop]
    let s := (ofList [minus]).after script
    nan.numEq nan = false ∧ .clear ∉ script ∧
      (popped ((ofList [minus]).answers script) ++ s.toList).Perm [minus, nan] ∧
      popped ((ofList [minus]).answers script) = [nan, minus] ∧
      (s.perform .pop).1 = .taken none ∧ (s.perform .pop).2 = s ∧
      .clear ∉ block ∧ Balanced (ofList [minus]) block ∧
      (ofList [minus]).after block = ofList [minus] := by
  intro minus nan script block s
  have hScript : .clear ∉ script := by decide
  have hBlock : .clear ∉ block := by decide
  have hBalanced : Balanced (ofList [minus]) block := by
    refine ⟨by decide, ?_⟩
    intro first hFirst
    rw [← List.mem_inits] at hFirst
    revert first
    decide
  have hNone : (s.perform .pop).1 = .taken none := by decide
  obtain ⟨hPerm, -, ⟨-, hStays⟩, -⟩ := performAll_conserves [minus] hScript
  obtain ⟨-, -, -, hLeaves, -⟩ := performAll_conserves [minus] (List.not_mem_nil (a := Step.clear))
  exact ⟨by decide, hScript, hPerm, by decide, hNone, hStays hNone, hBlock, hBalanced,
    hLeaves block hBlock hBalanced⟩

end ReversePolish.Stack
