/-
# Which branches count

The open conditionals change by a few operations. In whatever order these come, every
conditional knows whether what surrounds it counts, and its branch counts only where
that does and a branch has been chosen (`AreNested.applyAll`); so the present place
counts where all branches around it do (`AreNested.isLive_iff`).

Of the branches that a conditional goes through from its opening to its closing, at
most one ever counts (`AreNested.countsOnce`). What carries this is the mark that a
branch has been chosen: it is never taken back, and a conditional that has it goes on
only with branches that do not count (`exists_frameAt?_apply`).
-/
import Mathlib.Data.List.Infix
import CPreprocessor.Condition.Stack

namespace CPreprocessor

namespace ConditionStack

/-- What can be done to the open conditionals. -/
inductive Operation where
  | push (opener : Token) (condition : Bool) (includeDepth : Nat)
  | enterFurther (condition : Bool)
  | enterLast
  | skipRest
  | pop
  | popAbove (depth : Nat)

/-- The operation goes on with another branch of the innermost conditional. What is skipped behind
the last branch is a branch of its own. -/
def Operation.turns : Operation → Bool
  | .enterFurther _ | .enterLast | .skipRest => true
  | _ => false

/-- The open conditionals after an operation. One on the innermost conditional does nothing where
none is open. -/
def apply (stack : ConditionStack) : Operation → ConditionStack
  | .push opener condition includeDepth => stack.push opener condition includeDepth
  | .enterFurther condition => stack.enterFurther condition
  | .enterLast => stack.enterLast
  | .skipRest => stack.skipRest
  | .pop => stack.pop
  | .popAbove depth => (stack.popAbove depth).2

/-- The open conditionals after some operations, one after the other. -/
def applyAll (stack : ConditionStack) (operations : List Operation) : ConditionStack :=
  operations.foldl apply stack

/-- Every conditional knows whether what surrounds it counts, and its present branch counts only if
that does and a branch has been chosen. The innermost conditional comes first. -/
inductive AreNested : List ConditionFrame → Prop
  | nil : AreNested []
  | cons {frame : ConditionFrame} {outer : List ConditionFrame}
      (surrounded : frame.parentLive = (⟨outer⟩ : ConditionStack).isLive)
      (chosen : frame.live = true → frame.taken = true ∧ frame.parentLive = true)
      (nested : AreNested outer) : AreNested (frame :: outer)

variable {stack : ConditionStack} {frame : ConditionFrame} {level : Nat}

namespace AreNested

variable {frames : List ConditionFrame}

theorem chosen_of_mem (nested : AreNested frames) (isOpen : frame ∈ frames)
    (live : frame.live = true) : frame.taken = true ∧ frame.parentLive = true := by
  induction nested with
  | nil => cases isOpen
  | cons surrounded chosen nested ih =>
    obtain rfl | isOpen := List.mem_cons.mp isOpen
    · exact chosen live
    · exact ih isOpen

/-- A place counts exactly where every branch around it does. -/
theorem isLive_iff (nested : AreNested frames) :
    (⟨frames⟩ : ConditionStack).isLive = true ↔ ∀ frame ∈ frames, frame.live = true := by
  induction nested with
  | nil => simp [isLive]
  | @cons frame outer surrounded chosen nested ih =>
    rw [List.forall_mem_cons, ← ih, ← surrounded]
    exact ⟨fun live => ⟨live, (chosen live).2⟩, And.left⟩

theorem drop (nested : AreNested frames) (n : Nat) : AreNested (frames.drop n) := by
  induction nested generalizing n with
  | nil => simpa using AreNested.nil
  | cons surrounded chosen nested ih =>
    cases n with
    | zero => exact .cons surrounded chosen nested
    | succ n => exact ih n

/-- A change of the innermost conditional has to leave alone what surrounds it, and to choose a
branch if it makes it count. -/
theorem modifyTop (nested : AreNested stack.frames) {f : ConditionFrame → ConditionFrame}
    (surrounded : ∀ frame, (f frame).parentLive = frame.parentLive)
    (chosen : ∀ frame, (f frame).live = true → (f frame).taken = true ∧ frame.parentLive = true) :
    AreNested (stack.modifyTop f).frames := by
  obtain ⟨frames⟩ := stack
  cases nested with
  | nil => exact .nil
  | @cons frame outer around _ nested =>
    refine .cons ((surrounded frame).trans around) (fun live => ?_) nested
    rw [surrounded]
    exact chosen frame live

theorem apply (nested : AreNested stack.frames) (operation : Operation) :
    AreNested (stack.apply operation).frames := by
  cases operation with
  | push opener condition includeDepth =>
    refine .cons rfl (fun live => ?_) nested
    rw [Bool.and_eq_true] at live
    simp only [live.1, if_true]
    exact ⟨live.2, trivial⟩
  | enterFurther condition =>
    refine nested.modifyTop (fun _ => rfl) fun frame live => ?_
    simp only [Bool.and_eq_true] at live
    simp [live]
  | enterLast =>
    refine nested.modifyTop (fun _ => rfl) fun frame live => ?_
    rw [Bool.and_eq_true] at live
    exact ⟨rfl, live.2⟩
  | skipRest => exact nested.modifyTop (fun _ => rfl) fun _ live => absurd live Bool.false_ne_true
  | pop => exact nested.drop 1
  | popAbove depth => exact nested.drop _

theorem applyAll (nested : AreNested stack.frames) (operations : List Operation) :
    AreNested (stack.applyAll operations).frames := by
  induction operations generalizing stack with
  | nil => exact nested
  | cons operation operations ih => exact ih (nested.apply operation)

end AreNested

/-! ## One conditional -/

/-- The open conditional that stands inside `level` others. -/
def frameAt? (stack : ConditionStack) (level : Nat) : Option ConditionFrame :=
  stack.frames.reverse[level]?

/-- The present branch of the conditional at a level counts. -/
def countsAt (stack : ConditionStack) (level : Nat) : Bool :=
  (stack.frameAt? level).any ConditionFrame.live

/-- The operation goes on with another branch of the conditional at a level. -/
def turnsAt (stack : ConditionStack) (level : Nat) (operation : Operation) : Bool :=
  operation.turns && stack.depth = level + 1

/-- Which branch of the conditional at a level is read after some operations, its present one being
the branch 0. -/
def branchAfter (level : Nat) (stack : ConditionStack) : List Operation → Nat
  | [] => 0
  | operation :: operations =>
    branchAfter level (stack.apply operation) operations +
      if stack.turnsAt level operation then 1 else 0

/-- The conditional at a level is not closed while some operations are carried out. -/
def StaysOpen (level : Nat) (stack : ConditionStack) (operations : List Operation) : Prop :=
  ∀ part, part <+: operations → level < (stack.applyAll part).depth

instance (level : Nat) (stack : ConditionStack) (operations : List Operation) :
    Decidable (StaysOpen level stack operations) :=
  decidable_of_iff (∀ part ∈ operations.inits, level < (stack.applyAll part).depth)
    (forall_congr' fun part => by rw [List.mem_inits])

/-- At most one branch of the conditional at a level ever counts while some operations are carried
out. -/
def CountsOnce (level : Nat) (stack : ConditionStack) (operations : List Operation) : Prop :=
  ∃ branch, ∀ part, part <+: operations →
    (stack.applyAll part).countsAt level = true → stack.branchAfter level part = branch

theorem mem_of_frameAt? (isOpen : stack.frameAt? level = some frame) : frame ∈ stack.frames :=
  List.mem_reverse.mp (List.mem_of_getElem? isOpen)

theorem countsAt_of_frameAt? (isOpen : stack.frameAt? level = some frame) :
    stack.countsAt level = frame.live := by
  rw [countsAt, isOpen, Option.any_some]

theorem exists_frameAt? (isOpen : level < stack.depth) : ∃ frame, stack.frameAt? level = some frame :=
  ⟨_, List.getElem?_eq_getElem (by rwa [List.length_reverse])⟩

theorem frameAt?_cons {outer : List ConditionFrame} :
    (⟨frame :: outer⟩ : ConditionStack).frameAt? level =
      if level = outer.length then some frame else (⟨outer⟩ : ConditionStack).frameAt? level := by
  rw [frameAt?, frameAt?, List.reverse_cons, List.getElem?_append, List.length_reverse]
  split
  · rename_i inside
    rw [if_neg (Nat.ne_of_lt inside)]
  · rename_i outside
    rw [List.getElem?_singleton]
    by_cases own : level = outer.length
    · rw [if_pos own, if_pos (by omega)]
    · have above : outer.reverse.length ≤ level := by
        rw [List.length_reverse]
        exact Nat.not_lt.mp outside
      rw [if_neg own, if_neg (by omega), List.getElem?_eq_none above]

/-- Closing conditionals leaves those at the levels below as they are. -/
theorem frameAt?_drop (n : Nat) (stays : level < (stack.frames.drop n).length) :
    (⟨stack.frames.drop n⟩ : ConditionStack).frameAt? level = stack.frameAt? level := by
  rw [List.length_drop] at stays
  rw [frameAt?, frameAt?, List.reverse_drop, List.getElem?_take_of_lt stays]

theorem frameAt?_modifyTop (f : ConditionFrame → ConditionFrame) :
    (stack.modifyTop f).frameAt? level =
      if stack.depth = level + 1 then (stack.frameAt? level).map f else stack.frameAt? level := by
  obtain ⟨frames⟩ := stack
  cases frames with
  | nil => simp [modifyTop, frameAt?]
  | cons frame outer =>
    rw [modifyTop, frameAt?_cons, frameAt?_cons, depth, List.length_cons]
    by_cases own : level = outer.length
    · rw [if_pos own, if_pos own, if_pos (by omega)]
      rfl
    · rw [if_neg own, if_neg own, if_neg (by omega)]

/-- A conditional of which a branch has been chosen keeps this mark when it turns to another branch,
and that branch does not count. -/
def TurnsAway (frame next : ConditionFrame) : Prop :=
  frame.taken = true → next.taken = true ∧ next.live = false

theorem exists_frameAt?_modifyTop {f : ConditionFrame → ConditionFrame}
    (turnsAway : ∀ frame, TurnsAway frame (f frame)) (isOpen : stack.frameAt? level = some frame) :
    ∃ next, (stack.modifyTop f).frameAt? level = some next ∧
      if stack.depth = level + 1 then TurnsAway frame next else next = frame := by
  rw [frameAt?_modifyTop, isOpen]
  split
  · exact ⟨f frame, rfl, turnsAway frame⟩
  · exact ⟨frame, rfl, rfl⟩

/-- An operation that does not close a conditional leaves it as it is, unless it goes on with
another branch of it. -/
theorem exists_frameAt?_apply (operation : Operation) (isOpen : stack.frameAt? level = some frame)
    (stays : level < (stack.apply operation).depth) :
    ∃ next, (stack.apply operation).frameAt? level = some next ∧
      if stack.turnsAt level operation then TurnsAway frame next else next = frame := by
  have inside : level < stack.frames.length := by
    have bound := (List.getElem?_eq_some_iff.mp isOpen).1
    rwa [List.length_reverse] at bound
  simp only [turnsAt, Bool.and_eq_true, decide_eq_true_eq]
  cases operation with
  | push opener condition includeDepth =>
    refine ⟨frame, ?_, rfl⟩
    rw [← isOpen]
    exact frameAt?_cons.trans (if_neg (Nat.ne_of_lt inside))
  | enterFurther condition =>
    simp only [Operation.turns, true_and]
    exact exists_frameAt?_modifyTop (fun _ taken => by simp [taken]) isOpen
  | enterLast =>
    simp only [Operation.turns, true_and]
    exact exists_frameAt?_modifyTop (fun _ taken => by simp [taken]) isOpen
  | skipRest =>
    simp only [Operation.turns, true_and]
    exact exists_frameAt?_modifyTop (fun _ _ => ⟨rfl, rfl⟩) isOpen
  | pop => exact ⟨frame, (frameAt?_drop _ stays).trans isOpen, rfl⟩
  | popAbove depth => exact ⟨frame, (frameAt?_drop _ stays).trans isOpen, rfl⟩

/-! ## From its opening to its closing -/

variable {operation : Operation} {operations part : List Operation}

theorem StaysOpen.head (stays : StaysOpen level stack operations) : level < stack.depth :=
  stays [] List.nil_prefix

theorem StaysOpen.tail (stays : StaysOpen level stack (operation :: operations)) :
    StaysOpen level (stack.apply operation) operations :=
  fun part ends => stays (operation :: part) (List.cons_prefix_cons.mpr ⟨rfl, ends⟩)

/-- Where a branch of a conditional has been chosen, no branch counts but the present one. -/
theorem branchAfter_of_taken (isOpen : stack.frameAt? level = some frame) (taken : frame.taken = true)
    (stays : StaysOpen level stack operations) (ends : part <+: operations)
    (counts : (stack.applyAll part).countsAt level = true) :
    stack.branchAfter level part = 0 ∧ frame.live = true := by
  induction operations generalizing stack frame part with
  | nil =>
    obtain rfl := List.prefix_nil.mp ends
    exact ⟨rfl, (countsAt_of_frameAt? isOpen).symm.trans counts⟩
  | cons operation operations ih =>
    obtain rfl | ⟨part, rfl, more⟩ := List.prefix_cons_iff.mp ends
    · exact ⟨rfl, (countsAt_of_frameAt? isOpen).symm.trans counts⟩
    · obtain ⟨next, found, change⟩ := exists_frameAt?_apply operation isOpen stays.tail.head
      by_cases turns : stack.turnsAt level operation = true
      · -- The branch that it turns to does not count, and so none does from here on.
        rw [if_pos turns] at change
        obtain ⟨kept, dead⟩ := change taken
        have later := (ih found kept stays.tail more counts).2
        rw [dead] at later
        cases later
      · rw [if_neg turns] at change
        subst change
        obtain ⟨same, live⟩ := ih found taken stays.tail more counts
        rw [branchAfter, if_neg turns, same]
        exact ⟨rfl, live⟩

theorem AreNested.countsOnce (nested : AreNested stack.frames)
    (stays : StaysOpen level stack operations) : CountsOnce level stack operations := by
  induction operations generalizing stack with
  | nil =>
    refine ⟨0, fun part ends _ => ?_⟩
    obtain rfl := List.prefix_nil.mp ends
    rfl
  | cons operation operations ih =>
    obtain ⟨frame, isOpen⟩ := exists_frameAt? stays.head
    by_cases taken : frame.taken = true
    · exact ⟨0, fun _ ends counts => (branchAfter_of_taken isOpen taken stays ends counts).1⟩
    · -- No branch has been chosen, so the present one does not count.
      obtain ⟨branch, once⟩ := ih (nested.apply operation) stays.tail
      refine ⟨branch + if stack.turnsAt level operation then 1 else 0, fun part ends counts => ?_⟩
      obtain rfl | ⟨part, rfl, more⟩ := List.prefix_cons_iff.mp ends
      · have live : frame.live = true := (countsAt_of_frameAt? isOpen).symm.trans counts
        exact absurd (nested.chosen_of_mem (mem_of_frameAt? isOpen) live).1 taken
      · rw [branchAfter, once part more counts]

/-- After any operations on no conditionals at first, every open conditional knows whether what
surrounds it counts, a branch counts only if that does and it has been chosen, and the present place
counts exactly if all branches around it do. A conditional that is opened then has, until it is
closed, at most one branch that ever counts. -/
theorem areNested_countsOnce_applyAll (operations : List Operation) :
    let stack := ({} : ConditionStack).applyAll operations
    AreNested stack.frames ∧
      (stack.isLive = true ↔ ∀ frame ∈ stack.frames, frame.live = true) ∧
      ∀ opener condition includeDepth later,
        StaysOpen stack.depth (stack.push opener condition includeDepth) later →
          CountsOnce stack.depth (stack.push opener condition includeDepth) later := by
  intro stack
  have nested : AreNested stack.frames := AreNested.nil.applyAll operations
  refine ⟨nested, nested.isLive_iff, fun opener condition includeDepth later stays => ?_⟩
  exact (nested.apply (.push opener condition includeDepth)).countsOnce stays

/-- Of the five branches of a conditional the second one counts, around another conditional. -/
theorem areNested_countsOnce_applyAll_second :
    let opener := Token.endOfNothing
    let stack := ({} : ConditionStack).applyAll [.push opener true 0]
    let later : List Operation := [.enterFurther true, .push opener true 1, .popAbove 2,
      .enterFurther true, .enterLast, .skipRest]
    StaysOpen stack.depth (stack.push opener false 0) later ∧
      CountsOnce stack.depth (stack.push opener false 0) later ∧
        ((stack.push opener false 0).applyAll [.enterFurther true]).countsAt stack.depth = true := by
  intro opener stack later
  have stays : StaysOpen stack.depth (stack.push opener false 0) later := by decide
  exact ⟨stays, (areNested_countsOnce_applyAll [.push opener true 0]).2.2 opener false 0 later stays,
    by decide⟩

end ConditionStack

end CPreprocessor
