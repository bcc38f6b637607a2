/-
# Open conditionals

Every conditional that is open has a frame: which of its branches is being read,
whether that branch counts, and whether one of its branches has been chosen. A
branch counts only if everything around it counts.
-/
import CPreprocessor.Token

namespace CPreprocessor

/-- The branches of a conditional. -/
inductive Branch where
  /-- After `#if`, `#ifdef` or `#ifndef`. -/
  | first
  /-- After `#elif`, `#elifdef` or `#elifndef`. -/
  | further
  /-- After `#else`. -/
  | last
  deriving DecidableEq, Repr

/-- An open conditional. -/
structure ConditionFrame where
  branch : Branch
  /-- The token that opened the conditional. -/
  opener : Token
  /-- The present branch counts. -/
  live : Bool
  /-- A branch has been chosen, or none may be. -/
  taken : Bool
  /-- What surrounds the conditional counts. -/
  parentLive : Bool
  /-- How deep the file that opened the conditional is included. -/
  includeDepth : Nat

/-- The open conditionals, the innermost first. -/
structure ConditionStack where
  frames : List ConditionFrame := []

instance : Inhabited ConditionStack := ⟨{}⟩

namespace ConditionStack

/-- The present place counts. Outside of all conditionals everything does. -/
def isLive (stack : ConditionStack) : Bool :=
  match stack.frames with
  | [] => true
  | frame :: _ => frame.live

/-- The number of open conditionals. -/
def depth (stack : ConditionStack) : Nat :=
  stack.frames.length

/-- The innermost conditional. -/
def top? (stack : ConditionStack) : Option ConditionFrame :=
  stack.frames.head?

/-- Open a conditional. Where nothing counts, no branch of it will. -/
def push (stack : ConditionStack) (opener : Token) (condition : Bool) (includeDepth : Nat) :
    ConditionStack :=
  let parentLive := stack.isLive
  let frame : ConditionFrame :=
    { branch := .first, opener, live := parentLive && condition,
      taken := if parentLive then condition else true, parentLive, includeDepth }
  ⟨frame :: stack.frames⟩

/-- The condition of a further branch would count. -/
def needsCondition (stack : ConditionStack) : Bool :=
  match stack.frames with
  | [] => false
  | frame :: _ => !frame.taken && frame.parentLive

/-- Change the innermost conditional. -/
def modifyTop (stack : ConditionStack) (f : ConditionFrame → ConditionFrame) : ConditionStack :=
  match stack.frames with
  | [] => stack
  | frame :: outer => ⟨f frame :: outer⟩

/-- Go on with a further branch. -/
def enterFurther (stack : ConditionStack) (condition : Bool) : ConditionStack :=
  stack.modifyTop fun frame =>
    let live := !frame.taken && frame.parentLive && condition
    { frame with branch := .further, live, taken := frame.taken || live }

/-- Go on with the last branch. -/
def enterLast (stack : ConditionStack) : ConditionStack :=
  stack.modifyTop fun frame =>
    { frame with branch := .last, live := !frame.taken && frame.parentLive, taken := true }

/-- Let nothing more of the innermost conditional count. -/
def skipRest (stack : ConditionStack) : ConditionStack :=
  stack.modifyTop fun frame => { frame with live := false, taken := true }

/-- Close the innermost conditional. -/
def pop (stack : ConditionStack) : ConditionStack :=
  ⟨stack.frames.drop 1⟩

/-- Close conditionals until `depth` of them are open. The closed ones come innermost first. -/
def popAbove (stack : ConditionStack) (depth : Nat) : List ConditionFrame × ConditionStack :=
  let n := stack.depth - depth
  (stack.frames.take n, ⟨stack.frames.drop n⟩)

end ConditionStack

end CPreprocessor
