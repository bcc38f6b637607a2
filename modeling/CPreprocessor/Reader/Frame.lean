/-
# Open files

A frame is a file that is being read. The innermost file stands first. Frames are
counted on levels, so that reading ends: a file stands one level below the file
that includes it, and what one include directive adds is on a lower level than
the directive that is used up.
-/
import CPreprocessor.Reader.Guard
import CPreprocessor.Termination.Levels

namespace CPreprocessor

/-- A file that is being read. -/
structure Frame where
  lexer : Lexer
  /-- The path that the file was opened with. -/
  path : Text
  /-- The path that tells it from other files. -/
  canonical : Text
  /-- Its place on the search path, if it was found there. -/
  searchIndex : Option Nat
  /-- The number of files that include it. -/
  includeDepth : Nat
  /-- The number of conditionals that were open before it. -/
  conditionDepth : Nat
  /-- Whether it holds the definitions that come before the main file. -/
  isPreamble : Bool
  guard : Guard := .unread

namespace Frame

/-- What is left of a file: what its lexer has to read, and its end. -/
def size (frame : Frame) : Nat :=
  frame.lexer.size + 1

/-- What is left of all files that stand on a level of at least `level`. -/
def weight (maxDepth level : Nat) : List Frame → Nat
  | [] => 0
  | frame :: outer =>
    (if level ≤ maxDepth - frame.includeDepth then frame.size else 0) + weight maxDepth level outer

/-- What is left of some files, by levels. -/
def levels (maxDepth : Nat) (frames : List Frame) : Levels :=
  ⟨maxDepth, fun level => weight maxDepth level frames⟩

variable {maxDepth : Nat} {frame frame' new : Frame} {outer : List Frame}

/-- A file that is read leaves less. -/
theorem levels_of_shorter (depth : frame'.includeDepth = frame.includeDepth)
    (shorter : frame'.size < frame.size) :
    Levels.Below (levels maxDepth (frame' :: outer)) (levels maxDepth (frame :: outer)) := by
  refine .inr ⟨rfl, 0, Nat.zero_le _, ?_, fun level _ _ => ?_⟩
  · simp only [levels, weight, Nat.zero_le, if_true]
    omega
  · simp only [levels, weight, depth]
    split <;> omega

/-- A file that is closed leaves less. -/
theorem levels_of_close :
    Levels.Below (levels maxDepth outer) (levels maxDepth (frame :: outer)) := by
  refine .inr ⟨rfl, 0, Nat.zero_le _, ?_, fun level _ _ => ?_⟩
  · simp only [levels, weight, Nat.zero_le, if_true, size]
    omega
  · exact Nat.le_add_left _ _

/-- A file that is entered is worth less than what was read to enter it. -/
theorem levels_of_enter (depth : frame'.includeDepth = frame.includeDepth)
    (shorter : frame'.size < frame.size) (deeper : new.includeDepth = frame.includeDepth + 1)
    (allowed : new.includeDepth ≤ maxDepth) :
    Levels.Below (levels maxDepth (new :: frame' :: outer)) (levels maxDepth (frame :: outer)) := by
  refine .inr ⟨rfl, maxDepth - frame.includeDepth, Nat.sub_le _ _, ?_, fun level high _ => ?_⟩
  · simp only [levels, weight, depth, Nat.le_refl, if_true]
    rw [if_neg (by omega)]
    omega
  · simp only [levels, weight, depth]
    rw [if_neg (by omega), if_neg (by omega)]
    omega

end Frame

end CPreprocessor
