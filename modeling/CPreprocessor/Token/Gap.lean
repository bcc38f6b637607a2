/-
# Gaps between lexemes

Between two lexemes stand blanks, line feeds and comments. A comment counts as one
blank: a block comment that spans lines does not start a new logical line, and a
line comment ends before its line feed.
-/
import CPreprocessor.Text

namespace CPreprocessor

/-- What stands before the next lexeme. -/
structure Gap where
  length : Nat := 0
  /-- A line feed outside comments is part of the gap. -/
  newline : Bool := false
  /-- The gap ends with a block comment that the text does not close. -/
  openComment : Bool := false
  deriving DecidableEq, Repr, Inhabited

namespace Gap

/-- The length of a block comment, read after its two opening bytes, and whether it is closed. -/
def blockComment (rest : Text) : Nat × Bool :=
  match Text.find? ['*', '/'] rest with
  | some inside => (inside + 2, true)
  | none => (rest.length, false)

/-- A gap after some bytes that belong to it as well. -/
def after (n : Nat) (newline : Bool) (gap : Gap) : Gap :=
  { gap with length := n + gap.length, newline := newline || gap.newline }

/-- The gap at the start of a text. `acrossLines` says whether it goes on after a line feed. -/
def read (acrossLines : Bool) : Text → Gap
  | [] => {}
  | c :: rest =>
    if c = '\n' then
      if acrossLines then (read acrossLines rest).after 1 true else {}
    else if Text.isBlank c then
      (read acrossLines rest).after 1 false
    else if c = '/' && Text.first rest = '/' then
      let n := Text.lineLength rest
      (read acrossLines (rest.drop n)).after (1 + n) false
    else if c = '/' && Text.first rest = '*' then
      match blockComment (rest.drop 1) with
      | (n, true) => (read acrossLines (rest.drop (1 + n))).after (2 + n) false
      | (n, false) => { length := 2 + n, openComment := true }
    else
      {}
  termination_by text => text.length
  decreasing_by
    all_goals simp only [List.length_drop, List.length_cons]; omega

end Gap

end CPreprocessor
