/-
# Logical characters

A source is read as logical characters: a line end of any kind is one line feed,
a trigraph is the character it stands for, and a backslash at the end of a
physical line joins the next line to it. Every logical character remembers where
it stands in the physical text, so positions always point into the source as it
was written.
-/
import CPreprocessor.Text

namespace CPreprocessor

/-- A place in a physical text. -/
structure Position where
  /-- The line, counted from one. -/
  line : Nat := 1
  /-- The number of bytes before it on its line. -/
  column : Nat := 0
  /-- The number of bytes before it in the text. -/
  offset : Nat := 0
  deriving DecidableEq, Repr, Inhabited

namespace Position

/-- Whether a byte, seen with what follows it, ends a physical line. A carriage return that
a line feed follows does not: the line feed ends the line. -/
def endsLine (c : Char) (rest : Text) : Bool :=
  c = '\n' || (c = '\r' && rest.head? ≠ some '\n')

/-- The place after the first `n` bytes of a text that starts at a given place. -/
def advance (position : Position) : Nat → Text → Position
  | 0, _ => position
  | _, [] => position
  | n + 1, c :: rest =>
    if endsLine c rest then
      advance ⟨position.line + 1, 0, position.offset + 1⟩ n rest
    else
      advance ⟨position.line, position.column + 1, position.offset + 1⟩ n rest

/-- A place as a source reports it: the line and the column have 32 bits. -/
def reported (place : Position) : Position :=
  { place with line := place.line % Nat.pow 2 32, column := place.column % Nat.pow 2 32 }

end Position

namespace Normalization

/-- The character that a trigraph with this last byte stands for. -/
def trigraph : Char → Option Char
  | '=' => some '#'
  | '/' => some '\\'
  | '\'' => some '^'
  | '(' => some '['
  | ')' => some ']'
  | '!' => some '|'
  | '<' => some '{'
  | '>' => some '}'
  | '-' => some '~'
  | _ => none

/-- One logical character and the number of physical bytes after its first one. -/
structure Logical where
  char : Char
  extra : Nat := 0

/-- The logical character at the start of `c :: rest`, before lines are joined. -/
def logical (trigraphs : Bool) (c : Char) (rest : Text) : Logical :=
  match c, rest with
  | '?', '?' :: last :: _ =>
    match if trigraphs then trigraph last else none with
    | some replaced => ⟨replaced, 2⟩
    | none => ⟨'?', 0⟩
  | '\r', '\n' :: _ => ⟨'\n', 1⟩
  | '\r', _ => ⟨'\n', 0⟩
  | c, _ => ⟨c, 0⟩

/-- The number of physical bytes that a line join at the start of `c :: rest` takes after its
first one: a backslash directly before a line end. -/
def lineJoin? (trigraphs : Bool) (c : Char) (rest : Text) : Option Nat :=
  let head := logical trigraphs c rest
  if head.char = '\\' then
    match rest.drop head.extra with
    | [] => none
    | d :: after =>
      let next := logical trigraphs d after
      if next.char = '\n' then some (head.extra + 1 + next.extra) else none
  else
    none

/-- A text as logical characters with their places, and the place of its end. -/
def characters (trigraphs : Bool) (place : Position) : Text → List (Char × Position) × Position
  | [] => ([], place)
  | c :: rest =>
    match lineJoin? trigraphs c rest with
    | some extra =>
      characters trigraphs (place.advance (extra + 1) (c :: rest)) (rest.drop extra)
    | none =>
      let head := logical trigraphs c rest
      let (located, finish) :=
        characters trigraphs (place.advance (head.extra + 1) (c :: rest)) (rest.drop head.extra)
      ((head.char, place) :: located, finish)
  termination_by text => text.length
  decreasing_by
    all_goals simp only [List.length_drop, List.length_cons]; omega

end Normalization

end CPreprocessor
