/-
# Lexemes

A text that starts with neither white space nor a comment starts with a lexeme.
`Lexeme.read` says of which kind it is, how long it is, and what is wrong with
its spelling. A number is tried first, then a literal, a name, and at last a
punctuator; a byte that fits nowhere is a punctuator of its own.
-/
import CPreprocessor.Token.Language
import CPreprocessor.Token.Literal
import CPreprocessor.Token.Number

namespace CPreprocessor

/-- The kind, length and spelling error of a lexeme. -/
structure Lexeme where
  kind : TokenKind
  length : Nat
  error : Option LexError := none
  deriving DecidableEq, Repr

namespace Lexeme

/-- The length of what continues a preprocessing number: letters, digits, underscores and
points, exponents with a sign, and digit separators before a letter or digit. -/
def numberTail : Text → Nat
  | [] => 0
  | c :: rest =>
    let next := Text.first rest
    if ['e', 'E', 'p', 'P'].contains c && (next = '+' || next = '-') then
      2 + numberTail (rest.drop 1)
    else if c.isAlphanum || c = '_' || c = '.' || (c = '\'' && next.isAlphanum) then
      1 + numberTail rest
    else
      0
  termination_by text => text.length
  decreasing_by
    all_goals simp only [List.length_drop, List.length_cons]; omega

/-- A text that starts a number: a digit, or a point and a digit. -/
def startsNumber (text : Text) : Bool :=
  (Text.first text).isDigit || (Text.first text = '.' && (Text.first (text.drop 1)).isDigit)

/-- The number at the start of a text. -/
def readNumber (text : Text) : Lexeme :=
  let length := 1 + numberTail (text.drop 1)
  { kind := .number, length,
    error := if Number.isValid (text.take length) then none else some .invalidNumber }

/-- The quoted literal at the start of a text. An unterminated literal ends with its line; its
only error is that. -/
def readQuoted (text : Text) (opening : Literal.Opening) : Lexeme :=
  let quote := opening.quote
  let kind : TokenKind := if quote = '"' then .string else .character
  let start := opening.prefixLength + 1
  let body := Literal.body quote (text.drop start)
  if body.closed then
    let closed := start + body.length + 1
    { kind, length := closed + Literal.suffixLength (text.drop closed),
      error :=
        if kind = .character && body.length = 0 then
          some .invalidCharacterLiteral
        else if body.badEscape then
          some .invalidEscapeSequence
        else
          none }
  else
    { kind, length := start + body.length,
      error := some (if quote = '"' then .unterminatedString else .unterminatedChar) }

/-- The raw literal at the start of a text. One that is not well formed ends with its line. -/
def readRaw (text : Text) (opening : Literal.Opening) : Lexeme :=
  let start := opening.prefixLength + 1
  match Literal.rawLength? (text.drop start) with
  | some more => { kind := .string, length := start + more }
  | none =>
    { kind := .string, length := max 1 (Text.lineLength text), error := some .unterminatedString }

/-- The name at the start of a text. -/
def readName (language : Language) (text : Text) : Lexeme :=
  let length := 1 + ((text.drop 1).takeWhile Text.isIdentifierChar).length
  { kind := if language.isKeyword (text.take length) then .keyword else .identifier, length }

/-- The lexeme at the start of a text that is not empty. -/
def read (language : Language) (text : Text) : Lexeme :=
  if startsNumber text then
    readNumber text
  else
    match Literal.opening? text with
    | some opening => if opening.raw then readRaw text opening else readQuoted text opening
    | none =>
      if Text.isIdentifierStart (Text.first text) then
        readName language text
      else
        { kind := .punctuator, length := max 1 (language.punctuatorLength text) }

/-- A lexeme is never empty. -/
theorem length_read_pos (language : Language) (text : Text) : 0 < (read language text).length := by
  unfold read
  split
  · simp only [readNumber]; omega
  · split
    · split
      · unfold readRaw
        simp only []
        split <;> simp only [] <;> omega
      · unfold readQuoted
        simp only []
        split <;> simp only [] <;> omega
    · split
      · simp only [readName]; omega
      · simp only []; omega

end Lexeme

end CPreprocessor
