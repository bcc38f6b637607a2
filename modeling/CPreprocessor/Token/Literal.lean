/-
# Quoted and raw literals

How far a string or character literal reaches. Lengths count bytes; nothing is
copied, so a literal is exactly the bytes it was written with.
-/
import CPreprocessor.Token

namespace CPreprocessor.Literal

/-- The prefixes of literals, and whether the literal after them is raw. Longer prefixes stand
before their own beginnings. -/
def prefixes : List (Text × Bool) :=
  [("u8R".toList, true), ("uR".toList, true), ("UR".toList, true), ("LR".toList, true),
    ("R".toList, true), ("u8".toList, false), ("u".toList, false), ("U".toList, false),
    ("L".toList, false)]

/-- A literal opens with an optional prefix and a quote; a raw one only with a double quote. -/
structure Opening where
  /-- The number of bytes before the quote. -/
  prefixLength : Nat
  raw : Bool
  quote : Char
  deriving DecidableEq, Repr

/-- The opening of the literal that a text starts with, if it starts with one. -/
def opening? (text : Text) : Option Opening :=
  let prefixed := prefixes.findSome? fun (word, raw) =>
    if word.isPrefixOf text then
      let quote := Text.first (text.drop word.length)
      if quote = '"' || (quote = '\'' && !raw) then some ⟨word.length, raw, quote⟩ else none
    else
      none
  prefixed <|>
    (if Text.first text = '"' || Text.first text = '\'' then some ⟨0, false, Text.first text⟩
      else none)

/-- How much of a text after a backslash belongs to the escape sequence, and whether it is
one. -/
structure Escape where
  length : Nat
  valid : Bool

/-- The escape sequence whose backslash stands before a text: a simple escape, up to three octal
digits, `x` with any positive number of hexadecimal digits, `u` with four or `U` with eight. An
unknown escape takes one character, but never a line feed or the zero byte. -/
def escape (text : Text) : Escape :=
  let hex (rest : Text) : Nat := (rest.takeWhile Text.isHexDigit).length
  match text with
  | [] => ⟨0, false⟩
  | c :: rest =>
    if "'\"?\\abfnrtv".toList.contains c then
      ⟨1, true⟩
    else if Text.isOctalDigit c then
      ⟨1 + ((rest.take 2).takeWhile Text.isOctalDigit).length, true⟩
    else if c = 'x' then
      ⟨1 + hex rest, 0 < hex rest⟩
    else if c = 'u' then
      ⟨1 + hex (rest.take 4), hex (rest.take 4) = 4⟩
    else if c = 'U' then
      ⟨1 + hex (rest.take 8), hex (rest.take 8) = 8⟩
    else if c = '\n' || c = Text.nul then
      ⟨0, false⟩
    else
      ⟨1, false⟩

/-- What stands between the quotes of a literal. -/
structure Body where
  length : Nat := 0
  /-- The closing quote follows the body. -/
  closed : Bool := false
  /-- The body has an invalid escape sequence. -/
  badEscape : Bool := false

/-- The body of a quoted literal after its opening quote. It ends at the closing quote, at the end
of the line, or at the end of the text. -/
def body (quote : Char) : Text → Body
  | [] => {}
  | c :: rest =>
    if c = quote then
      { closed := true }
    else if c = '\n' then
      {}
    else if c = '\\' then
      let e := escape rest
      let more := body quote (rest.drop e.length)
      { more with length := 1 + e.length + more.length, badEscape := !e.valid || more.badEscape }
    else
      let more := body quote rest
      { more with length := 1 + more.length }
  termination_by text => text.length
  decreasing_by
    all_goals simp only [List.length_drop, List.length_cons]; omega

/-- The length of the user-defined suffix at the start of a text; a suffix does not start with a
dollar sign. -/
def suffixLength (text : Text) : Nat :=
  if Text.first text ≠ '$' then
    if Text.isIdentifierStart (Text.first text) then
      (text.takeWhile Text.isIdentifierChar).length
    else
      0
  else
    0

/-- The delimiter of a raw literal, read after its opening quote, ends before `(` and holds no
blank, tab, line feed, backslash, quote or parenthesis. -/
def delimiter (text : Text) : Text :=
  text.takeWhile fun c =>
    !(['(', ' ', ')', '\\', '\n', '\t', '"'].contains c)

/-- The length of a raw literal after its opening quote, with the closing quote and a suffix. There
is none if the delimiter is longer than sixteen bytes or not followed by `(`, or if the literal is
not closed. -/
def rawLength? (text : Text) : Option Nat :=
  let d := delimiter text
  if 16 < d.length then
    none
  else
    match text.drop d.length with
    | '(' :: content =>
      (Text.find? (')' :: d ++ ['"']) content).map fun inside =>
        let closed := d.length + 1 + inside + (d.length + 2)
        closed + suffixLength (text.drop closed)
    | _ => none

end CPreprocessor.Literal
