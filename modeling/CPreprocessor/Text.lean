/-
# Text as bytes

The preprocessor reads and writes bytes. A byte is held as the character with
its code, so the ASCII part of a text reads as itself and every byte from 0x80
on is one opaque character. Only ASCII characters are letters, digits or blanks
here: a byte from 0x80 on is never classified by a character encoding.
-/

namespace CPreprocessor

/-- A text is a list of bytes, each written as the character with that code. -/
abbrev Text := List Char

namespace Text

/-- The byte that stands for "nothing here" when a scan looks past the end of its text. -/
def nul : Char := '\x00'

/-- Hexadecimal digits of either case. -/
def isHexDigit (c : Char) : Bool :=
  c.isDigit || ('a' ≤ c && c ≤ 'f') || ('A' ≤ c && c ≤ 'F')

/-- Octal digits. -/
def isOctalDigit (c : Char) : Bool :=
  '0' ≤ c && c ≤ '7'

/-- Binary digits. -/
def isBinaryDigit (c : Char) : Bool :=
  c = '0' || c = '1'

/-- The value of a digit in any base up to sixteen; letters of either case count from ten. -/
def digitValue (c : Char) : Nat :=
  if c.isDigit then c.toNat - '0'.toNat else c.toLower.toNat - 'a'.toNat + 10

/-- Blanks that do not end a line. -/
def isBlank (c : Char) : Bool :=
  c = ' ' || c = '\t' || c = '\x0c' || c = '\x0b'

/-- An identifier starts with a letter, an underscore, a dollar sign or any byte from 0x80 on. -/
def isIdentifierStart (c : Char) : Bool :=
  c.isAlpha || c = '_' || c = '$' || 0x80 ≤ c.toNat

/-- An identifier goes on with what may start one and with digits. -/
def isIdentifierChar (c : Char) : Bool :=
  isIdentifierStart c || c.isDigit

/-- The first byte of a text, or the zero byte when the text is empty. -/
def first (text : Text) : Char :=
  text.headD nul

/-- The part of a text before its first zero byte, where paths and messages end. -/
def beforeNul (text : Text) : Text :=
  text.takeWhile (· ≠ nul)

/-- A natural number in decimal digits. -/
def ofNat (n : Nat) : Text :=
  Nat.toDigits 10 n

/-- The number of bytes before the next line feed, or up to the end of the text. -/
def lineLength (text : Text) : Nat :=
  (text.takeWhile (· ≠ '\n')).length

/-- The number of bytes before the first occurrence of `needle`, if there is one. -/
def find? (needle : Text) : Text → Option Nat
  | [] => if needle = [] then some 0 else none
  | c :: rest =>
    if needle.isPrefixOf (c :: rest) then some 0 else (find? needle rest).map (· + 1)

/-- Texts in the order of their bytes. -/
def le (a b : Text) : Bool :=
  decide (List.le a b)

end Text

end CPreprocessor
