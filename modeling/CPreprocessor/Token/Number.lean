/-
# Numeric literals

A preprocessing number is any run of digits, letters, underscores, points, signed
exponents and digit separators that starts like a number. This module says which
of them are integer or floating literals of the language, with an optional
user-defined suffix that starts with an underscore.
-/
import CPreprocessor.Text

namespace CPreprocessor.Number

/-- A digit separator stands between a letter or digit and another one. `before` is the byte
before the text, if there is one. -/
def separatorsStandBetween (before : Option Char) : Text → Bool
  | [] => true
  | '\'' :: rest =>
    before.any Char.isAlphanum && rest.head?.any Char.isAlphanum
      && separatorsStandBetween (some '\'') rest
  | c :: rest => separatorsStandBetween (some c) rest

/-- A text without its digit separators. -/
def withoutSeparators (text : Text) : Text :=
  text.filter (· ≠ '\'')

/-- A user-defined suffix starts with an underscore and goes on like an identifier. -/
def isUserSuffix (suffix : Text) : Bool :=
  suffix.head? == some '_' && suffix.all Text.isIdentifierChar

/-- The suffixes that say how long an integer is and whether it is signed. -/
def integerSuffixes : List Text :=
  ["u", "U", "l", "L", "ll", "LL", "z", "Z",
    "ul", "uL", "Ul", "UL", "lu", "lU", "Lu", "LU",
    "ull", "uLL", "Ull", "ULL", "llu", "llU", "LLu", "LLU",
    "uz", "uZ", "Uz", "UZ", "zu", "zU", "Zu", "ZU"].map String.toList

/-- What may follow the digits of an integer. -/
def isIntegerSuffix (suffix : Text) : Bool :=
  suffix == [] || isUserSuffix suffix || integerSuffixes.contains suffix

/-- What may follow the digits of a floating number. -/
def isFloatSuffix (suffix : Text) : Bool :=
  suffix == [] || isUserSuffix suffix || [['f'], ['F'], ['l'], ['L']].contains suffix

/-- The rest of a text after an exponent, whose letter has been read: an optional sign and at
least one digit. -/
def afterExponent? (text : Text) : Option Text :=
  let digits :=
    match text with
    | '+' :: rest => rest
    | '-' :: rest => rest
    | _ => text
  if digits.head?.any Char.isDigit then some (digits.dropWhile Char.isDigit) else none

/-- The digits before a point, whether there is a point, the digits after it, and the rest. -/
structure Mantissa where
  whole : Text
  hasPoint : Bool
  fraction : Text
  rest : Text

/-- Split a text into a mantissa of the given digits and the rest. -/
def Mantissa.read (isDigit : Char → Bool) (text : Text) : Mantissa :=
  let whole := text.takeWhile isDigit
  match text.dropWhile isDigit with
  | '.' :: rest => ⟨whole, true, rest.takeWhile isDigit, rest.dropWhile isDigit⟩
  | rest => ⟨whole, false, [], rest⟩

/-- A mantissa needs a digit on some side of the point. -/
def Mantissa.hasDigits (m : Mantissa) : Bool :=
  m.whole ≠ [] || m.fraction ≠ []

/-- What follows `0x` in a literal: an integer, or a floating number, which must have a binary
exponent. -/
def isHexadecimal (text : Text) : Bool :=
  let m := Mantissa.read Text.isHexDigit text
  m.hasDigits &&
    match m.rest with
    | 'p' :: rest | 'P' :: rest => (afterExponent? rest).any isFloatSuffix
    | rest => !m.hasPoint && isIntegerSuffix rest

/-- What follows `0b` in a literal. -/
def isBinary (text : Text) : Bool :=
  text.takeWhile Text.isBinaryDigit ≠ [] && isIntegerSuffix (text.dropWhile Text.isBinaryDigit)

/-- A decimal or octal integer, or a decimal floating number. An integer that starts with zero
is octal. -/
def isDecimalOrOctal (text : Text) : Bool :=
  let m := Mantissa.read Char.isDigit text
  m.hasDigits &&
    match m.rest with
    | 'e' :: rest | 'E' :: rest => (afterExponent? rest).any isFloatSuffix
    | rest =>
      if m.hasPoint then
        isFloatSuffix rest
      else
        (m.whole.head? ≠ some '0' || m.whole.all Text.isOctalDigit) && isIntegerSuffix rest

/-- A literal without digit separators. -/
def isPlain : Text → Bool
  | '0' :: 'x' :: rest | '0' :: 'X' :: rest => isHexadecimal rest
  | '0' :: 'b' :: rest | '0' :: 'B' :: rest => isBinary rest
  | text => isDecimalOrOctal text

/-- The text is an integer or floating literal. -/
def isValid (text : Text) : Bool :=
  separatorsStandBetween none text && isPlain (withoutSeparators text)

end CPreprocessor.Number
