/-
# The grammar of numeric literals

A numeric literal is an integer of some radix, or a floating number with a point or an exponent,
and a suffix. `IsLiteral` states this for literals as they are written, with single quotes
between their digits, and without reference to how they are read.
-/
import Mathlib.Data.Nat.Digits.Defs
import CPreprocessor.Token.Number

namespace CPreprocessor

/-! ## Digits -/

/-- The number systems that an integer can be written in. -/
inductive Radix where
  | binary
  | octal
  | decimal
  | hexadecimal
  deriving DecidableEq, Repr

namespace Radix

/-- The number of digits of a radix. -/
def base : Radix → Nat
  | binary => 2
  | octal => 8
  | decimal => 10
  | hexadecimal => 16

/-- The marks that a radix is announced with. -/
def marks : Radix → List Text
  | binary => [['0', 'b'], ['0', 'B']]
  | octal | decimal => [[]]
  | hexadecimal => [['0', 'x'], ['0', 'X']]

/-- The digits of a radix. -/
def isDigit : Radix → Char → Bool
  | binary => Text.isBinaryDigit
  | octal => Text.isOctalDigit
  | decimal => Char.isDigit
  | hexadecimal => Text.isHexDigit

/-- Only a leading zero tells an octal integer from a decimal one. -/
def mayStart : Radix → Char → Bool
  | binary | hexadecimal => fun _ => true
  | octal => (· = '0')
  | decimal => (· ≠ '0')

end Radix

/-- The number that digits stand for, the highest digit first. -/
def Radix.number (radix : Radix) (digits : Text) : Nat :=
  Nat.ofDigits radix.base (digits.reverse.map Text.digitValue)

namespace Number


/-- Digits, with single separators between them. -/
inductive IsDigits (radix : Radix) : Text → Prop
  | last {c : Char} (digit : radix.isDigit c = true) : IsDigits radix [c]
  | next {c : Char} {text : Text} (digit : radix.isDigit c = true) (more : IsDigits radix text) :
      IsDigits radix (c :: text)
  | separator {c : Char} {text : Text} (digit : radix.isDigit c = true)
      (more : IsDigits radix text) : IsDigits radix (c :: '\'' :: text)

/-! ## Literals -/

/-- Digits, with a point before, after or between them or without one. -/
inductive IsMantissa (radix : Radix) : Bool → Text → Prop
  | noPoint {whole : Text} (digits : IsDigits radix whole) : IsMantissa radix false whole
  | pointAfter {whole : Text} (digits : IsDigits radix whole) :
      IsMantissa radix true (whole ++ ['.'])
  | pointBefore {fraction : Text} (digits : IsDigits radix fraction) :
      IsMantissa radix true ('.' :: fraction)
  | pointBetween {whole fraction : Text} (digits : IsDigits radix whole)
      (more : IsDigits radix fraction) : IsMantissa radix true (whole ++ '.' :: fraction)

/-- One of the letters, a sign if there is one, and decimal digits. -/
inductive IsExponent (letters : List Char) : Text → Prop
  | unsigned {letter : Char} {digits : Text} (known : letter ∈ letters)
      (number : IsDigits .decimal digits) : IsExponent letters (letter :: digits)
  | signed {letter sign : Char} {digits : Text} (known : letter ∈ letters)
      (isSign : sign ∈ ['+', '-']) (number : IsDigits .decimal digits) :
      IsExponent letters (letter :: sign :: digits)

/-- A user-defined suffix is a name that starts with an underscore. -/
def IsUserSuffix (suffix : Text) : Prop :=
  ∃ name, suffix = '_' :: name ∧ ∀ c ∈ name, Text.isIdentifierChar c = true

/-- An integer may be unsigned, and it may be long, long long or as long as a size, in either
order. -/
def IsIntegerSuffix (suffix : Text) : Prop :=
  ∃ sign ∈ [[], ['u'], ['U']],
    ∃ size ∈ [[], ['l'], ['L'], ['l', 'l'], ['L', 'L'], ['z'], ['Z']],
      suffix = sign ++ size ∨ suffix = size ++ sign

/-- A floating number may be short or long. -/
def IsFloatingSuffix (suffix : Text) : Prop :=
  suffix ∈ [[], ['f'], ['F'], ['l'], ['L']]

/-- An integer of a radix, with a suffix of the language or of the user. -/
inductive IsInteger (radix : Radix) (digits suffix : Text) : Text → Prop
  | intro {mark : Text} (known : mark ∈ radix.marks) (isDigits : IsDigits radix digits)
      (starts : ∀ c ∈ digits.head?, radix.mayStart c = true)
      (ends : IsIntegerSuffix suffix ∨ IsUserSuffix suffix) :
      IsInteger radix digits suffix (mark ++ (digits ++ suffix))

/-- A floating number, with a suffix of the language or of the user. A hexadecimal one needs an
exponent, and a decimal one needs an exponent or a point. -/
inductive IsFloating : Text → Prop
  | decimal {point : Bool} {mantissa exponent suffix : Text}
      (isMantissa : IsMantissa .decimal point mantissa)
      (isExponent : exponent = [] ∧ point = true ∨ IsExponent ['e', 'E'] exponent)
      (ends : IsFloatingSuffix suffix ∨ IsUserSuffix suffix) :
      IsFloating (mantissa ++ (exponent ++ suffix))
  | hexadecimal {point : Bool} {mark mantissa exponent suffix : Text}
      (known : mark ∈ Radix.hexadecimal.marks)
      (isMantissa : IsMantissa .hexadecimal point mantissa)
      (isExponent : IsExponent ['p', 'P'] exponent)
      (ends : IsFloatingSuffix suffix ∨ IsUserSuffix suffix) :
      IsFloating (mark ++ (mantissa ++ (exponent ++ suffix)))

/-- A decimal mantissa with a point needs no exponent. -/
theorem IsFloating.withoutExponent {mantissa suffix : Text}
    (isMantissa : IsMantissa .decimal true mantissa)
    (ends : IsFloatingSuffix suffix ∨ IsUserSuffix suffix) : IsFloating (mantissa ++ suffix) :=
  IsFloating.decimal isMantissa (.inl ⟨rfl, rfl⟩) ends

/-- The text is an integer or floating literal of the language. -/
inductive IsLiteral (text : Text) : Prop
  | integer {radix : Radix} {digits suffix : Text}
      (isInteger : IsInteger radix digits suffix text) : IsLiteral text
  | floating (isFloating : IsFloating text) : IsLiteral text

/-! ## Suffixes -/

theorem isUserSuffix_iff {suffix : Text} : isUserSuffix suffix = true ↔ IsUserSuffix suffix := by
  cases suffix with
  | nil => simp [isUserSuffix, IsUserSuffix]
  | cons c name =>
    have underscore : Text.isIdentifierChar '_' = true := by decide
    constructor
    · intro accepted
      simp only [isUserSuffix, List.head?_cons, Bool.and_eq_true, beq_iff_eq, Option.some.injEq,
        List.all_cons, List.all_eq_true] at accepted
      obtain ⟨rfl, -, names⟩ := accepted
      exact ⟨name, rfl, names⟩
    · rintro ⟨name', same, names⟩
      cases same
      simpa [isUserSuffix, underscore] using names

theorem mem_integerSuffixes_iff {suffix : Text} :
    suffix ∈ [] :: integerSuffixes ↔ IsIntegerSuffix suffix := by
  constructor
  · intro known
    revert suffix
    unfold IsIntegerSuffix
    decide
  · have known : ∀ sign ∈ [[], ['u'], ['U']],
        ∀ size ∈ [[], ['l'], ['L'], ['l', 'l'], ['L', 'L'], ['z'], ['Z']],
          sign ++ size ∈ [] :: integerSuffixes ∧ size ++ sign ∈ [] :: integerSuffixes := by
      decide
    rintro ⟨sign, isSign, size, isSize, rfl | rfl⟩
    · exact (known sign isSign size isSize).1
    · exact (known sign isSign size isSize).2

theorem isIntegerSuffix_iff {suffix : Text} :
    isIntegerSuffix suffix = true ↔ IsIntegerSuffix suffix ∨ IsUserSuffix suffix := by
  rw [← mem_integerSuffixes_iff, ← isUserSuffix_iff]
  simp only [isIntegerSuffix, Bool.or_eq_true, beq_iff_eq, List.contains_iff_mem, List.mem_cons]
  tauto

theorem isFloatSuffix_iff {suffix : Text} :
    isFloatSuffix suffix = true ↔ IsFloatingSuffix suffix ∨ IsUserSuffix suffix := by
  rw [← isUserSuffix_iff]
  simp only [isFloatSuffix, IsFloatingSuffix, Bool.or_eq_true, beq_iff_eq, List.contains_iff_mem,
    List.mem_cons]
  tauto

/-- What the suffix of an integer starts with. -/
def integerSuffixStarts : List (Option Char) :=
  [none, some '_', some 'u', some 'U', some 'l', some 'L', some 'z', some 'Z']

/-- What the suffix of a floating number starts with. -/
def floatingSuffixStarts : List (Option Char) :=
  [none, some '_', some 'f', some 'F', some 'l', some 'L']

theorem head_mem_integerSuffixStarts {suffix : Text}
    (ends : IsIntegerSuffix suffix ∨ IsUserSuffix suffix) : suffix.head? ∈ integerSuffixStarts := by
  obtain known | ⟨name, rfl, -⟩ := ends
  · have starts : ∀ suffix ∈ [] :: integerSuffixes, suffix.head? ∈ integerSuffixStarts := by decide
    exact starts _ (mem_integerSuffixes_iff.mpr known)
  · simp [integerSuffixStarts]

theorem head_mem_floatingSuffixStarts {suffix : Text}
    (ends : IsFloatingSuffix suffix ∨ IsUserSuffix suffix) :
    suffix.head? ∈ floatingSuffixStarts := by
  obtain known | ⟨name, rfl, -⟩ := ends
  · revert known suffix
    unfold IsFloatingSuffix
    decide
  · simp [floatingSuffixStarts]

end Number

end CPreprocessor
