/-
# Literals in conditions

The values of integer and character literals. Floating and user-defined literals
have no value here, nor has an integer that does not fit in 64 bits.
-/
import CPreprocessor.Condition.Value
import CPreprocessor.Diagnostic
import CPreprocessor.Token.Number

namespace CPreprocessor

/-- Why a condition has no value: a problem, the token it is reported at, and a detail. Without a
token the problem is at the end of the condition. -/
structure Failure where
  code : Code
  token : Option Token
  detail : Text
  deriving DecidableEq, Repr

namespace IntegerLiteral

/-- The base of an integer and its digits. -/
def split : Text → Nat × Text
  | '0' :: 'x' :: rest | '0' :: 'X' :: rest => (16, rest)
  | '0' :: 'b' :: rest | '0' :: 'B' :: rest => (2, rest)
  | '0' :: rest => (8, '0' :: rest)
  | text => (10, text)

/-- The digits that an integer of a base is read with. -/
def isDigit (base : Nat) (c : Char) : Bool :=
  c.isDigit || (base = 16 && Text.isHexDigit c)

/-- The number that digits stand for. -/
def number (base : Nat) (digits : Text) : Nat :=
  digits.foldl (fun n c => n * base + Text.digitValue c) 0

/-- The number that the digits so far make, in 64 bits, and whether it has been too large for
them. -/
structure Accumulated where
  bits : BitVec 64 := 0
  tooLarge : Bool := false

/-- Go on with a digit. The bits wrap around, so the number is compared before it grows. -/
def Accumulated.push (base : Nat) (sofar : Accumulated) (c : Char) : Accumulated :=
  let radix := BitVec.ofNat 64 base
  let digit := BitVec.ofNat 64 (Text.digitValue c)
  { bits := sofar.bits * radix + digit
    tooLarge := sofar.tooLarge || (BitVec.allOnes 64 - digit) / radix < sofar.bits }

/-- Read digits, the highest one first. -/
def accumulate (base : Nat) (digits : Text) : Accumulated :=
  digits.foldl (Accumulated.push base) {}

/-- What follows the digits makes the literal a floating one. -/
def isFloating (base : Nat) (suffix : Text) : Bool :=
  match suffix with
  | [] => false
  | c :: _ => c = '.' || ((c = 'e' || c = 'E') && base ≠ 16) || c = 'p' || c = 'P'

/-- The value of a numeric literal. -/
def value (token : Token) : Except Failure Value :=
  if !Number.isValid token.lexeme then
    .error ⟨.invalidNumber, token, token.lexeme⟩
  else
    let (base, text) := split (Number.withoutSeparators token.lexeme)
    let n := accumulate base (text.takeWhile (isDigit base))
    let suffix := text.dropWhile (isDigit base)
    if isFloating base suffix then
      .error ⟨.invalidExpression, token, "floating constant in preprocessor expression".toList⟩
    else if suffix.head? = some '_' then
      .error ⟨.invalidExpression, token, "user-defined literal in preprocessor expression".toList⟩
    else if n.tooLarge then
      .error ⟨.invalidExpression, token, "integer constant is too large".toList⟩
    else
      .ok ⟨n.bits, suffix.contains 'u' || suffix.contains 'U' || Nat.pow 2 63 ≤ n.bits.toNat⟩

end IntegerLiteral

namespace CharacterLiteral

/-- The character that a simple escape stands for. -/
def simpleEscape? : Char → Option Nat
  | 'n' => some 10
  | 't' => some 9
  | 'r' => some 13
  | 'a' => some 7
  | 'b' => some 8
  | 'f' => some 12
  | 'v' => some 11
  | _ => none

/-- The number of bytes that a byte of UTF-8 announces for its character, itself included. -/
def utf8Length (lead : Nat) : Nat :=
  if 0xF0 ≤ lead then 4 else if 0xE0 ≤ lead then 3 else if 0xC0 ≤ lead then 2 else 1

/-- The code point that starts with the byte `lead`, and the number of further bytes it takes. The
bytes that follow are not checked, and there may be fewer than announced. -/
def codePoint (lead : Char) (rest : Text) : Nat × Nat :=
  let length := utf8Length lead.toNat
  if length = 1 then
    (lead.toNat, 0)
  else
    let more := rest.take (length - 1)
    (more.foldl (fun n c => n * 64 + c.toNat % 64) (lead.toNat % Nat.pow 2 (7 - length)), more.length)

/-- The unit that an escape sequence stands for, read after its backslash, and its length. A unit has
32 bits. -/
def escape : Text → Nat × Nat
  | [] => ('\\'.toNat, 0)
  | c :: rest =>
    match simpleEscape? c with
    | some unit => (unit, 1)
    | none =>
      if c = 'x' || c = 'u' || c = 'U' then
        let digits := rest.takeWhile Text.isHexDigit
        (IntegerLiteral.number 16 digits % Nat.pow 2 32, 1 + digits.length)
      else if Text.isOctalDigit c then
        let digits := c :: (rest.take 2).takeWhile Text.isOctalDigit
        (IntegerLiteral.number 8 digits, digits.length)
      else
        (c.toNat, 1)

/-- The units of a character literal: bytes, or code points in a literal with a wide prefix. -/
def units (wide : Bool) : Text → List Nat
  | [] => []
  | c :: rest =>
    if c = '\\' then
      let (unit, length) := escape rest
      unit :: units wide (rest.drop length)
    else if wide && 0x80 ≤ c.toNat then
      let (unit, length) := codePoint c rest
      unit :: units wide (rest.drop length)
    else
      c.toNat :: units wide rest
  termination_by text => text.length
  decreasing_by
    all_goals simp only [List.length_drop, List.length_cons]; omega

/-- What stands before the first single quote of a lexeme. -/
def literalPrefix (lexeme : Text) : Text :=
  lexeme.takeWhile (· ≠ '\'')

/-- What stands between the first and the last single quote of a lexeme. -/
def body (lexeme : Text) : Text :=
  let rest := (lexeme.dropWhile (· ≠ '\'')).drop 1
  ((rest.reverse.dropWhile (· ≠ '\'')).drop 1).reverse

/-- The value of the units of a literal. Without a prefix, one unit is a signed byte, and several are
packed into a signed 32-bit number, the last one lowest. With a prefix, the first unit counts, in as
many bits as the prefix says, and only `L` makes it signed. -/
def valueOfUnits (lead : Text) (units : List Nat) : Value :=
  if lead = [] then
    match units with
    | [unit] => .ofInt (BitVec.ofNat 8 unit).toInt
    | _ => .ofInt (BitVec.ofNat 32 (units.foldl (fun n unit => n * 256 + unit % 256) 0)).toInt
  else
    let width := if lead = ['u', '8'] then 8 else if lead = ['u'] then 16 else 32
    ⟨BitVec.ofNat 64 (units.headD 0 % Nat.pow 2 width), lead ≠ ['L']⟩

/-- The value of a character literal. A misspelt one has none. -/
def value (token : Token) : Except Failure Value :=
  match token.error with
  | some error => .error ⟨error.code, token, token.lexeme⟩
  | none =>
    let lead := literalPrefix token.lexeme
    let wide := lead ≠ [] && lead ≠ ['u', '8']
    .ok (valueOfUnits lead (units wide (body token.lexeme)))

end CharacterLiteral

end CPreprocessor
