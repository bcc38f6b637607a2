/-
# Values of conditions

A condition is computed in 64 bits. A value is signed or unsigned, and an
operation on values is unsigned as soon as one operand is.
-/
import CPreprocessor.Text

namespace CPreprocessor

/-- A 64-bit value with its signedness. -/
structure Value where
  bits : BitVec 64
  unsigned : Bool := false
  deriving DecidableEq, Repr, Inhabited

namespace Value

/-- The integer that a value stands for. -/
def toInt (v : Value) : Int :=
  if v.unsigned then v.bits.toNat else v.bits.toInt

/-- The signed value with the low 64 bits of an integer. -/
def ofInt (n : Int) : Value :=
  ⟨BitVec.ofInt 64 n, false⟩

/-- One and zero stand for true and false. -/
def ofBool (b : Bool) : Value :=
  ⟨if b then 1 else 0, false⟩

/-- Everything but zero is true. -/
def isTrue (v : Value) : Bool :=
  v.bits != 0

end Value

/-- Operators with one operand. -/
inductive UnaryOp where
  | plus
  | minus
  | logicalNot
  | bitNot
  deriving DecidableEq, Repr

/-- Operators with two operands. -/
inductive BinaryOp where
  | mul
  | div
  | mod
  | add
  | sub
  | shiftLeft
  | shiftRight
  | less
  | greater
  | lessEqual
  | greaterEqual
  | equal
  | notEqual
  | bitAnd
  | bitXor
  | bitOr
  | logicalAnd
  | logicalOr
  deriving DecidableEq, Repr

namespace UnaryOp

/-- The value of an operator with one operand. -/
def apply (op : UnaryOp) (v : Value) : Value :=
  match op with
  | plus => v
  | minus => ⟨-v.bits, v.unsigned⟩
  | logicalNot => .ofBool !v.isTrue
  | bitNot => ⟨~~~v.bits, v.unsigned⟩

end UnaryOp

namespace BinaryOp

/-- How loosely an operator binds, from the tightest ones on level one. -/
def level : BinaryOp → Nat
  | mul | div | mod => 1
  | add | sub => 2
  | shiftLeft | shiftRight => 3
  | less | greater | lessEqual | greaterEqual => 4
  | equal | notEqual => 5
  | bitAnd => 6
  | bitXor => 7
  | bitOr => 8
  | logicalAnd => 9
  | logicalOr => 10

/-- A value shifted by another one. The result is of the kind of the left operand. A negative count
shifts the other way, and a count of 64 or more shifts everything out. -/
def shift (leftwards : Bool) (a b : Value) : Value :=
  let count := min b.toInt.natAbs 64
  if leftwards = decide (0 ≤ b.toInt) then
    ⟨a.bits <<< count, a.unsigned⟩
  else if a.unsigned then
    ⟨a.bits >>> count, true⟩
  else
    ⟨a.bits.sshiftRight count, false⟩

/-- A comparison, without sign if one operand has none. -/
def compare (a b : Value) (signedLess unsignedLess : BitVec 64 → BitVec 64 → Bool) : Value :=
  .ofBool (if a.unsigned || b.unsigned then unsignedLess a.bits b.bits else signedLess a.bits b.bits)

/-- The value of an operator; there is none for a division by zero. Signed division goes toward
zero, and the least value divided by minus one is itself. -/
def value? (op : BinaryOp) (a b : Value) : Option Value :=
  let unsigned := a.unsigned || b.unsigned
  match op with
  | mul => some ⟨a.bits * b.bits, unsigned⟩
  | div =>
    if b.bits = 0 then none
    else some ⟨if unsigned then a.bits / b.bits else a.bits.sdiv b.bits, unsigned⟩
  | mod =>
    if b.bits = 0 then none
    else some ⟨if unsigned then a.bits % b.bits else a.bits.srem b.bits, unsigned⟩
  | add => some ⟨a.bits + b.bits, unsigned⟩
  | sub => some ⟨a.bits - b.bits, unsigned⟩
  | shiftLeft => some (shift true a b)
  | shiftRight => some (shift false a b)
  | less => some (compare a b BitVec.slt BitVec.ult)
  | greater => some (compare b a BitVec.slt BitVec.ult)
  | lessEqual => some (compare a b BitVec.sle BitVec.ule)
  | greaterEqual => some (compare b a BitVec.sle BitVec.ule)
  | equal => some (.ofBool (a.bits == b.bits))
  | notEqual => some (.ofBool (a.bits != b.bits))
  | bitAnd => some ⟨a.bits &&& b.bits, unsigned⟩
  | bitXor => some ⟨a.bits ^^^ b.bits, unsigned⟩
  | bitOr => some ⟨a.bits ||| b.bits, unsigned⟩
  | logicalAnd => some (.ofBool (a.isTrue && b.isTrue))
  | logicalOr => some (.ofBool (a.isTrue || b.isTrue))

/-- The right operand does not count once the left one has this value. -/
def skipsRight (op : BinaryOp) (a : Value) : Bool :=
  match op with
  | logicalAnd => !a.isTrue
  | logicalOr => a.isTrue
  | _ => false

end BinaryOp

end CPreprocessor
