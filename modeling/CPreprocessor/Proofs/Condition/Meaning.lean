/-
# What a condition means

The formulas of conditions with the value that the language gives them, without
reference to how they are read or evaluated. A formula has a type, signed or
unsigned, that can be seen without computing anything. Its value is an integer in
the range of the type: operands are brought to a common type, an operator works on
integers, and the result is brought back into the range. Operands that do not
count are not computed at all, so the only formulas without a value are those that
divide by zero (`value_eq_none_iff`).
-/
import CPreprocessor.Proofs.Condition.Literal

namespace CPreprocessor

/-- The names that are operators in a condition. -/
def operatorNames : List Text :=
  ["not", "compl", "and", "or", "bitand", "bitor", "xor", "not_eq"].map String.toList

/-- A formula as the language has it. -/
inductive Formula where
  | constant (i : IntegerConstant)
  | named (word : Text) (ordinary : word ∉ operatorNames)
  | unary (op : UnaryOp) (operand : Formula)
  | binary (op : BinaryOp) (left right : Formula)
  | choice (test first second : Formula)
  | sequence (first second : Formula)

/-! ## Integers of 64 bits -/

/-- The integer with the low 64 bits of `n` in the range of a type. -/
def represent (unsigned : Bool) (n : Int) : Int :=
  if unsigned then n % 2 ^ 64 else n.bmod (2 ^ 64)

/-- One and zero stand for true and false. -/
def truth (p : Prop) [Decidable p] : Int :=
  if p then 1 else 0

/-- An integer multiplied by a power of two, or divided by it and rounded down. -/
def shifted (n count : Int) : Int :=
  if 0 ≤ count then n * 2 ^ count.toNat else n / 2 ^ (-count).toNat

/-- An operation on the bits of two integers. -/
def bitwise (unsigned : Bool) (f : BitVec 64 → BitVec 64 → BitVec 64) (a b : Int) : Int :=
  represent unsigned (f (BitVec.ofInt 64 a) (BitVec.ofInt 64 b)).toInt

/-! ## Operators -/

namespace UnaryOp

/-- The type of an operator with an operand of some type. -/
def type (op : UnaryOp) (unsigned : Bool) : Bool :=
  match op with
  | logicalNot => false
  | plus | minus | bitNot => unsigned

/-- The value of an operator with one operand. -/
def meaning (op : UnaryOp) (unsigned : Bool) (a : Int) : Int :=
  match op with
  | plus => a
  | minus => represent unsigned (-a)
  | logicalNot => truth (a = 0)
  | bitNot => represent unsigned (-a - 1)

end UnaryOp

namespace BinaryOp

/-- The type of an operator whose operands have the types `u` and `v`. A shift has the type of what is
shifted; whatever is true or false is signed; anything else is signed only if both operands are. -/
def type (op : BinaryOp) (u v : Bool) : Bool :=
  match op with
  | shiftLeft | shiftRight => u
  | less | greater | lessEqual | greaterEqual | equal | notEqual | logicalAnd | logicalOr => false
  | mul | div | mod | add | sub | bitAnd | bitXor | bitOr => u || v

/-- The value of an operator whose operands `a` and `b` have the types `u` and `v`. Only a division by
zero has none. -/
def meaning (op : BinaryOp) (u v : Bool) (a b : Int) : Option Int :=
  let common := represent (u || v)
  match op with
  | mul => some (common (common a * common b))
  | div => if b = 0 then none else some (common ((common a).tdiv (common b)))
  | mod => if b = 0 then none else some (common ((common a).tmod (common b)))
  | add => some (common (common a + common b))
  | sub => some (common (common a - common b))
  | shiftLeft => some (represent u (shifted a b))
  | shiftRight => some (represent u (shifted a (-b)))
  | less => some (truth (common a < common b))
  | greater => some (truth (common a > common b))
  | lessEqual => some (truth (common a ≤ common b))
  | greaterEqual => some (truth (common a ≥ common b))
  | equal => some (truth (common a = common b))
  | notEqual => some (truth (common a ≠ common b))
  | bitAnd => some (bitwise (u || v) (· &&& ·) a b)
  | bitXor => some (bitwise (u || v) (· ^^^ ·) a b)
  | bitOr => some (bitwise (u || v) (· ||| ·) a b)
  | logicalAnd => some (truth (a ≠ 0 ∧ b ≠ 0))
  | logicalOr => some (truth (a ≠ 0 ∨ b ≠ 0))

/-- The value that an operator has whatever its right operand may be, once its left one is `a`. -/
def decided? (op : BinaryOp) (a : Int) : Option Int :=
  match op with
  | logicalAnd => if a = 0 then some 0 else none
  | logicalOr => if a = 0 then none else some 1
  | _ => none

end BinaryOp

/-! ## Formulas -/

namespace Formula

/-- The type of a formula. -/
def unsigned : Formula → Bool
  | constant i => i.unsigned
  | named _ _ => false
  | unary op operand => op.type operand.unsigned
  | binary op left right => op.type left.unsigned right.unsigned
  | choice _ first second => first.unsigned || second.unsigned
  | sequence _ second => second.unsigned

/-- The value of a formula. -/
def value : Formula → Option Int
  | constant i => some i.value
  | named word _ => some (truth (word = "true".toList))
  | unary op operand => operand.value.map (op.meaning operand.unsigned)
  | binary op left right =>
    left.value.bind fun a =>
      match op.decided? a with
      | some n => some n
      | none => right.value.bind fun b => op.meaning left.unsigned right.unsigned a b
  | choice test first second =>
    test.value.bind fun c =>
      (if c = 0 then second.value else first.value).map
        (represent (first.unsigned || second.unsigned))
  | sequence first second => first.value.bind fun _ => second.value

/-- Computing the first formula computes the second one, which is a part of it. -/
inductive Computes : Formula → Formula → Prop
  | self (f : Formula) : Computes f f
  | operand {op : UnaryOp} {operand part : Formula} (inner : Computes operand part) :
      Computes (unary op operand) part
  | left {op : BinaryOp} {left right part : Formula} (inner : Computes left part) :
      Computes (binary op left right) part
  | right {op : BinaryOp} {left right part : Formula} {a : Int} (before : left.value = some a)
      (undecided : op.decided? a = none) (inner : Computes right part) :
      Computes (binary op left right) part
  | test {test first second part : Formula} (inner : Computes test part) :
      Computes (choice test first second) part
  | chosen {test first second part : Formula} {c : Int} (before : test.value = some c)
      (inner : Computes (if c = 0 then second else first) part) :
      Computes (choice test first second) part
  | first {first second part : Formula} (inner : Computes first part) :
      Computes (sequence first second) part
  | second {first second part : Formula} {a : Int} (before : first.value = some a)
      (inner : Computes second part) : Computes (sequence first second) part

/-- Computing a formula divides by zero. -/
def DividesByZero (f : Formula) : Prop :=
  ∃ op left right, f.Computes (binary op left right) ∧ (op = .div ∨ op = .mod) ∧
    left.value ≠ none ∧ right.value = some 0

end Formula

/-! ## Formulas without a value -/

/-- Only division by zero has no value. -/
theorem BinaryOp.meaning_eq_none {op : BinaryOp} {u v : Bool} {a b : Int} :
    op.meaning u v a b = none ↔ (op = .div ∨ op = .mod) ∧ b = 0 := by
  cases op <;> simp [meaning]

theorem BinaryOp.decided?_of_division {op : BinaryOp} (divides : op = .div ∨ op = .mod) (a : Int) :
    op.decided? a = none := by
  rcases divides with rfl | rfl <;> rfl

namespace Formula

/-- What is computed for a formula with a value has a value. -/
theorem value_ne_none_of_computes {f part : Formula} (computes : f.Computes part)
    (valueless : part.value = none) : f.value = none := by
  induction computes with
  | self f => exact valueless
  | operand inner ih => simp [value, ih valueless]
  | left inner ih => simp [value, ih valueless]
  | right before undecided inner ih => simp [value, before, undecided, ih valueless]
  | test inner ih => simp [value, ih valueless]
  | chosen before inner ih =>
      have chosen := ih valueless
      rw [apply_ite value] at chosen
      simp [value, before, chosen]
  | first inner ih => simp [value, ih valueless]
  | second before inner ih => simp [value, before, ih valueless]

theorem DividesByZero.of_computes {f part : Formula}
    (extend : ∀ inner, part.Computes inner → f.Computes inner) (divides : part.DividesByZero) :
    f.DividesByZero := by
  obtain ⟨op, left, right, computes, division⟩ := divides
  exact ⟨op, left, right, extend _ computes, division⟩

/-- A formula has no value exactly if computing it divides by zero. -/
theorem value_eq_none_iff (f : Formula) : f.value = none ↔ f.DividesByZero := by
  constructor
  · intro valueless
    induction f with
    | constant i => simp [value] at valueless
    | named word ordinary => simp [value] at valueless
    | unary op operand ih =>
        have inner : operand.value = none := by simpa [value] using valueless
        exact (ih inner).of_computes fun _ => .operand
    | binary op left right ihLeft ihRight =>
        cases before : left.value with
        | none => exact (ihLeft before).of_computes fun _ => .left
        | some a =>
            simp only [value, before, Option.bind_some] at valueless
            cases undecided : op.decided? a with
            | some n => simp [undecided] at valueless
            | none =>
                simp only [undecided] at valueless
                cases after : right.value with
                | none => exact (ihRight after).of_computes fun _ => .right before undecided
                | some b =>
                    simp only [after, Option.bind_some] at valueless
                    obtain ⟨division, zero⟩ := BinaryOp.meaning_eq_none.mp valueless
                    exact ⟨op, left, right, .self _, division, by simp [before], by rw [after, zero]⟩
    | choice test first second ihTest ihFirst ihSecond =>
        cases before : test.value with
        | none => exact (ihTest before).of_computes fun _ => .test
        | some c =>
            simp only [value, before, Option.bind_some, Option.map_eq_none_iff] at valueless
            by_cases zero : c = 0
            · rw [if_pos zero] at valueless
              refine (ihSecond valueless).of_computes fun _ inner => .chosen before ?_
              rwa [if_pos zero]
            · rw [if_neg zero] at valueless
              refine (ihFirst valueless).of_computes fun _ inner => .chosen before ?_
              rwa [if_neg zero]
    | sequence first second ihFirst ihSecond =>
        cases before : first.value with
        | none => exact (ihFirst before).of_computes fun _ => .first
        | some a =>
            simp only [value, before, Option.bind_some] at valueless
            exact (ihSecond valueless).of_computes fun _ => .second before
  · rintro ⟨op, left, right, computes, division, known, zero⟩
    apply value_ne_none_of_computes computes
    obtain ⟨a, before⟩ := Option.ne_none_iff_exists'.mp known
    simp only [value, before, Option.bind_some, BinaryOp.decided?_of_division division, zero]
    exact BinaryOp.meaning_eq_none.mpr ⟨division, rfl⟩

end Formula

end CPreprocessor
