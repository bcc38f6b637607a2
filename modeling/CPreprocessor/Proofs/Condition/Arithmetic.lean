/-
# Operators compute with integers

A value is a word of 64 bits that stands for an integer of its type. Each operator
on words is here compared with the operator on integers of the same name: the word
that comes out stands for the integer that comes out, for every pair of words,
whatever their types (`toInt_apply`, `map_toInt_value?`).
-/
import CPreprocessor.Proofs.Condition.Meaning

namespace CPreprocessor

/-! ## Words and integers -/

namespace Value

/-- The low 64 bits of an integer stand for it, as far as its type allows. -/
theorem toInt_ofInt (unsigned : Bool) (n : Int) :
    toInt ⟨BitVec.ofInt 64 n, unsigned⟩ = represent unsigned n := by
  cases unsigned with
  | false => exact BitVec.toInt_ofInt n
  | true =>
      show ((BitVec.ofInt 64 n).toNat : Int) = n % 2 ^ 64
      rw [BitVec.toNat_ofInt]
      exact Int.toNat_of_nonneg (Int.emod_nonneg n (by decide))

theorem ofInt_toInt (v : Value) : BitVec.ofInt 64 v.toInt = v.bits := by
  obtain ⟨bits, unsigned⟩ := v
  cases unsigned with
  | false => exact BitVec.ofInt_toInt
  | true =>
      show BitVec.ofInt 64 (bits.toNat : Int) = bits
      rw [BitVec.ofInt_natCast, BitVec.ofNat_toNat, BitVec.setWidth_eq]

/-- A value stands for an integer of its type. -/
theorem represent_toInt (v : Value) : represent v.unsigned v.toInt = v.toInt := by
  rw [← toInt_ofInt, ofInt_toInt]

/-- The word of a value may be read in another type. -/
theorem toInt_as (unsigned : Bool) (v : Value) :
    toInt ⟨v.bits, unsigned⟩ = represent unsigned v.toInt := by
  rw [← toInt_ofInt, ofInt_toInt]

theorem toInt_ofWord (unsigned : Bool) (word : BitVec 64) :
    toInt ⟨word, unsigned⟩ = represent unsigned word.toInt :=
  toInt_as unsigned ⟨word, false⟩

/-- In one type, different words stand for different integers. -/
theorem toInt_inj {unsigned : Bool} {x y : BitVec 64} :
    toInt ⟨x, unsigned⟩ = toInt ⟨y, unsigned⟩ ↔ x = y := by
  constructor
  · intro same
    have words := congrArg (BitVec.ofInt 64) same
    rwa [ofInt_toInt, ofInt_toInt] at words
  · rintro rfl
    rfl

theorem toInt_eq_zero {v : Value} : v.toInt = 0 ↔ v.bits = 0 := by
  have zero : toInt ⟨0, v.unsigned⟩ = 0 := by cases v.unsigned <;> rfl
  rw [← zero]
  exact toInt_inj

theorem isTrue_iff {v : Value} : v.isTrue = true ↔ v.toInt ≠ 0 := by
  rw [Ne, toInt_eq_zero]
  simp [isTrue]

theorem toInt_ofBool (b : Bool) : toInt (ofBool b) = truth (b = true) := by
  cases b <;> rfl

end Value

theorem ofInt_represent (unsigned : Bool) (n : Int) :
    BitVec.ofInt 64 (represent unsigned n) = BitVec.ofInt 64 n := by
  rw [← Value.toInt_ofInt, Value.ofInt_toInt]

theorem truth_congr {p q : Prop} [Decidable p] [Decidable q] (same : p ↔ q) : truth p = truth q := by
  simp only [truth, same]

/-! ## Operators with one operand -/

namespace UnaryOp

theorem unsigned_apply (op : UnaryOp) (v : Value) :
    (op.apply v).unsigned = op.type v.unsigned := by
  cases op <;> rfl

theorem toInt_apply (op : UnaryOp) (v : Value) :
    (op.apply v).toInt = op.meaning v.unsigned v.toInt := by
  cases op with
  | plus => rfl
  | minus =>
      rw [apply, meaning, ← Value.toInt_ofInt, BitVec.ofInt_neg, Value.ofInt_toInt]
  | logicalNot =>
      rw [apply, meaning, Value.toInt_ofBool]
      apply truth_congr
      rw [Bool.not_eq_true', ← Bool.not_eq_true, Value.isTrue_iff, not_not]
  | bitNot =>
      rw [apply, meaning, ← Value.toInt_ofInt, Int.sub_eq_add_neg, BitVec.ofInt_add, BitVec.ofInt_neg,
        Value.ofInt_toInt, BitVec.not_eq_neg_add, BitVec.sub_eq_add_neg]
      have one : BitVec.ofInt 64 (-1) = -1#64 := by decide
      rw [one]

end UnaryOp

/-! ## Operators with two operands -/

namespace BinaryOp

variable (a b : Value)

/-- The word of an integer that is computed from operands of a common type. -/
theorem ofInt_common (unsigned : Bool) (v : Value) :
    BitVec.ofInt 64 (represent unsigned v.toInt) = v.bits := by
  rw [ofInt_represent, Value.ofInt_toInt]

/-- The quotient of words stands for the quotient of integers, rounded toward zero. -/
theorem toInt_div (unsigned : Bool) (x y : BitVec 64) :
    Value.toInt ⟨if unsigned then x / y else x.sdiv y, unsigned⟩ =
      represent unsigned
        ((Value.toInt ⟨x, unsigned⟩).tdiv (Value.toInt ⟨y, unsigned⟩)) := by
  cases unsigned with
  | false => exact BitVec.toInt_sdiv x y
  | true =>
      show ((x / y).toNat : Int) = ((x.toNat : Int).tdiv y.toNat) % 2 ^ 64
      have small : x.toNat / y.toNat < 2 ^ 64 :=
        Nat.lt_of_le_of_lt (Nat.div_le_self _ _) x.isLt
      rw [BitVec.toNat_udiv, ← Int.ofNat_tdiv]
      exact (Int.emod_eq_of_lt (Int.natCast_nonneg _) (by exact_mod_cast small)).symm

/-- The remainder of words stands for the remainder of integers. -/
theorem toInt_mod (unsigned : Bool) (x y : BitVec 64) :
    Value.toInt ⟨if unsigned then x % y else x.srem y, unsigned⟩ =
      represent unsigned
        ((Value.toInt ⟨x, unsigned⟩).tmod (Value.toInt ⟨y, unsigned⟩)) := by
  cases unsigned with
  | false =>
      show (x.srem y).toInt = (x.toInt.tmod y.toInt).bmod (2 ^ 64)
      rw [← BitVec.toInt_srem]
      exact (Value.represent_toInt ⟨x.srem y, false⟩).symm
  | true =>
      show ((x % y).toNat : Int) = ((x.toNat : Int).tmod y.toNat) % 2 ^ 64
      have small : x.toNat % y.toNat < 2 ^ 64 :=
        Nat.lt_of_le_of_lt (Nat.mod_le _ _) x.isLt
      rw [BitVec.toNat_umod, ← Int.ofNat_tmod]
      exact (Int.emod_eq_of_lt (Int.natCast_nonneg _) (by exact_mod_cast small)).symm

/-- Words are compared in their common type. -/
theorem compare_less :
    (compare a b BitVec.slt BitVec.ult).toInt =
      truth (represent (a.unsigned || b.unsigned) a.toInt <
        represent (a.unsigned || b.unsigned) b.toInt) := by
  rw [compare, Value.toInt_ofBool, ← Value.toInt_as, ← Value.toInt_as]
  apply truth_congr
  cases a.unsigned || b.unsigned with
  | false => exact BitVec.slt_iff_toInt_lt
  | true => exact BitVec.ult_iff_toNat_lt.trans Int.ofNat_lt.symm

theorem compare_lessEqual :
    (compare a b BitVec.sle BitVec.ule).toInt =
      truth (represent (a.unsigned || b.unsigned) a.toInt ≤
        represent (a.unsigned || b.unsigned) b.toInt) := by
  rw [compare, Value.toInt_ofBool, ← Value.toInt_as, ← Value.toInt_as]
  apply truth_congr
  cases a.unsigned || b.unsigned with
  | false => exact BitVec.sle_iff_toInt_le
  | true => exact BitVec.ule_iff_toNat_le.trans Int.ofNat_le.symm

theorem bits_inj (unsigned : Bool) :
    a.bits = b.bits ↔ represent unsigned a.toInt = represent unsigned b.toInt := by
  rw [← Value.toInt_as, ← Value.toInt_as, Value.toInt_inj]

/-! ### Shifts -/

/-- A power of two is nothing in a word once it is too large. -/
theorem twoPow_min (n : Nat) : BitVec.twoPow 64 (min n 64) = BitVec.ofInt 64 (2 ^ n) := by
  have power : (2 : Int) ^ n = ((2 ^ n : Nat) : Int) := by simp
  rw [power, BitVec.ofInt_natCast]
  apply BitVec.eq_of_toNat_eq
  rw [BitVec.toNat_twoPow, BitVec.toNat_ofNat]
  by_cases small : n ≤ 64
  · rw [Nat.min_eq_left small]
  · have large : 64 ≤ n := by omega
    rw [Nat.min_eq_right large, Nat.mod_self]
    exact (Nat.mod_eq_zero_of_dvd (Nat.pow_dvd_pow 2 large)).symm

/-- Shifting to the left multiplies by a power of two. -/
theorem shiftLeft_eq (n : Nat) :
    a.bits <<< min n 64 = BitVec.ofInt 64 (a.toInt * 2 ^ n) := by
  rw [BitVec.ofInt_mul, Value.ofInt_toInt, BitVec.shiftLeft_eq_mul_twoPow, twoPow_min]

/-- An integer of 64 bits that is divided by a greater power of two is rounded down to zero or to minus
one. -/
theorem ediv_two_pow_min {x : Int} (low : -2 ^ 64 ≤ x) (high : x < 2 ^ 64) (n : Nat) :
    x / 2 ^ min n 64 = x / 2 ^ n := by
  by_cases small : n ≤ 64
  · rw [Nat.min_eq_left small]
  · have large : 64 ≤ n := by omega
    have power : (2 : Int) ^ 64 ≤ 2 ^ n := by
      exact_mod_cast Nat.pow_le_pow_right (by decide) large
    rw [Nat.min_eq_right large]
    by_cases negative : x < 0
    · have minusOne {d : Int} (bound : (2 : Int) ^ 64 ≤ d) : x / d = -1 := by
        have positive : 0 < d := by omega
        exact ((Int.ediv_emod_unique positive).mpr
          ⟨show (x + d) + d * (-1) = x by omega, by omega, by omega⟩).1
      rw [minusOne (Int.le_refl _), minusOne power]
    · have zero {d : Int} (bound : (2 : Int) ^ 64 ≤ d) : x / d = 0 :=
        Int.ediv_eq_zero_of_lt (by omega) (by omega)
      rw [zero (Int.le_refl _), zero power]

/-- Shifting to the right divides by a power of two. -/
theorem toInt_shiftRight (n : Nat) :
    Value.toInt
        (if a.unsigned then ⟨a.bits >>> min n 64, true⟩
          else ⟨a.bits.sshiftRight (min n 64), false⟩) =
      represent a.unsigned (a.toInt / 2 ^ n) := by
  obtain ⟨bits, unsigned⟩ := a
  cases unsigned with
  | false =>
      have quotient : (bits.sshiftRight (min n 64)).toInt = bits.toInt / 2 ^ n := by
        have low : -2 ^ 63 ≤ bits.toInt := BitVec.le_toInt bits
        have high : bits.toInt < 2 ^ 63 := BitVec.toInt_lt
        rw [BitVec.toInt_sshiftRight, Int.shiftRight_eq_div_pow, ← ediv_two_pow_min (by omega) (by omega)]
        simp
      show (bits.sshiftRight (min n 64)).toInt = represent false (bits.toInt / 2 ^ n)
      rw [← quotient]
      exact (Value.represent_toInt ⟨bits.sshiftRight (min n 64), false⟩).symm
  | true =>
      have quotient : ((bits >>> min n 64).toNat : Int) = bits.toNat / 2 ^ n := by
        have high : bits.toNat < 2 ^ 64 := bits.isLt
        rw [BitVec.toNat_ushiftRight, Nat.shiftRight_eq_div_pow, ← ediv_two_pow_min (by omega) (by omega)]
        simp
      show ((bits >>> min n 64).toNat : Int) = represent true ((bits.toNat : Int) / 2 ^ n)
      rw [← quotient]
      exact (Value.represent_toInt ⟨bits >>> min n 64, true⟩).symm

theorem shifted_natCast (x : Int) (n : Nat) : shifted x n = x * 2 ^ n := by
  simp [shifted]

theorem shifted_neg_natCast (x : Int) (n : Nat) : shifted x (-n) = x / 2 ^ n := by
  cases n with
  | zero => simp [shifted]
  | succ n =>
      have negative : ¬(0 : Int) ≤ -((n + 1 : Nat) : Int) := by omega
      rw [shifted, if_neg negative, Int.neg_neg, Int.toNat_natCast]

/-- A negative count shifts the other way. -/
theorem toInt_shift (leftwards : Bool) :
    (shift leftwards a b).toInt =
      represent a.unsigned (shifted a.toInt (if leftwards then b.toInt else -b.toInt)) := by
  have left : Value.toInt ⟨a.bits <<< min b.toInt.natAbs 64, a.unsigned⟩ =
      represent a.unsigned (shifted a.toInt b.toInt.natAbs) := by
    rw [shiftLeft_eq, Value.toInt_ofInt, shifted_natCast]
  have right := toInt_shiftRight a b.toInt.natAbs
  rw [← shifted_neg_natCast] at right
  simp only [shift]
  by_cases negative : b.toInt < 0
  · have decided : decide (0 ≤ b.toInt) = false := decide_eq_false (by omega)
    cases leftwards with
    | true =>
        have count : -(b.toInt.natAbs : Int) = b.toInt := by omega
        rw [count] at right
        simpa [decided] using right
    | false =>
        have count : (b.toInt.natAbs : Int) = -b.toInt := by omega
        rw [count] at left
        simpa [decided] using left
  · have decided : decide (0 ≤ b.toInt) = true := decide_eq_true (by omega)
    cases leftwards with
    | true =>
        have count : (b.toInt.natAbs : Int) = b.toInt := by omega
        rw [count] at left
        simpa [decided] using left
    | false =>
        have count : -(b.toInt.natAbs : Int) = -b.toInt := by omega
        rw [count] at right
        simpa [decided] using right

/-! ### All operators -/

theorem unsigned_shift (leftwards : Bool) : (shift leftwards a b).unsigned = a.unsigned := by
  cases unsigned : a.unsigned <;> simp only [shift, unsigned] <;> split <;> simp

theorem unsigned_value? {op : BinaryOp} {v : Value} (known : op.value? a b = some v) :
    v.unsigned = op.type a.unsigned b.unsigned := by
  cases op with
  | shiftLeft | shiftRight =>
      simp only [value?, Option.some.injEq] at known
      rw [← known, unsigned_shift]
      rfl
  | div | mod =>
      simp only [value?, Option.ite_none_left_eq_some, Option.some.injEq] at known
      rw [← known.2]
      rfl
  | _ =>
      simp only [value?, Option.some.injEq] at known
      rw [← known]
      rfl

/-- An operator on words computes what it computes on integers. -/
theorem map_toInt_value? (op : BinaryOp) :
    (op.value? a b).map Value.toInt = op.meaning a.unsigned b.unsigned a.toInt b.toInt := by
  cases op with
  | mul =>
      simp only [value?, meaning, Option.map_some, ← Value.toInt_ofInt]
      rw [BitVec.ofInt_mul, Value.toInt_ofInt, Value.toInt_ofInt, ofInt_common, ofInt_common]
  | add =>
      simp only [value?, meaning, Option.map_some, ← Value.toInt_ofInt]
      rw [BitVec.ofInt_add, Value.toInt_ofInt, Value.toInt_ofInt, ofInt_common, ofInt_common]
  | sub =>
      simp only [value?, meaning, Option.map_some, ← Value.toInt_ofInt]
      rw [Int.sub_eq_add_neg, BitVec.ofInt_add, BitVec.ofInt_neg, Value.toInt_ofInt,
        Value.toInt_ofInt, ofInt_common, ofInt_common, BitVec.sub_eq_add_neg]
  | div =>
      simp only [value?, meaning, Value.toInt_eq_zero]
      by_cases zero : b.bits = 0
      · rw [if_pos zero, if_pos zero]
        rfl
      · rw [if_neg zero, if_neg zero, Option.map_some, toInt_div, ← Value.toInt_as, ← Value.toInt_as]
  | mod =>
      simp only [value?, meaning, Value.toInt_eq_zero]
      by_cases zero : b.bits = 0
      · rw [if_pos zero, if_pos zero]
        rfl
      · rw [if_neg zero, if_neg zero, Option.map_some, toInt_mod, ← Value.toInt_as, ← Value.toInt_as]
  | shiftLeft | shiftRight => exact congrArg some (toInt_shift a b _)
  | less => exact congrArg some (compare_less a b)
  | greater =>
      rw [meaning, Bool.or_comm]
      exact congrArg some (compare_less b a)
  | lessEqual => exact congrArg some (compare_lessEqual a b)
  | greaterEqual =>
      rw [meaning, Bool.or_comm]
      exact congrArg some (compare_lessEqual b a)
  | equal =>
      rw [value?, meaning, Option.map_some, Value.toInt_ofBool]
      exact congrArg some (truth_congr (beq_iff_eq.trans (bits_inj a b _)))
  | notEqual =>
      rw [value?, meaning, Option.map_some, Value.toInt_ofBool]
      exact congrArg some (truth_congr (bne_iff_ne.trans (bits_inj a b _).not))
  | bitAnd | bitXor | bitOr =>
      rw [value?, meaning, Option.map_some, Value.toInt_ofWord]
      simp only [bitwise, Value.ofInt_toInt]
  | logicalAnd =>
      rw [value?, meaning, Option.map_some, Value.toInt_ofBool]
      simp only [Bool.and_eq_true, Value.isTrue_iff]
  | logicalOr =>
      rw [value?, meaning, Option.map_some, Value.toInt_ofBool]
      simp only [Bool.or_eq_true, Value.isTrue_iff]

end BinaryOp

end CPreprocessor
