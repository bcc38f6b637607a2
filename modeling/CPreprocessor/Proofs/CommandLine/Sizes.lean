/-
# Sizes on the command line

How deeply headers may nest and how many jobs there are is given in decimal digits. A
text of digits is a size however long it is: what does not fit in 64 bits wraps around.
So a size is the number that is written if that fits, and another one if it does not
(`readSize_eq`), and these are the only texts that are not read as they stand
(`readSize_eq_exactSize_iff`).
-/
import CPreprocessor.CommandLine
import CPreprocessor.Proofs.Condition.Literal

namespace CPreprocessor.CommandLine

/-- A text is a number in decimal digits. -/
def IsDecimal (text : Text) : Prop :=
  text ≠ [] ∧ ∀ c ∈ text, Radix.decimal.isDigit c = true

instance (text : Text) : Decidable (IsDecimal text) :=
  inferInstanceAs (Decidable (_ ∧ _))

/-- What reading a size gives if only a number that fits in 64 bits is one. -/
def exactSize (text : Text) (size : Nat) : Bool × Nat :=
  if IsDecimal text ∧ Radix.decimal.number text < 2 ^ 64 then (true, Radix.decimal.number text)
  else (false, size)

variable {text : Text}

/-- Each digit takes the low 64 bits of a number to those of the number with one digit more. -/
theorem sizeFrom?_ofNat (digits : ∀ c ∈ text, c.isDigit = true) (n : Nat) :
    sizeFrom? (BitVec.ofNat 64 n) text =
      some (BitVec.ofNat 64 (text.foldl (fun n c => n * 10 + Text.digitValue c) n)) := by
  induction text generalizing n with
  | nil => rfl
  | cons c rest ih =>
    obtain ⟨digit, digits⟩ := List.forall_mem_cons.mp digits
    have pushed : BitVec.ofNat 64 n * 10 + BitVec.ofNat 64 (Text.digitValue c)
        = BitVec.ofNat 64 (n * 10 + Text.digitValue c) := by
      rw [BitVec.ofNat_add, BitVec.ofNat_mul]
      rfl
    rw [sizeFrom?, if_pos digit, pushed, ih digits, List.foldl_cons]

theorem sizeFrom?_eq_none_iff (size : BitVec 64) :
    sizeFrom? size text = none ↔ ¬∀ c ∈ text, c.isDigit = true := by
  induction text generalizing size with
  | nil => simp [sizeFrom?]
  | cons c rest ih =>
    rw [sizeFrom?, List.forall_mem_cons]
    split
    · rename_i digit
      rw [ih]
      simp [digit]
    · rename_i other
      simp [other]

/-- Every number is a size: its low 64 bits. Of any other text nothing is kept. -/
theorem readSize_eq (text : Text) (size : Nat) :
    readSize text size =
      if IsDecimal text then (true, Radix.decimal.number text % 2 ^ 64) else (false, size) := by
  unfold readSize
  by_cases empty : text = []
  · rw [if_pos empty, if_neg (fun decimal => decimal.1 empty)]
  · rw [if_neg empty]
    by_cases digits : ∀ c ∈ text, c.isDigit = true
    · have number : text.foldl (fun n c => n * 10 + Text.digitValue c) 0
          = Radix.decimal.number text := number_eq .decimal text
      have read : sizeFrom? 0 text = some (BitVec.ofNat 64 (Radix.decimal.number text)) :=
        number ▸ sizeFrom?_ofNat digits 0
      rw [if_pos ⟨empty, digits⟩, read, ← BitVec.toNat_ofNat]
    · rw [if_neg (fun decimal => digits decimal.2), (sizeFrom?_eq_none_iff 0).mpr digits]

example : readSize "18446744073709551617".toList 200 = (true, 1) := by decide

/-- Only a number that does not fit in 64 bits is read as a size that it is not. -/
theorem readSize_eq_exactSize_iff (text : Text) (size : Nat) :
    readSize text size =
        (if IsDecimal text then (true, Radix.decimal.number text % 2 ^ 64) else (false, size)) ∧
      (readSize text size = exactSize text size ↔
        ¬(IsDecimal text ∧ 2 ^ 64 ≤ Radix.decimal.number text)) := by
  refine ⟨readSize_eq text size, ?_⟩
  rw [readSize_eq, exactSize]
  by_cases decimal : IsDecimal text
  · rw [if_pos decimal]
    obtain fits | large := Nat.lt_or_ge (Radix.decimal.number text) (2 ^ 64)
    · rw [if_pos ⟨decimal, fits⟩, Nat.mod_eq_of_lt fits]
      exact iff_of_true rfl fun wraps => Nat.not_le.mpr fits wraps.2
    · rw [if_neg fun both => Nat.not_lt.mpr large both.2]
      exact iff_of_false (fun same => Bool.noConfusion (congrArg Prod.fst same))
        (not_not_intro ⟨decimal, large⟩)
  · rw [if_neg decimal, if_neg fun both => decimal both.1]
    exact iff_of_true rfl fun wraps => decimal wraps.1

/-! ## The options that take a size -/

variable (c : CommandLine)

/-- Files may be nested as deeply as the low 64 bits of the number say. -/
theorem withArgument_depth (text : Text) :
    c.withArgument (depthOption ++ text) =
      if IsDecimal text then
        .ok { c with config :=
          { c.config with maxIncludeDepth := Radix.decimal.number text % 2 ^ 64 } }
      else
        .error (.invalidDepth (depthOption ++ text)) := by
  have starts : depthOption.isPrefixOf (depthOption ++ text) = true :=
    List.isPrefixOf_iff_prefix.mpr (List.prefix_append _ _)
  rw [withArgument, if_pos starts, List.drop_left, readSize_eq]
  by_cases decimal : IsDecimal text
  · rw [if_pos decimal, if_pos decimal]
  · rw [if_neg decimal, if_neg decimal]

/-- A number of jobs is refused if its low 64 bits are zero. -/
theorem withValue_jobs (text : Text) :
    c.withValue text .jobs =
      if IsDecimal text ∧ Radix.decimal.number text % 2 ^ 64 ≠ 0 then .ok c
      else .error .invalidJobs := by
  rw [withValue, readSize_eq]
  by_cases decimal : IsDecimal text
  · rw [if_pos decimal]
    cases low : Radix.decimal.number text % 2 ^ 64 with
    | zero => rw [if_neg fun accepted => accepted.2 rfl]
    | succ n => rw [if_pos ⟨decimal, Nat.succ_ne_zero n⟩]
  · rw [if_neg decimal, if_neg fun accepted => decimal accepted.1]

end CPreprocessor.CommandLine
