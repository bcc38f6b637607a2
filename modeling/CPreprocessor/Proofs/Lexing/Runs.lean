/-
# Runs of characters

Most lexemes are runs of characters of some class, or end with one. A run that is
followed by a text goes on into it exactly if the text starts with a character of
the class; this module has the few forms of that remark that the lexer needs.
-/
import Mathlib.Tactic.SplitIfs
import Mathlib.Tactic.ByContra
import CPreprocessor.Text

namespace CPreprocessor.Text

variable {p : Char → Bool} {run rest : Text}

@[simp]
theorem first_nil : first [] = nul := rfl

@[simp]
theorem first_cons (c : Char) (rest : Text) : first (c :: rest) = c := rfl

/-- What follows a text that is not empty does not change its first character. -/
theorem first_append (nonempty : run ≠ []) (rest : Text) : first (run ++ rest) = first run := by
  cases run with
  | nil => exact (nonempty rfl).elim
  | cons c run => rfl

/-! ## Classes of characters as ranges of codes -/

theorem isDigit_iff {c : Char} : c.isDigit = true ↔ 48 ≤ c.toNat ∧ c.toNat ≤ 57 := by
  simp only [Char.isDigit, Bool.and_eq_true, decide_eq_true_eq, ge_iff_le, UInt32.le_iff_toNat_le]
  rfl

theorem isAlpha_iff {c : Char} :
    c.isAlpha = true ↔ 65 ≤ c.toNat ∧ c.toNat ≤ 90 ∨ 97 ≤ c.toNat ∧ c.toNat ≤ 122 := by
  show (decide (c.val ≥ 65 ∧ c.val ≤ 90) || decide (c.val ≥ 97) && decide (c.val ≤ 122))
    = true ↔ _
  simp only [Bool.or_eq_true, Bool.and_eq_true, decide_eq_true_eq, ge_iff_le,
    UInt32.le_iff_toNat_le]
  rfl

theorem isIdentifierStart_iff {c : Char} :
    isIdentifierStart c = true ↔
      c.isAlpha = true ∨ c.toNat = 95 ∨ c.toNat = 36 ∨ 128 ≤ c.toNat := by
  simp only [isIdentifierStart, Bool.or_eq_true, decide_eq_true_eq, ← Char.toNat_inj, or_assoc]
  rfl

/-- No digit starts an identifier. -/
theorem isIdentifierStart_digit {c : Char} (digit : c.isDigit = true) :
    isIdentifierStart c = false := by
  rw [isDigit_iff] at digit
  rw [Bool.eq_false_iff, ne_eq, isIdentifierStart_iff, isAlpha_iff]
  omega

theorem isIdentifierChar_of_isIdentifierStart {c : Char} (starts : isIdentifierStart c = true) :
    isIdentifierChar c = true := by
  simp [isIdentifierChar, starts]

/-! ## Runs -/

/-- A run ends where the next character is of another class. -/
theorem takeWhile_append (all : ∀ c ∈ run, p c = true) (ends : p (first rest) = false) :
    (run ++ rest).takeWhile p = run := by
  induction run with
  | nil =>
      cases rest with
      | nil => rfl
      | cons c rest =>
          have stops : p c = false := ends
          simp [stops]
  | cons c run ih =>
      have isOne : p c = true := all c List.mem_cons_self
      rw [List.cons_append, List.takeWhile_cons_of_pos isOne,
        ih fun d present => all d (List.mem_cons_of_mem _ present)]

/-- A run that has just the length of a text is that text. -/
theorem forall_of_length_takeWhile (nulEnds : p nul = false)
    (length : ((run ++ rest).takeWhile p).length = run.length) :
    (∀ c ∈ run, p c = true) ∧ p (first rest) = false := by
  induction run with
  | nil =>
      refine ⟨nofun, ?_⟩
      cases rest with
      | nil => exact nulEnds
      | cons c rest =>
          cases isOne : p c with
          | false => exact isOne
          | true => simp [isOne] at length
  | cons c run ih =>
      cases isOne : p c with
      | false => simp [isOne] at length
      | true =>
          rw [List.cons_append, List.takeWhile_cons_of_pos isOne, List.length_cons, List.length_cons,
            Nat.succ.injEq] at length
          obtain ⟨all, ends⟩ := ih length
          refine ⟨fun d present => ?_, ends⟩
          cases List.mem_cons.mp present with
          | inl same => rw [same, isOne]
          | inr later => exact all d later

/-- A prefix of a text that is no longer than the first part of it is a prefix of that part. -/
theorem isPrefixOf_append {needle : Text} (short : needle.length ≤ run.length) (rest : Text) :
    needle.isPrefixOf (run ++ rest) = needle.isPrefixOf run := by
  rw [Bool.eq_iff_iff, List.isPrefixOf_iff_prefix, List.isPrefixOf_iff_prefix]
  constructor
  · intro isPrefix
    exact List.prefix_of_prefix_length_le isPrefix (List.prefix_append _ _) short
  · intro isPrefix
    exact isPrefix.trans (List.prefix_append _ _)

/-! ## Numbers -/

theorem ofNat_ne_nil (n : Nat) : ofNat n ≠ [] :=
  Nat.toDigits_ne_nil

theorem isDigit_of_mem_ofNat {n : Nat} : ∀ c ∈ ofNat n, c.isDigit = true :=
  fun _ present => Nat.isDigit_of_mem_toDigits (by decide) (by decide) present

theorem ofNat_inj {n m : Nat} (same : ofNat n = ofNat m) : n = m := by
  have value (n : Nat) : Nat.ofDigitChars 10 (ofNat n) 0 = n := Nat.ofDigitChars_ten_toDigits
  rw [← value n, same, value m]

/-- A number ends before what is no digit. -/
theorem ofNat_append_inj {n m : Nat} {c : Char} (noDigit : c.isDigit = false) {rest rest' : Text}
    (same : ofNat n ++ c :: rest = ofNat m ++ c :: rest') : n = m ∧ rest = rest' := by
  have digits (n : Nat) (rest : Text) : (ofNat n ++ c :: rest).takeWhile Char.isDigit = ofNat n :=
    takeWhile_append isDigit_of_mem_ofNat noDigit
  have numbers : ofNat n = ofNat m := by rw [← digits n rest, same, digits m rest']
  rw [numbers, List.append_cancel_left_eq, List.cons.injEq] at same
  exact ⟨ofNat_inj numbers, same.2⟩

end CPreprocessor.Text
