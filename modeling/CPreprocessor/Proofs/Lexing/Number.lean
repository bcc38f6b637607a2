/-
# Where a number ends

A preprocessing number goes on with letters, digits, underscores and points, with a
sign after an exponent letter, and with a digit separator before a letter or digit.
Whether a number ends before a text is therefore seen in the last character of the
number and the first two characters of the text.
-/
import CPreprocessor.Token.Lexeme
import CPreprocessor.Proofs.Lexing.Runs

namespace CPreprocessor.Lexeme

/-- The letter and the character after it are an exponent with a sign. -/
def isExponent (letter next : Char) : Bool :=
  ['e', 'E', 'p', 'P'].contains letter && (next = '+' || next = '-')

/-- A character of a number, seen with the one that follows it. -/
def continuesNumber (c next : Char) : Bool :=
  c.isAlphanum || c = '_' || c = '.' || (c = '\'' && next.isAlphanum)

theorem numberTail_nil : numberTail [] = 0 := by
  rw [numberTail]

theorem numberTail_cons (c : Char) (rest : Text) :
    numberTail (c :: rest) =
      if isExponent c (Text.first rest) then 2 + numberTail (rest.drop 1)
      else if continuesNumber c (Text.first rest) then 1 + numberTail rest
      else 0 := by
  rw [numberTail]
  rfl

theorem numberTail_le (text : Text) : numberTail text ≤ text.length := by
  induction size : text.length using Nat.strongRecOn generalizing text with
  | ind n ih =>
      subst size
      cases text with
      | nil => rw [numberTail_nil]; exact Nat.le_refl _
      | cons c rest =>
          rw [numberTail_cons, List.length_cons]
          split_ifs with exponent goesOn
          · have nonempty : rest ≠ [] := by
              rintro rfl
              simp [isExponent, Text.nul] at exponent
            have positive := List.length_pos_iff.mpr nonempty
            have later := ih (rest.drop 1).length (by simp only [List.length_drop, List.length_cons]; omega) _ rfl
            rw [List.length_drop] at later
            omega
          · have later := ih rest.length (by simp) _ rfl
            omega
          · omega

/-- A number whose last character is `last` ends before a text. -/
def NumberEnds (last : Char) (rest : Text) : Prop :=
  isExponent last (Text.first rest) = false ∧
    continuesNumber (Text.first rest) (Text.first (rest.drop 1)) = false

/-- A text that goes on with a number starts with a character of one. -/
theorem numberTail_eq_zero {rest : Text} :
    numberTail rest = 0 ↔
      continuesNumber (Text.first rest) (Text.first (rest.drop 1)) = false := by
  cases rest with
  | nil => simp [numberTail_nil, continuesNumber, Text.nul]
  | cons c rest =>
      rw [numberTail_cons]
      show _ ↔ continuesNumber c (Text.first rest) = false
      cases exponent : isExponent c (Text.first rest) with
      | true =>
          have letter : c.isAlphanum = true := by
            simp only [isExponent, Bool.and_eq_true, List.contains_iff_mem, List.mem_cons,
              List.not_mem_nil, or_false] at exponent
            rcases exponent.1 with rfl | rfl | rfl | rfl <;> decide
          simp [continuesNumber, letter]
      | false =>
          simp only [Bool.false_eq_true, if_false]
          cases continuesNumber c (Text.first rest) with
          | true => simp
          | false => simp

/-- A sign is no exponent letter. -/
theorem isExponent_sign {letter sign : Char} (exponent : isExponent letter sign = true) (next : Char) :
    isExponent sign next = false := by
  simp only [isExponent, Bool.and_eq_true, Bool.or_eq_true, decide_eq_true_eq] at exponent
  rcases exponent.2 with rfl | rfl <;> rfl

/-- The rest of a number is a single character, or an exponent with its sign, and the rest after
it. -/
theorem numberTail_append_cons {c : Char} {tail rest : Text}
    (whole : numberTail (c :: tail ++ rest) = tail.length + 1) :
    (∃ sign more, tail = sign :: more ∧ isExponent c sign = true ∧
        numberTail (more ++ rest) = more.length) ∨
      (isExponent c (Text.first (tail ++ rest)) = false ∧
        continuesNumber c (Text.first (tail ++ rest)) = true ∧
        numberTail (tail ++ rest) = tail.length) := by
  rw [List.cons_append, numberTail_cons] at whole
  cases exponent : isExponent c (Text.first (tail ++ rest)) with
  | true =>
      rw [exponent, if_pos rfl] at whole
      cases tail with
      | nil => simp only [List.length_nil] at whole; omega
      | cons sign more =>
          refine .inl ⟨sign, more, rfl, exponent, ?_⟩
          simp only [List.cons_append, List.drop_succ_cons, List.drop_zero, List.length_cons] at whole
          omega
  | false =>
      rw [exponent, if_neg (by decide)] at whole
      cases goesOn : continuesNumber c (Text.first (tail ++ rest)) with
      | false =>
          rw [goesOn, if_neg (by decide)] at whole
          omega
      | true =>
          rw [goesOn, if_pos rfl] at whole
          exact .inr ⟨rfl, rfl, by omega⟩

/-- The characters that numbers are made of. -/
def isNumberChar (c : Char) : Bool :=
  c.isAlphanum || ['_', '.', '\'', '+', '-'].contains c

theorem isNumberChar_of_continuesNumber {c next : Char} (goesOn : continuesNumber c next = true) :
    isNumberChar c = true := by
  simp only [continuesNumber, Bool.or_eq_true, Bool.and_eq_true, decide_eq_true_eq] at goesOn
  rcases goesOn with ((alphanumeric | rfl) | rfl) | ⟨rfl, -⟩
  · simp [isNumberChar, alphanumeric]
  · rfl
  · rfl
  · rfl

theorem isNumberChar_of_isExponent {letter sign : Char} (exponent : isExponent letter sign = true) :
    isNumberChar letter = true ∧ isNumberChar sign = true := by
  simp only [isExponent, Bool.and_eq_true, Bool.or_eq_true, decide_eq_true_eq, List.contains_iff_mem,
    List.mem_cons, List.not_mem_nil, or_false] at exponent
  obtain ⟨isLetter, isSign⟩ := exponent
  constructor
  · rcases isLetter with rfl | rfl | rfl | rfl <;> rfl
  · rcases isSign with rfl | rfl <;> rfl

/-- What is in no number is neither the letter nor the sign of an exponent. -/
theorem isExponent_eq_false_of_isNumberChar {letter sign : Char}
    (noNumber : isNumberChar letter = false ∨ isNumberChar sign = false) :
    isExponent letter sign = false := by
  rw [Bool.eq_false_iff]
  intro exponent
  obtain ⟨isLetter, isSign⟩ := isNumberChar_of_isExponent exponent
  rw [isLetter, isSign, or_self] at noNumber
  cases noNumber

theorem continuesNumber_eq_false_of_isNumberChar {c : Char} (noNumber : isNumberChar c = false)
    (next : Char) : continuesNumber c next = false := by
  rw [Bool.eq_false_iff]
  intro goesOn
  rw [isNumberChar_of_continuesNumber goesOn] at noNumber
  cases noNumber

/-- The rest of a number is made of the characters of numbers. -/
theorem forall_isNumberChar {tail rest : Text} (whole : numberTail (tail ++ rest) = tail.length) :
    ∀ c ∈ tail, isNumberChar c = true := by
  induction size : tail.length using Nat.strongRecOn generalizing tail with
  | ind n ih =>
      subst size
      cases tail with
      | nil => exact nofun
      | cons c tail =>
          rcases numberTail_append_cons whole with
            ⟨sign, more, rfl, exponent, shorter⟩ | ⟨-, goesOn, shorter⟩
          · have later := ih more.length (by simp only [List.length_cons]; omega) shorter rfl
            obtain ⟨isLetter, isSign⟩ := isNumberChar_of_isExponent exponent
            exact List.forall_mem_cons.mpr ⟨isLetter, List.forall_mem_cons.mpr ⟨isSign, later⟩⟩
          · have later := ih tail.length (by simp) shorter rfl
            exact List.forall_mem_cons.mpr ⟨isNumberChar_of_continuesNumber goesOn, later⟩

/-- A number that ends before one text ends before every text that does not continue it. -/
theorem numberTail_append_of_ends {tail other rest : Text} {before : Char}
    (whole : numberTail (tail ++ other) = tail.length)
    (ends : NumberEnds (tail.getLastD before) rest) : numberTail (tail ++ rest) = tail.length := by
  induction size : tail.length using Nat.strongRecOn generalizing tail before with
  | ind n ih =>
      subst size
      cases tail with
      | nil => exact numberTail_eq_zero.mpr ends.2
      | cons c tail =>
          rw [List.getLastD_cons] at ends
          rcases numberTail_append_cons whole with
            ⟨sign, more, rfl, exponent, shorter⟩ | ⟨noExponent, goesOn, shorter⟩
          · rw [List.getLastD_cons] at ends
            have later := ih more.length (by simp only [List.length_cons]; omega) shorter ends rfl
            rw [List.cons_append, numberTail_cons, List.cons_append, Text.first_cons, exponent, if_pos rfl,
              List.drop_succ_cons, List.drop_zero, later]
            simp only [List.length_cons]
            omega
          · have later := ih tail.length (by simp) shorter ends rfl
            have same : isExponent c (Text.first (tail ++ rest)) = false ∧
                continuesNumber c (Text.first (tail ++ rest)) = true := by
              cases tail with
              | nil =>
                  refine ⟨ends.1, ?_⟩
                  -- A separator at the end would need a letter or digit after it.
                  have nothing := numberTail_eq_zero.mp shorter
                  simp only [continuesNumber, List.nil_append, Bool.or_eq_true, Bool.and_eq_true,
                    Bool.or_eq_false_iff] at nothing goesOn ⊢
                  rcases goesOn with goesOn | ⟨-, alphanumeric⟩
                  · exact .inl goesOn
                  · rw [nothing.1.1.1] at alphanumeric
                    cases alphanumeric
              | cons d tail => exact ⟨noExponent, goesOn⟩
            rw [List.cons_append, numberTail_cons, same.1, same.2, if_neg (by decide), if_pos rfl, later,
              List.length_cons, Nat.add_comm]

/-- A number ends before the text that follows it. -/
theorem numberEnds_of_numberTail {tail rest : Text} {before : Char}
    (whole : numberTail (tail ++ rest) = tail.length)
    (noExponent : isExponent before (Text.first (tail ++ rest)) = false) :
    NumberEnds (tail.getLastD before) rest := by
  induction size : tail.length using Nat.strongRecOn generalizing tail before with
  | ind n ih =>
      subst size
      cases tail with
      | nil => exact ⟨noExponent, numberTail_eq_zero.mp whole⟩
      | cons c tail =>
          rw [List.getLastD_cons]
          rcases numberTail_append_cons whole with
            ⟨sign, more, rfl, exponent, shorter⟩ | ⟨noExponent, -, shorter⟩
          · rw [List.getLastD_cons]
            exact ih more.length (by simp only [List.length_cons]; omega) shorter
              (isExponent_sign exponent _) rfl
          · exact ih tail.length (by simp) shorter noExponent rfl

end CPreprocessor.Lexeme
