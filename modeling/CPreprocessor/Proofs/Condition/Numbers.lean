/-
# The numbers of a condition

A condition computes with integers of 64 bits. `Reads` says what a number of any spelling is read
as: an integer of the language has its value if it fits, and every other literal is a problem of
its own kind, as is a text that is no literal. The reader of numbers does exactly this
(`value_eq_iff`), although it does not know the literal that the validator has seen: it reads
digits again, wrapping around at 64 bits, and looks at what is left.
-/
import CPreprocessor.Proofs.Condition.Literal

namespace CPreprocessor.IntegerLiteral

open Number (IsInteger IsFloating IsIntegerSuffix IsUserSuffix withoutSeparators)

variable {token : Token} {radix : Radix} {digits suffix : Text}

/-- What a number of a condition is read as. -/
inductive Reads (token : Token) : Except Failure Value → Prop
  /-- An integer that fits in 64 bits has them as its value, and no sign if its suffix says so or it
  does not fit in 63. -/
  | integer {radix : Radix} {digits suffix : Text} (valid : Number.isValid token.lexeme = true)
      (isInteger : IsInteger radix digits suffix (withoutSeparators token.lexeme))
      (ends : IsIntegerSuffix suffix) (fits : radix.number digits < 2 ^ 64) :
      Reads token (.ok ⟨BitVec.ofNat 64 (radix.number digits),
        decide ('u' ∈ suffix ∨ 'U' ∈ suffix ∨ 2 ^ 63 ≤ radix.number digits)⟩)
  | tooLarge {radix : Radix} {digits suffix : Text} (valid : Number.isValid token.lexeme = true)
      (isInteger : IsInteger radix digits suffix (withoutSeparators token.lexeme))
      (ends : IsIntegerSuffix suffix) (large : 2 ^ 64 ≤ radix.number digits) :
      Reads token
        (.error ⟨.invalidExpression, token, "integer constant is too large".toList⟩)
  | userDefined {radix : Radix} {digits suffix : Text} (valid : Number.isValid token.lexeme = true)
      (isInteger : IsInteger radix digits suffix (withoutSeparators token.lexeme))
      (ends : IsUserSuffix suffix) :
      Reads token
        (.error ⟨.invalidExpression, token, "user-defined literal in preprocessor expression".toList⟩)
  | floating (valid : Number.isValid token.lexeme = true)
      (isFloating : IsFloating (withoutSeparators token.lexeme)) :
      Reads token
        (.error ⟨.invalidExpression, token, "floating constant in preprocessor expression".toList⟩)
  | noLiteral (invalid : Number.isValid token.lexeme = false) :
      Reads token (.error ⟨.invalidNumber, token, token.lexeme⟩)

/-! ## Integers -/

/-- What a suffix of the language says, as the reader looks for it. -/
theorem head_ne_underscore (ends : IsIntegerSuffix suffix) : suffix.head? ≠ some '_' := by
  have starts : ∀ suffix ∈ [] :: Number.integerSuffixes, suffix.head? ≠ some '_' := by decide
  exact starts _ (Number.mem_integerSuffixes_iff.mpr ends)

theorem value_integer (valid : Number.isValid token.lexeme = true)
    (isInteger : IsInteger radix digits suffix (withoutSeparators token.lexeme))
    (ends : IsIntegerSuffix suffix) (fits : radix.number digits < 2 ^ 64) :
    value token = .ok ⟨BitVec.ofNat 64 (radix.number digits),
      decide ('u' ∈ suffix ∨ 'U' ∈ suffix ∨ 2 ^ 63 ≤ radix.number digits)⟩ := by
  rw [value_of_isInteger valid isInteger, if_neg (head_ne_underscore ends),
    if_neg (Nat.not_le.mpr fits)]
  simp [Bool.or_assoc]

theorem value_tooLarge (valid : Number.isValid token.lexeme = true)
    (isInteger : IsInteger radix digits suffix (withoutSeparators token.lexeme))
    (ends : IsIntegerSuffix suffix) (large : 2 ^ 64 ≤ radix.number digits) :
    value token = .error ⟨.invalidExpression, token, "integer constant is too large".toList⟩ := by
  rw [value_of_isInteger valid isInteger, if_neg (head_ne_underscore ends), if_pos large]

theorem value_userDefined (valid : Number.isValid token.lexeme = true)
    (isInteger : IsInteger radix digits suffix (withoutSeparators token.lexeme))
    (ends : IsUserSuffix suffix) :
    value token = .error
      ⟨.invalidExpression, token, "user-defined literal in preprocessor expression".toList⟩ := by
  obtain ⟨name, rfl, -⟩ := ends
  rw [value_of_isInteger valid isInteger, List.head?_cons, if_pos rfl]

/-! ## Floating numbers -/

/-- The digits that a mantissa starts with end at its point, if it has one. -/
theorem exists_digits_of_isMantissa {point : Bool} {mantissa : Text}
    (isMantissa : Number.IsMantissa radix point mantissa) (noQuote : '\'' ∉ mantissa) :
    ∃ digits after, mantissa = digits ++ after ∧ (∀ c ∈ digits, radix.isDigit c = true) ∧
      (point = true ∧ after.head? = some '.' ∨ point = false ∧ after = []) := by
  cases isMantissa with
  | noPoint isDigits =>
    exact ⟨mantissa, [], by simp, isDigits.isDigit noQuote, .inr ⟨rfl, rfl⟩⟩
  | @pointAfter whole isDigits =>
    exact ⟨whole, ['.'], rfl, isDigits.isDigit (by simp_all), .inl ⟨rfl, rfl⟩⟩
  | @pointBefore fraction isDigits =>
    exact ⟨[], '.' :: fraction, rfl, by simp, .inl ⟨rfl, rfl⟩⟩
  | @pointBetween whole fraction isDigits more =>
    exact ⟨whole, '.' :: fraction, rfl, isDigits.isDigit (by simp_all), .inl ⟨rfl, rfl⟩⟩

/-- What follows the digits of a floating number, as far as it is read. -/
def floatingStarts (radix : Radix) : List (Option Char) :=
  if radix = .hexadecimal then [some '.', some 'p', some 'P'] else [some '.', some 'e', some 'E']

/-- A number is a floating one for the reader as soon as a point or an exponent follows its
digits. -/
theorem value_of_floatingStarts {after : Text} (valid : Number.isValid token.lexeme = true)
    (cut : split (withoutSeparators token.lexeme) = (radix.base, digits ++ after))
    (areDigits : ∀ c ∈ digits, isDigit radix.base c = true)
    (starts : after.head? ∈ floatingStarts radix) :
    value token = .error
      ⟨.invalidExpression, token, "floating constant in preprocessor expression".toList⟩ := by
  have stops : ∀ head ∈ floatingStarts radix, head.any (isDigit radix.base) = false := by
    cases radix <;> decide
  have floating : isFloating radix.base after = true := by
    have letters : ∀ head ∈ floatingStarts radix,
        head.any (fun c => isFloating radix.base [c]) = true := by
      cases radix <;> decide
    have first := letters _ starts
    cases after with
    | nil => cases first
    | cons c after => exact first
  rw [value_of_split valid cut areDigits (stops _ starts), floating, if_pos rfl]

theorem value_floating (valid : Number.isValid token.lexeme = true)
    (isFloating : IsFloating (withoutSeparators token.lexeme)) :
    value token = .error
      ⟨.invalidExpression, token, "floating constant in preprocessor expression".toList⟩ := by
  have plain := Number.quote_not_mem_withoutSeparators token.lexeme
  generalize letters : withoutSeparators token.lexeme = text at isFloating plain
  cases isFloating with
  | @decimal point mantissa exponent suffix isMantissa isExponent ends =>
    have unmarked := Number.unmarked_of_isMantissa isMantissa
      (Number.exponent_unmarked (isExponent.imp_left And.left) ends)
    obtain ⟨radix, small, base⟩ : ∃ radix, radix ≠ Radix.hexadecimal ∧
        (if (mantissa ++ (exponent ++ suffix)).head? = some '0' then 8 else 10) = radix.base := by
      split
      · exact ⟨.octal, by decide, rfl⟩
      · exact ⟨.decimal, by decide, rfl⟩
    have cut := split_of_unmarked unmarked
    obtain ⟨digits, after, rfl, areDigits, stop⟩ :=
      exists_digits_of_isMantissa isMantissa (by simp_all)
    have starts : (after ++ (exponent ++ suffix)).head? ∈ floatingStarts radix := by
      rw [floatingStarts, if_neg small]
      obtain ⟨-, point⟩ | ⟨rfl, rfl⟩ := stop
      · obtain ⟨more, rfl⟩ := List.head?_eq_some_iff.mp point
        simp
      · obtain ⟨-, none⟩ | isExponent := isExponent
        · cases none
        · obtain ⟨letter, isLetter, more, rfl⟩ := isExponent.head
          simpa using .inr (by simpa using isLetter)
    rw [base, List.append_assoc] at cut
    refine value_of_floatingStarts valid (by rw [letters, List.append_assoc, cut]) ?_ starts
    intro c present
    have isDigit := areDigits c present
    rw [Radix.isDigit] at isDigit
    simp [IntegerLiteral.isDigit, isDigit]
  | @hexadecimal point mark mantissa exponent suffix known isMantissa isExponent ends =>
    obtain ⟨digits, after, rfl, areDigits, stop⟩ :=
      exists_digits_of_isMantissa isMantissa (by simp_all)
    have starts : (after ++ (exponent ++ suffix)).head? ∈ floatingStarts .hexadecimal := by
      rw [floatingStarts, if_pos rfl]
      obtain ⟨-, point⟩ | ⟨-, rfl⟩ := stop
      · obtain ⟨more, rfl⟩ := List.head?_eq_some_iff.mp point
        simp
      · obtain ⟨letter, isLetter, more, rfl⟩ := isExponent.head
        simpa using .inr (by simpa using isLetter)
    have cut : split (mark ++ (digits ++ after ++ (exponent ++ suffix))) =
        (Radix.hexadecimal.base, digits ++ (after ++ (exponent ++ suffix))) := by
      simp only [Radix.marks, List.mem_cons, List.not_mem_nil, or_false] at known
      rw [List.append_assoc]
      obtain rfl | rfl := known <;> rfl
    exact value_of_floatingStarts valid (letters.symm ▸ cut)
      (fun c present => isDigit_of_radix (areDigits c present)) starts

/-! ## Every number -/

/-- A number is read as what its spelling says, and as nothing else. -/
theorem value_eq_iff (token : Token) (outcome : Except Failure Value) :
    value token = outcome ↔ Reads token outcome := by
  have read : ∀ {outcome}, Reads token outcome → value token = outcome := by
    intro outcome reads
    cases reads with
    | integer valid isInteger ends fits => exact value_integer valid isInteger ends fits
    | tooLarge valid isInteger ends large => exact value_tooLarge valid isInteger ends large
    | userDefined valid isInteger ends => exact value_userDefined valid isInteger ends
    | floating valid isFloating => exact value_floating valid isFloating
    | noLiteral invalid => simp [value, invalid]
  have total : ∃ outcome, Reads token outcome := by
    cases valid : Number.isValid token.lexeme with
    | false => exact ⟨_, .noLiteral valid⟩
    | true =>
      have accepted := valid
      rw [Number.isValid, Bool.and_eq_true] at accepted
      obtain ⟨isInteger⟩ | ⟨isFloating⟩ := Number.isLiteral_of_isPlain accepted.2
      · obtain ends | ends := isInteger.ends
        · obtain fits | large := Nat.lt_or_ge (Radix.number _ _) (2 ^ 64)
          · exact ⟨_, .integer valid isInteger ends fits⟩
          · exact ⟨_, .tooLarge valid isInteger ends large⟩
        · exact ⟨_, .userDefined valid isInteger ends⟩
      · exact ⟨_, .floating valid isFloating⟩
  refine ⟨?_, read⟩
  rintro rfl
  obtain ⟨outcome, reads⟩ := total
  rwa [read reads]

end CPreprocessor.IntegerLiteral
