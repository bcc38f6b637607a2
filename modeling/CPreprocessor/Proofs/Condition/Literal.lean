/-
# Integers of a condition

An integer is written with the digits of a radix, after the mark of that radix and
before a suffix that says how it is stored. `IntegerConstant` states this without
reference to how such a literal is read, and `value_of_spells` says that the reader
of conditions gives every one of them its value, however it is cut up by digit
separators.
-/
import Mathlib.Data.List.Induction
import CPreprocessor.Condition.Literal
import CPreprocessor.Proofs.Number.Plain

namespace CPreprocessor

/-- An integer of at most 64 bits, as it is written without digit separators. -/
structure IntegerConstant where
  radix : Radix
  mark : Text
  /-- The first digit and the others. -/
  first : Char
  others : Text
  suffix : Text
  mark_mem : mark ∈ radix.marks
  isDigit_of_mem : ∀ c ∈ first :: others, radix.isDigit c = true
  mayStart_first : radix.mayStart first = true
  suffix_mem : suffix ∈ [] :: Number.integerSuffixes
  number_lt : radix.number (first :: others) < 2 ^ 64

namespace IntegerConstant

/-- The digits of an integer. -/
def digits (i : IntegerConstant) : Text :=
  i.first :: i.others

/-- The value of an integer. -/
def value (i : IntegerConstant) : Nat :=
  i.radix.number i.digits

/-- An integer has no sign if its suffix says so, or if it would not fit otherwise. -/
def unsigned (i : IntegerConstant) : Bool :=
  i.suffix.contains 'u' || i.suffix.contains 'U' || 2 ^ 63 ≤ i.value

/-- The letters and digits that an integer is written with. -/
def letters (i : IntegerConstant) : Text :=
  i.mark ++ (i.digits ++ i.suffix)

end IntegerConstant

/-- A text is made of some letters and digits, with single quotes between them here and there. -/
inductive Separated : Text → Text → Prop
  | last {c : Char} (alphanumeric : c.isAlphanum = true) : Separated [c] [c]
  | next {c : Char} {text letters : Text} (alphanumeric : c.isAlphanum = true)
      (more : Separated text letters) : Separated (c :: text) (c :: letters)
  | separator {c : Char} {text letters : Text} (alphanumeric : c.isAlphanum = true)
      (more : Separated text letters) : Separated (c :: '\'' :: text) (c :: letters)

/-- A token spells an integer. -/
def IntegerConstant.Spells (i : IntegerConstant) (token : Token) : Prop :=
  token.kind = .number ∧ Separated token.lexeme i.letters

/-! ## Digit separators -/

theorem ne_quote_of_isAlphanum {c : Char} (alphanumeric : c.isAlphanum = true) : c ≠ '\'' := by
  rintro rfl
  revert alphanumeric
  decide

namespace Separated

variable {text letters : Text}

/-- The first byte is a letter or digit. -/
theorem head_isAlphanum (separated : Separated text letters) :
    text.head?.any Char.isAlphanum = true := by
  cases separated <;> simpa

/-- Every quote stands between two letters or digits. -/
theorem separatorsStandBetween (separated : Separated text letters) (before : Option Char) :
    Number.separatorsStandBetween before text = true := by
  induction separated generalizing before with
  | last alphanumeric =>
      simp [Number.separatorsStandBetween, ne_quote_of_isAlphanum alphanumeric]
  | next alphanumeric more ih =>
      simp [Number.separatorsStandBetween, ne_quote_of_isAlphanum alphanumeric, ih]
  | separator alphanumeric more ih =>
      simp [Number.separatorsStandBetween, ne_quote_of_isAlphanum alphanumeric, alphanumeric, ih,
        more.head_isAlphanum]

/-- The quotes are what is left out. -/
theorem withoutSeparators (separated : Separated text letters) :
    Number.withoutSeparators text = letters := by
  unfold Number.withoutSeparators
  induction separated with
  | last alphanumeric => simp [ne_quote_of_isAlphanum alphanumeric]
  | next alphanumeric more ih => simpa [ne_quote_of_isAlphanum alphanumeric] using ih
  | separator alphanumeric more ih => simpa [ne_quote_of_isAlphanum alphanumeric] using ih

end Separated

/-! ## Digits in 64 bits -/

namespace IntegerLiteral

theorem digitValue_lt {c : Char} (isDigit : Text.isHexDigit c = true) : Text.digitValue c < 16 := by
  have ascii : ∀ n < 128, Text.isHexDigit (Char.ofNat n) = true →
      Text.digitValue (Char.ofNat n) < 16 := by
    decide
  have small : c.toNat < 128 := by
    simp only [Text.isHexDigit, Char.isDigit, Bool.or_eq_true, Bool.and_eq_true,
      decide_eq_true_eq, Char.le_def, UInt32.le_iff_toNat_le] at isDigit
    have bounds : '9'.val.toNat = 57 ∧ 'f'.val.toNat = 102 ∧ 'F'.val.toNat = 70 := by decide
    have same : c.toNat = c.val.toNat := rfl
    omega
  have bounded := ascii c.toNat small
  rw [Char.ofNat_toNat] at bounded
  exact bounded isDigit

theorem isHexDigit_of_isDigit {base : Nat} {c : Char} (isDigit : isDigit base c = true) :
    Text.isHexDigit c = true := by
  simp only [IntegerLiteral.isDigit, Bool.or_eq_true, Bool.and_eq_true] at isDigit
  obtain digit | ⟨-, digit⟩ := isDigit
  · simp [Text.isHexDigit, digit]
  · exact digit

variable {base : Nat} (positive : 0 < base) (small : base < 2 ^ 64)
include positive small

/-- As long as the number fits, the bits are exact; once it does not, it never fits again. -/
theorem push_ofNat (n : Nat) {c : Char} (isDigit : Text.digitValue c < 2 ^ 64) :
    Accumulated.push base ⟨BitVec.ofNat 64 n, decide (2 ^ 64 ≤ n)⟩ c =
      ⟨BitVec.ofNat 64 (n * base + Text.digitValue c),
        decide (2 ^ 64 ≤ n * base + Text.digitValue c)⟩ := by
  have radix : (BitVec.ofNat 64 base).toNat = base := by
    rw [BitVec.toNat_ofNat, Nat.mod_eq_of_lt small]
  have digit : (BitVec.ofNat 64 (Text.digitValue c)).toNat = Text.digitValue c := by
    rw [BitVec.toNat_ofNat, Nat.mod_eq_of_lt isDigit]
  have room : (BitVec.allOnes 64 - BitVec.ofNat 64 (Text.digitValue c)).toNat
      = 2 ^ 64 - 1 - Text.digitValue c := by
    rw [BitVec.toNat_sub_of_le (by rw [BitVec.le_def, digit, BitVec.toNat_allOnes]; omega), digit,
      BitVec.toNat_allOnes]
  have grows : n ≤ n * base := Nat.le_mul_of_pos_right n positive
  simp only [Accumulated.push, Accumulated.mk.injEq]
  refine ⟨by rw [BitVec.ofNat_add, BitVec.ofNat_mul], ?_⟩
  rw [← Bool.decide_or, decide_eq_decide, BitVec.lt_def, BitVec.toNat_udiv, room, radix,
    Nat.div_lt_iff_lt_mul positive]
  by_cases large : 2 ^ 64 ≤ n
  · exact iff_of_true (.inl large) (Nat.le_trans large (Nat.le_trans grows (Nat.le_add_right _ _)))
  · rw [BitVec.toNat_ofNat, Nat.mod_eq_of_lt (Nat.not_le.mp large)]
    omega

/-- Digits are read as the low 64 bits of their number, and it is noticed if there are more. -/
theorem accumulate_eq {digits : Text} (areDigits : ∀ c ∈ digits, Text.digitValue c < 2 ^ 64) :
    accumulate base digits =
      ⟨BitVec.ofNat 64 (number base digits), decide (2 ^ 64 ≤ number base digits)⟩ := by
  induction digits using List.reverseRecOn with
  | nil => rfl
  | append_singleton digits c ih =>
    obtain ⟨before, last⟩ := List.forall_mem_append.mp areDigits
    have grown : number base (digits ++ [c]) = number base digits * base + Text.digitValue c := by
      rw [number, List.foldl_append]
      rfl
    have start := ih before
    rw [accumulate] at start
    rw [accumulate, List.foldl_append, start, grown]
    exact push_ofNat positive small _ (last c (List.mem_singleton_self c))

end IntegerLiteral

/-- The number that is computed digit by digit. -/
theorem number_eq (radix : Radix) (digits : Text) :
    IntegerLiteral.number radix.base digits = radix.number digits := by
  unfold IntegerLiteral.number Radix.number
  induction digits using List.reverseRecOn with
  | nil => rfl
  | append_singleton digits c ih =>
      rw [List.foldl_append, List.reverse_append, ih]
      simp only [List.foldl_cons, List.foldl_nil, List.reverse_cons, List.reverse_nil,
        List.nil_append, List.cons_append, List.map_cons, Nat.ofDigits_cons]
      rw [Nat.mul_comm, Nat.add_comm]

/-- The digits of any radix may be read as digits of its base. -/
theorem isDigit_of_radix {radix : Radix} {c : Char} (isDigit : radix.isDigit c = true) :
    IntegerLiteral.isDigit radix.base c = true := by
  by_cases hexadecimal : radix = .hexadecimal
  · subst hexadecimal
    simp_all [Radix.isDigit, Radix.base, IntegerLiteral.isDigit]
  · have decimal := Number.isDigit_decimal hexadecimal isDigit
    rw [Radix.isDigit] at decimal
    simp [IntegerLiteral.isDigit, decimal]

/-! ## The value of a literal -/

namespace IntegerLiteral

variable {token : Token} {radix : Radix} {mark digits suffix : Text}

/-- Without a mark only a leading zero tells the base. -/
theorem split_of_unmarked {text : Text}
    (unmarked : ∀ c ∈ text.tail.head?, c ∉ Number.markLetters) :
    split text = (if text.head? = some '0' then 8 else 10, text) := by
  unfold split
  split
  · exact absurd (by decide) (unmarked 'x' rfl)
  · exact absurd (by decide) (unmarked 'X' rfl)
  · exact absurd (by decide) (unmarked 'b' rfl)
  · exact absurd (by decide) (unmarked 'B' rfl)
  · rfl
  · next notZero =>
    rw [if_neg]
    intro zero
    obtain ⟨rest, startsWithZero⟩ := List.head?_eq_some_iff.mp zero
    exact notZero rest startsWithZero

/-- The mark of an integer, or its first digit, says in which base it is to be read. -/
theorem split_of_isDigits (known : mark ∈ radix.marks) (isDigits : Number.IsDigits radix digits)
    (noQuote : '\'' ∉ digits) (starts : ∀ c ∈ digits.head?, radix.mayStart c = true)
    (ends : Number.IsIntegerSuffix suffix ∨ Number.IsUserSuffix suffix) :
    split (mark ++ (digits ++ suffix)) = (radix.base, digits ++ suffix) := by
  have unmarked : radix ≠ .hexadecimal →
      ∀ c ∈ (digits ++ suffix).tail.head?, c ∉ Number.markLetters := fun small =>
    Number.unmarked_of_isMantissa (.noPoint (isDigits.decimal noQuote small))
      (Number.integerSuffix_unmarked ends)
  obtain ⟨first, more, rfl, -⟩ := isDigits.head
  have start := starts first rfl
  cases radix with
  | binary =>
    simp only [Radix.marks, List.mem_cons, List.not_mem_nil, or_false] at known
    obtain rfl | rfl := known <;> rfl
  | hexadecimal =>
    simp only [Radix.marks, List.mem_cons, List.not_mem_nil, or_false] at known
    obtain rfl | rfl := known <;> rfl
  | octal =>
    obtain rfl : mark = [] := List.mem_singleton.mp known
    have zero : first = '0' := by simpa [Radix.mayStart] using start
    rw [List.nil_append, split_of_unmarked (unmarked (by decide)), zero]
    rfl
  | decimal =>
    obtain rfl : mark = [] := List.mem_singleton.mp known
    have notZero : first ≠ '0' := by simpa [Radix.mayStart] using start
    rw [List.nil_append, split_of_unmarked (unmarked (by decide)), List.cons_append, List.head?_cons,
      if_neg (by simpa using notZero)]
    rfl

/-- What is read of a literal that is split into digits and what follows them. -/
theorem value_of_split (valid : Number.isValid token.lexeme = true)
    (cut : split (Number.withoutSeparators token.lexeme) = (radix.base, digits ++ suffix))
    (areDigits : ∀ c ∈ digits, isDigit radix.base c = true)
    (ends : suffix.head?.any (isDigit radix.base) = false) :
    value token =
      if isFloating radix.base suffix then
        .error ⟨.invalidExpression, token, "floating constant in preprocessor expression".toList⟩
      else if suffix.head? = some '_' then
        .error ⟨.invalidExpression, token, "user-defined literal in preprocessor expression".toList⟩
      else if 2 ^ 64 ≤ number radix.base digits then
        .error ⟨.invalidExpression, token, "integer constant is too large".toList⟩
      else
        .ok ⟨BitVec.ofNat 64 (number radix.base digits),
          suffix.contains 'u' || suffix.contains 'U' || 2 ^ 63 ≤ number radix.base digits⟩ := by
  obtain ⟨taken, dropped⟩ := Number.span_digits areDigits ends
  have small : ∀ c ∈ digits, Text.digitValue c < 2 ^ 64 := fun c present =>
    Nat.lt_trans (digitValue_lt (isHexDigit_of_isDigit (areDigits c present))) (by decide)
  have bounds : 0 < radix.base ∧ radix.base < 2 ^ 64 := by cases radix <;> decide
  have read := accumulate_eq bounds.1 bounds.2 small
  rw [value, valid, cut]
  simp only [taken, dropped, read, Bool.not_true, Bool.false_eq_true, if_false, decide_eq_true_eq]
  refine ite_congr rfl (fun _ => rfl) fun _ => ite_congr rfl (fun _ => rfl) fun _ =>
    ite_congr rfl (fun _ => rfl) fun fits => ?_
  rw [BitVec.toNat_ofNat, Nat.mod_eq_of_lt (Nat.not_le.mp fits)]
  rfl

/-- The value of an integer, if it has no suffix of the user and is not too large. -/
theorem value_of_isInteger (valid : Number.isValid token.lexeme = true)
    (isInteger : Number.IsInteger radix digits suffix (Number.withoutSeparators token.lexeme)) :
    value token =
      if suffix.head? = some '_' then
        .error ⟨.invalidExpression, token, "user-defined literal in preprocessor expression".toList⟩
      else if 2 ^ 64 ≤ radix.number digits then
        .error ⟨.invalidExpression, token, "integer constant is too large".toList⟩
      else
        .ok ⟨BitVec.ofNat 64 (radix.number digits),
          suffix.contains 'u' || suffix.contains 'U' || 2 ^ 63 ≤ radix.number digits⟩ := by
  have plain := Number.quote_not_mem_withoutSeparators token.lexeme
  generalize letters : Number.withoutSeparators token.lexeme = text at isInteger plain
  obtain ⟨known, isDigits, starts, ends⟩ := isInteger
  have noQuote : '\'' ∉ digits := by simp_all
  have stops : ∀ head ∈ Number.integerSuffixStarts,
      head.any (isDigit radix.base) = false ∧
        head ∉ [some '.', some 'e', some 'E', some 'p', some 'P'] := by
    cases radix <;> decide
  obtain ⟨noDigit, noLetter⟩ := stops _ (Number.head_mem_integerSuffixStarts ends)
  have notFloating : isFloating radix.base suffix = false := by
    cases suffix with
    | nil => rfl
    | cons c rest => simp_all [isFloating]
  rw [value_of_split valid (letters.symm ▸ split_of_isDigits known isDigits noQuote starts ends)
    (fun c present => isDigit_of_radix (isDigits.isDigit noQuote c present)) noDigit, number_eq,
    notFloating, if_neg Bool.false_ne_true]

end IntegerLiteral

namespace IntegerConstant

variable (i : IntegerConstant)

theorem isDigits : Number.IsDigits i.radix i.digits :=
  .of_forall (List.cons_ne_nil _ _) i.isDigit_of_mem

theorem mayStart : ∀ c ∈ i.digits.head?, i.radix.mayStart c = true :=
  fun _ first => Option.some.inj first ▸ i.mayStart_first

/-- An integer is one of the language. -/
theorem isInteger_letters : Number.IsInteger i.radix i.digits i.suffix i.letters :=
  .intro i.mark_mem i.isDigits i.mayStart (.inl (Number.mem_integerSuffixes_iff.mp i.suffix_mem))

/-- A token that spells an integer has the value of the integer. -/
theorem value_of_spells {i : IntegerConstant} {token : Token} (spells : i.Spells token) :
    IntegerLiteral.value token = .ok ⟨BitVec.ofNat 64 i.value, i.unsigned⟩ := by
  have noQuote : '\'' ∉ i.letters := by
    rw [← spells.2.withoutSeparators]
    exact Number.quote_not_mem_withoutSeparators _
  have valid : Number.isValid token.lexeme = true := by
    rw [Number.isValid, spells.2.separatorsStandBetween, spells.2.withoutSeparators,
      Number.isPlain_of_isInteger i.isInteger_letters noQuote]
    rfl
  have notUser : i.suffix.head? ≠ some '_' := by
    have starts : ∀ suffix ∈ [] :: Number.integerSuffixes, suffix.head? ≠ some '_' := by decide
    exact starts _ i.suffix_mem
  have fits : ¬2 ^ 64 ≤ i.radix.number i.digits := Nat.not_le.mpr i.number_lt
  rw [IntegerLiteral.value_of_isInteger valid (spells.2.withoutSeparators ▸ i.isInteger_letters),
    if_neg notUser, if_neg fits]
  rfl

end IntegerConstant

end CPreprocessor
