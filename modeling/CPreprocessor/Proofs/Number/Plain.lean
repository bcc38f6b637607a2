/-
# Literals without separators

The validator reads a literal without separators greedily: as many digits as there are, a point
and more digits if there is one, an exponent if its letter stands there, and the rest has to be a
suffix. It accepts exactly the literals of the grammar (`isPlain_iff`), because what may follow
some digits never goes on with a digit, and because a leading zero is never followed by a letter
that announces another radix.
-/
import Mathlib.Data.Bool.AllAny
import Mathlib.Data.List.TakeWhile
import CPreprocessor.Proofs.Number.Grammar

namespace CPreprocessor.Number

variable {radix : Radix} {point : Bool} {letters : List Char}
variable {text rest digits mantissa exponent suffix : Text}

/-! ## Digits -/

/-- What is read with `isDigit` from some digits and what follows them. -/
theorem span_digits {isDigit : Char → Bool} (areDigits : ∀ c ∈ digits, isDigit c = true)
    (ends : rest.head?.any isDigit = false) :
    (digits ++ rest).takeWhile isDigit = digits ∧ (digits ++ rest).dropWhile isDigit = rest := by
  induction digits with
  | nil =>
      cases rest with
      | nil => exact ⟨rfl, rfl⟩
      | cons c rest =>
          have stops : isDigit c = false := by simpa using ends
          simp [stops]
  | cons c digits ih =>
      have isOne : isDigit c = true := areDigits c List.mem_cons_self
      obtain ⟨taken, dropped⟩ := ih fun c later => areDigits c (List.mem_cons_of_mem _ later)
      simp [isOne, taken, dropped]

/-- The digits of any radix but sixteen are decimal ones. -/
theorem isDigit_decimal {c : Char} (small : radix ≠ .hexadecimal)
    (isDigit : radix.isDigit c = true) : Radix.decimal.isDigit c = true := by
  cases radix with
  | hexadecimal => exact absurd rfl small
  | decimal => exact isDigit
  | octal =>
    simp only [Radix.isDigit, Text.isOctalDigit, Bool.and_eq_true, decide_eq_true_eq] at isDigit
    simp only [Radix.isDigit, Char.isDigit, Bool.and_eq_true, decide_eq_true_eq]
    exact ⟨isDigit.1, Nat.le_trans isDigit.2 (by decide)⟩
  | binary =>
    simp only [Radix.isDigit, Text.isBinaryDigit, Bool.or_eq_true, decide_eq_true_eq] at isDigit
    rcases isDigit with rfl | rfl <;> decide

theorem IsDigits.of_forall (nonempty : digits ≠ []) (areDigits : ∀ c ∈ digits, radix.isDigit c = true) :
    IsDigits radix digits := by
  induction digits with
  | nil => exact absurd rfl nonempty
  | cons c digits ih =>
    obtain ⟨digit, others⟩ := List.forall_mem_cons.mp areDigits
    cases digits with
    | nil => exact .last digit
    | cons d more => exact .next digit (ih (List.cons_ne_nil _ _) others)

theorem IsDigits.of_takeWhile {isDigit : Char → Bool} (same : isDigit = radix.isDigit)
    (nonempty : text.takeWhile isDigit ≠ []) : IsDigits radix (text.takeWhile isDigit) := by
  subst same
  exact .of_forall nonempty fun c taken => List.mem_takeWhile_imp taken

theorem IsDigits.ne_nil (isDigits : IsDigits radix digits) : digits ≠ [] := by
  cases isDigits <;> exact List.cons_ne_nil _ _

theorem IsDigits.head (isDigits : IsDigits radix digits) :
    ∃ c more, digits = c :: more ∧ radix.isDigit c = true := by
  cases isDigits with
  | last digit => exact ⟨_, _, rfl, digit⟩
  | next digit _ => exact ⟨_, _, rfl, digit⟩
  | separator digit _ => exact ⟨_, _, rfl, digit⟩

/-- There is nothing but digits and quotes. -/
theorem IsDigits.isDigit_or_quote (isDigits : IsDigits radix digits) :
    ∀ c ∈ digits, radix.isDigit c = true ∨ c = '\'' := by
  induction isDigits with
  | last digit => simp [digit]
  | next digit more ih => exact List.forall_mem_cons.mpr ⟨.inl digit, ih⟩
  | separator digit more ih =>
    exact List.forall_mem_cons.mpr ⟨.inl digit, List.forall_mem_cons.mpr ⟨.inr rfl, ih⟩⟩

/-- Without separators there is nothing but digits. -/
theorem IsDigits.isDigit (isDigits : IsDigits radix digits) (noQuote : '\'' ∉ digits) :
    ∀ c ∈ digits, radix.isDigit c = true := fun c present =>
  (isDigits.isDigit_or_quote c present).resolve_right fun quote => noQuote (quote ▸ present)

theorem quote_not_mem_withoutSeparators (text : Text) : '\'' ∉ withoutSeparators text := by
  simp [withoutSeparators]

/-! ## Mantissas -/

/-- How a mantissa is written. -/
def Mantissa.spelling (m : Mantissa) : Text :=
  m.whole ++ if m.hasPoint then '.' :: m.fraction else []

/-- Nothing is lost when a mantissa is read, its parts are digits, and nothing stands after a point
that is not there. -/
theorem read_spelling (isDigit : Char → Bool) (text : Text) :
    let m := Mantissa.read isDigit text
    text = m.spelling ++ m.rest ∧ m.whole = text.takeWhile isDigit ∧
      (∀ c ∈ m.fraction, isDigit c = true) ∧ (m.hasPoint = false → m.fraction = []) := by
  have parts : text.takeWhile isDigit ++ text.dropWhile isDigit = text :=
    List.takeWhile_append_dropWhile
  unfold Mantissa.read
  split
  · next fraction point =>
    rw [point] at parts
    refine ⟨?_, rfl, fun c taken => List.mem_takeWhile_imp taken, fun pointless => by cases pointless⟩
    simpa [Mantissa.spelling] using parts.symm
  · refine ⟨?_, rfl, fun c present => absurd present List.not_mem_nil, fun _ => rfl⟩
    simp [Mantissa.spelling]

/-- What is read with a digit on some side of the point is a mantissa. -/
theorem isMantissa_read {isDigit : Char → Bool} (same : isDigit = radix.isDigit) (text : Text)
    (hasDigits : (Mantissa.read isDigit text).hasDigits = true) :
    IsMantissa radix (Mantissa.read isDigit text).hasPoint (Mantissa.read isDigit text).spelling := by
  obtain ⟨-, whole, fraction, noFraction⟩ := read_spelling isDigit text
  have areDigits : ∀ c ∈ (Mantissa.read isDigit text).whole, isDigit c = true := by
    rw [whole]
    exact fun c taken => List.mem_takeWhile_imp taken
  subst same
  generalize Mantissa.read radix.isDigit text = m at *
  obtain ⟨wholePart, hasPoint, fractionPart, rest⟩ := m
  simp only [Mantissa.hasDigits, Bool.or_eq_true, decide_eq_true_eq] at *
  cases hasPoint with
  | false =>
    have nonempty : wholePart ≠ [] := by simpa [noFraction rfl] using hasDigits
    simpa [Mantissa.spelling] using IsMantissa.noPoint (.of_forall nonempty areDigits)
  | true =>
    by_cases noWhole : wholePart = []
    · have nonempty : fractionPart ≠ [] := by simpa [noWhole] using hasDigits
      simpa [Mantissa.spelling, noWhole] using
        IsMantissa.pointBefore (.of_forall nonempty fraction)
    · have isWhole := IsDigits.of_forall noWhole areDigits
      by_cases empty : fractionPart = []
      · simpa [Mantissa.spelling, empty] using IsMantissa.pointAfter isWhole
      · exact .pointBetween isWhole (.of_forall empty fraction)

/-- A mantissa is read as such if what follows does not go on with it. -/
theorem read_mantissa (isMantissa : IsMantissa radix point mantissa) (noQuote : '\'' ∉ mantissa)
    (ends : rest.head?.any (fun c => radix.isDigit c || c = '.') = false)
    (noDigit : radix.isDigit '.' = false) :
    ∃ m, Mantissa.read radix.isDigit (mantissa ++ rest) = m ∧ m.hasDigits = true ∧
      m.hasPoint = point ∧ m.rest = rest ∧ (point = false → m.whole = mantissa) := by
  have ended : rest.head?.any radix.isDigit = false := by
    cases rest with
    | nil => rfl
    | cons c rest => simp_all
  have afterPoint : ∀ fraction : Text, ('.' :: fraction).head?.any radix.isDigit = false := by
    simp [noDigit]
  unfold Mantissa.read
  cases isMantissa with
  | noPoint digits =>
    obtain ⟨taken, dropped⟩ := span_digits (digits.isDigit noQuote) ended
    rw [taken, dropped]
    split
    · simp at ends
    · exact ⟨_, rfl, by simp [Mantissa.hasDigits, digits.ne_nil], rfl, rfl, fun _ => rfl⟩
  | @pointAfter whole digits =>
    have plain : '\'' ∉ whole := by simp_all
    obtain ⟨taken, dropped⟩ := span_digits (digits.isDigit plain) (afterPoint rest)
    rw [List.append_assoc, List.singleton_append, taken, dropped]
    have nothing := span_digits (List.forall_mem_nil _) ended
    exact ⟨_, rfl, by simp [Mantissa.hasDigits, digits.ne_nil], rfl, nothing.2, by simp⟩
  | @pointBefore fraction digits =>
    have plain : '\'' ∉ fraction := by simp_all
    obtain ⟨taken, dropped⟩ := span_digits (digits.isDigit plain) ended
    have nothing := span_digits (List.forall_mem_nil _) (afterPoint (fraction ++ rest))
    rw [List.nil_append] at nothing
    rw [List.cons_append, nothing.1, nothing.2]
    exact ⟨_, rfl, by simp [Mantissa.hasDigits, taken, digits.ne_nil], rfl, dropped, by simp⟩
  | @pointBetween whole fraction digits more =>
    have plain : '\'' ∉ whole ∧ '\'' ∉ fraction := by simp_all
    obtain ⟨taken, dropped⟩ := span_digits (digits.isDigit plain.1) (afterPoint (fraction ++ rest))
    obtain ⟨-, droppedMore⟩ := span_digits (more.isDigit plain.2) ended
    rw [List.append_assoc, List.cons_append, taken, dropped]
    exact ⟨_, rfl, by simp [Mantissa.hasDigits, digits.ne_nil], rfl, droppedMore, by simp⟩

/-! ## Exponents -/

theorem IsExponent.head (isExponent : IsExponent letters exponent) :
    ∃ letter ∈ letters, ∃ more, exponent = letter :: more := by
  cases isExponent with
  | unsigned known number => exact ⟨_, known, _, rfl⟩
  | signed known isSign number => exact ⟨_, known, _, rfl⟩

/-- What is read after the letter of an exponent is the exponent and the rest. -/
theorem isExponent_of_afterExponent? {letter : Char} (known : letter ∈ letters)
    (read : afterExponent? text = some rest) :
    ∃ exponent, letter :: text = exponent ++ rest ∧ IsExponent letters exponent := by
  have digitsRead : ∀ {digits : Text},
      (if digits.head?.any Char.isDigit then some (digits.dropWhile Char.isDigit) else none)
        = some rest →
      digits = digits.takeWhile Char.isDigit ++ rest ∧
        IsDigits .decimal (digits.takeWhile Char.isDigit) := by
    intro digits read
    split at read
    · next starts =>
      cases read
      refine ⟨List.takeWhile_append_dropWhile.symm, .of_takeWhile rfl ?_⟩
      cases digits with
      | nil => simp at starts
      | cons c digits => simp_all
    · cases read
  unfold afterExponent? at read
  split at read
  · obtain ⟨parts, number⟩ := digitsRead read
    exact ⟨letter :: '+' :: _, by rw [List.cons_append, List.cons_append, ← parts],
      .signed known (by simp) number⟩
  · obtain ⟨parts, number⟩ := digitsRead read
    exact ⟨letter :: '-' :: _, by rw [List.cons_append, List.cons_append, ← parts],
      .signed known (by simp) number⟩
  · obtain ⟨parts, number⟩ := digitsRead read
    exact ⟨letter :: _, by rw [List.cons_append, ← parts], .unsigned known number⟩

/-- An exponent is read as such if what follows does not go on with a digit. -/
theorem afterExponent?_of_isExponent (isExponent : IsExponent letters exponent)
    (noQuote : '\'' ∉ exponent) (ends : rest.head?.any Char.isDigit = false) :
    ∃ letter ∈ letters, ∃ body, exponent = letter :: body ∧
      afterExponent? (body ++ rest) = some rest := by
  cases isExponent with
  | @unsigned letter digits known number =>
    have plain : '\'' ∉ digits := List.not_mem_of_not_mem_cons noQuote
    obtain ⟨-, dropped⟩ := span_digits (number.isDigit plain) ends
    obtain ⟨c, more, rfl, isDigit⟩ := number.head
    refine ⟨letter, known, _, rfl, ?_⟩
    rw [Radix.isDigit] at isDigit dropped
    unfold afterExponent?
    split
    · next sign => exact absurd (List.cons.inj sign).1 (by rintro rfl; revert isDigit; decide)
    · next sign => exact absurd (List.cons.inj sign).1 (by rintro rfl; revert isDigit; decide)
    · simp only [List.cons_append, List.head?_cons, Option.any_some, isDigit, if_true]
      rw [← List.cons_append, dropped]
  | @signed letter sign digits known isSign number =>
    have plain : '\'' ∉ digits :=
      List.not_mem_of_not_mem_cons (List.not_mem_of_not_mem_cons noQuote)
    obtain ⟨-, dropped⟩ := span_digits (number.isDigit plain) ends
    obtain ⟨c, more, rfl, isDigit⟩ := number.head
    refine ⟨letter, known, _, rfl, ?_⟩
    rw [Radix.isDigit] at isDigit dropped
    simp only [List.mem_cons, List.not_mem_nil, or_false] at isSign
    rcases isSign with rfl | rfl <;>
      simpa [afterExponent?, isDigit] using dropped

/-- What is accepted after the letter of an exponent is an exponent with a suffix. -/
theorem isExponent_of_any {letter : Char} (known : letter ∈ letters)
    (accepted : (afterExponent? text).any isFloatSuffix = true) :
    ∃ exponent suffix, letter :: text = exponent ++ suffix ∧ IsExponent letters exponent ∧
      (IsFloatingSuffix suffix ∨ IsUserSuffix suffix) := by
  obtain ⟨suffix, read, ends⟩ := (Option.any_eq_true _ _).mp accepted
  obtain ⟨exponent, same, isExponent⟩ := isExponent_of_afterExponent? known read
  exact ⟨exponent, suffix, same, isExponent, isFloatSuffix_iff.mp ends⟩

/-- An exponent with a suffix is accepted. -/
theorem any_of_isExponent (isExponent : IsExponent letters exponent) (noQuote : '\'' ∉ exponent)
    (ends : IsFloatingSuffix suffix ∨ IsUserSuffix suffix) :
    ∃ letter ∈ letters, ∃ rest, exponent ++ suffix = letter :: rest ∧
      (afterExponent? rest).any isFloatSuffix = true := by
  have noDigit : ∀ head ∈ floatingSuffixStarts, head.any Char.isDigit = false := by decide
  obtain ⟨letter, known, body, rfl, read⟩ := afterExponent?_of_isExponent isExponent noQuote
    (noDigit _ (head_mem_floatingSuffixStarts ends))
  exact ⟨letter, known, body ++ suffix, rfl, by simp [read, isFloatSuffix_iff.mpr ends]⟩

/-! ## Acceptance -/

theorem IsMantissa.isDigits (isMantissa : IsMantissa radix false mantissa) :
    IsDigits radix mantissa := by
  cases isMantissa with
  | noPoint digits => exact digits

theorem isLiteral_of_isBinary {mark : Text} (known : mark ∈ Radix.binary.marks)
    (accepted : isBinary text = true) : IsLiteral (mark ++ text) := by
  simp only [isBinary, ne_eq, decide_not, Bool.and_eq_true, Bool.not_eq_true',
    decide_eq_false_iff_not] at accepted
  rw [← List.takeWhile_append_dropWhile (p := Text.isBinaryDigit) (l := text)]
  exact .integer (.intro known (.of_takeWhile rfl accepted.1) (fun _ _ => rfl)
    (isIntegerSuffix_iff.mp accepted.2))

theorem isLiteral_of_isHexadecimal {mark : Text} (known : mark ∈ Radix.hexadecimal.marks)
    (accepted : isHexadecimal text = true) : IsLiteral (mark ++ text) := by
  obtain ⟨parts, -, -, -⟩ := read_spelling Text.isHexDigit text
  have sameDigits : Text.isHexDigit = Radix.hexadecimal.isDigit := rfl
  have mantissaRead := isMantissa_read sameDigits text
  simp only [isHexadecimal, Bool.and_eq_true] at accepted
  obtain ⟨hasDigits, accepted⟩ := accepted
  have isMantissa := mantissaRead hasDigits
  generalize Mantissa.read Text.isHexDigit text = m at *
  have exponent : ∀ {letter rest}, letter ∈ ['p', 'P'] → m.rest = letter :: rest →
      (afterExponent? rest).any isFloatSuffix = true → IsLiteral (mark ++ text) := by
    intro letter rest isLetter atLetter accepted
    obtain ⟨exponent, suffix, same, isExponent, ends⟩ := isExponent_of_any isLetter accepted
    rw [parts, atLetter, same]
    exact .floating (.hexadecimal known isMantissa isExponent ends)
  split at accepted
  · next atLetter => exact exponent (by simp) atLetter accepted
  · next atLetter => exact exponent (by simp) atLetter accepted
  · rw [Bool.and_eq_true, Bool.not_eq_true'] at accepted
    rw [accepted.1] at isMantissa
    rw [parts]
    exact .integer (.intro known isMantissa.isDigits (fun _ _ => rfl)
      (isIntegerSuffix_iff.mp accepted.2))

/-- An integer without a mark is octal or decimal, as its first digit says. -/
theorem isLiteral_of_decimalDigits (isDigits : IsDigits .decimal digits)
    (starts : digits.head? ≠ some '0' ∨ ∀ c ∈ digits, Text.isOctalDigit c = true)
    (ends : IsIntegerSuffix suffix ∨ IsUserSuffix suffix) : IsLiteral (digits ++ suffix) := by
  by_cases zero : digits.head? = some '0'
  · have octal : IsDigits .octal digits :=
      .of_forall isDigits.ne_nil (starts.resolve_left (absurd zero))
    have noMark : [] ∈ Radix.octal.marks := by decide
    exact .integer (.intro noMark octal
      (by simp [zero, Radix.mayStart]) ends)
  · have noMark : [] ∈ Radix.decimal.marks := by decide
    refine .integer (.intro noMark isDigits ?_ ends)
    intro c first
    rw [Option.mem_def] at first
    simpa [Radix.mayStart, first] using zero

theorem isLiteral_of_isDecimalOrOctal (accepted : isDecimalOrOctal text = true) : IsLiteral text := by
  obtain ⟨parts, whole, -, -⟩ := read_spelling Char.isDigit text
  have sameDigits : Char.isDigit = Radix.decimal.isDigit := rfl
  have mantissaRead := isMantissa_read sameDigits text
  simp only [isDecimalOrOctal, Bool.and_eq_true] at accepted
  obtain ⟨hasDigits, accepted⟩ := accepted
  have isMantissa := mantissaRead hasDigits
  generalize Mantissa.read Char.isDigit text = m at *
  have exponent : ∀ {letter rest}, letter ∈ ['e', 'E'] → m.rest = letter :: rest →
      (afterExponent? rest).any isFloatSuffix = true → IsLiteral text := by
    intro letter rest isLetter atLetter accepted
    obtain ⟨exponent, suffix, same, isExponent, ends⟩ := isExponent_of_any isLetter accepted
    rw [parts, atLetter, same]
    exact .floating (.decimal isMantissa (.inr isExponent) ends)
  split at accepted
  · next atLetter => exact exponent (by simp) atLetter accepted
  · next atLetter => exact exponent (by simp) atLetter accepted
  · rw [parts]
    split at accepted
    · next hasPoint =>
      rw [hasPoint] at isMantissa
      exact .floating (.withoutExponent isMantissa (isFloatSuffix_iff.mp accepted))
    · next noPoint =>
      rw [Bool.not_eq_true] at noPoint
      have spelling : m.spelling = m.whole := by simp [Mantissa.spelling, noPoint]
      rw [noPoint, spelling] at isMantissa
      rw [spelling]
      simp only [Bool.and_eq_true, Bool.or_eq_true, decide_eq_true_eq, List.all_eq_true] at accepted
      exact isLiteral_of_decimalDigits isMantissa.isDigits accepted.1
        (isIntegerSuffix_iff.mp accepted.2)

/-- A plain literal is one of the grammar. -/
theorem isLiteral_of_isPlain (accepted : isPlain text = true) : IsLiteral text := by
  unfold isPlain at accepted
  split at accepted
  · exact isLiteral_of_isHexadecimal (by decide : ['0', 'x'] ∈ Radix.hexadecimal.marks) accepted
  · exact isLiteral_of_isHexadecimal (by decide : ['0', 'X'] ∈ Radix.hexadecimal.marks) accepted
  · exact isLiteral_of_isBinary (by decide : ['0', 'b'] ∈ Radix.binary.marks) accepted
  · exact isLiteral_of_isBinary (by decide : ['0', 'B'] ∈ Radix.binary.marks) accepted
  · exact isLiteral_of_isDecimalOrOctal accepted

/-! ## Literals are accepted -/

theorem isBinary_of_isDigits (isDigits : IsDigits .binary digits) (noQuote : '\'' ∉ digits)
    (ends : IsIntegerSuffix suffix ∨ IsUserSuffix suffix) : isBinary (digits ++ suffix) = true := by
  have stops : ∀ head ∈ integerSuffixStarts, head.any Text.isBinaryDigit = false := by decide
  obtain ⟨taken, dropped⟩ := span_digits (isDigits.isDigit noQuote)
    (stops _ (head_mem_integerSuffixStarts ends))
  rw [Radix.isDigit] at taken dropped
  simp [isBinary, taken, dropped, isDigits.ne_nil, isIntegerSuffix_iff.mpr ends]

theorem isHexadecimal_of_isDigits (isDigits : IsDigits .hexadecimal digits)
    (noQuote : '\'' ∉ digits) (ends : IsIntegerSuffix suffix ∨ IsUserSuffix suffix) :
    isHexadecimal (digits ++ suffix) = true := by
  have stops : ∀ head ∈ integerSuffixStarts,
      head.any (fun c => Radix.hexadecimal.isDigit c || c = '.') = false ∧
        head ≠ some 'p' ∧ head ≠ some 'P' := by decide
  obtain ⟨stop, noSmall, noCapital⟩ := stops _ (head_mem_integerSuffixStarts ends)
  obtain ⟨m, read, hasDigits, hasPoint, same, -⟩ :=
    read_mantissa (.noPoint isDigits) noQuote stop rfl
  rw [Radix.isDigit] at read
  simp only [isHexadecimal, read, hasDigits, Bool.true_and]
  subst same
  split
  · next atLetter => rw [atLetter] at noSmall; exact absurd rfl noSmall
  · next atLetter => rw [atLetter] at noCapital; exact absurd rfl noCapital
  · simp [hasPoint, isIntegerSuffix_iff.mpr ends]

theorem isHexadecimal_of_isMantissa (isMantissa : IsMantissa .hexadecimal point mantissa)
    (isExponent : IsExponent ['p', 'P'] exponent) (noQuote : '\'' ∉ mantissa ++ exponent)
    (ends : IsFloatingSuffix suffix ∨ IsUserSuffix suffix) :
    isHexadecimal (mantissa ++ (exponent ++ suffix)) = true := by
  rw [List.mem_append, not_or] at noQuote
  obtain ⟨letter, isLetter, rest, same, accepted⟩ := any_of_isExponent isExponent noQuote.2 ends
  have stops : ∀ c ∈ ['p', 'P'],
      (c :: rest).head?.any (fun c => Radix.hexadecimal.isDigit c || c = '.') = false := by
    simp only [List.head?_cons, Option.any_some]
    exact List.all_iff_forall_prop.mp (by decide)
  obtain ⟨m, read, hasDigits, -, atLetter, -⟩ :=
    read_mantissa isMantissa noQuote.1 (stops letter isLetter) rfl
  rw [Radix.isDigit] at read
  rw [same]
  simp only [isHexadecimal, read, hasDigits, atLetter, Bool.true_and]
  simp only [List.mem_cons, List.not_mem_nil, or_false] at isLetter
  obtain rfl | rfl := isLetter <;> exact accepted

theorem isDecimalOrOctal_of_isDigits (isDigits : IsDigits .decimal digits)
    (starts : digits.head? ≠ some '0' ∨ ∀ c ∈ digits, Text.isOctalDigit c = true)
    (noQuote : '\'' ∉ digits) (ends : IsIntegerSuffix suffix ∨ IsUserSuffix suffix) :
    isDecimalOrOctal (digits ++ suffix) = true := by
  have stops : ∀ head ∈ integerSuffixStarts,
      head.any (fun c => Radix.decimal.isDigit c || c = '.') = false ∧
        head ≠ some 'e' ∧ head ≠ some 'E' := by decide
  obtain ⟨stop, noSmall, noCapital⟩ := stops _ (head_mem_integerSuffixStarts ends)
  obtain ⟨m, read, hasDigits, hasPoint, same, whole⟩ :=
    read_mantissa (.noPoint isDigits) noQuote stop rfl
  rw [Radix.isDigit] at read
  simp only [isDecimalOrOctal, read, hasDigits, Bool.true_and]
  subst same
  split
  · next atLetter => rw [atLetter] at noSmall; exact absurd rfl noSmall
  · next atLetter => rw [atLetter] at noCapital; exact absurd rfl noCapital
  · rw [if_neg (by simp [hasPoint]), whole rfl]
    simpa [isIntegerSuffix_iff.mpr ends] using starts

theorem isDecimalOrOctal_of_isMantissa (isMantissa : IsMantissa .decimal point mantissa)
    (isExponent : exponent = [] ∧ point = true ∨ IsExponent ['e', 'E'] exponent)
    (noQuote : '\'' ∉ mantissa ++ exponent)
    (ends : IsFloatingSuffix suffix ∨ IsUserSuffix suffix) :
    isDecimalOrOctal (mantissa ++ (exponent ++ suffix)) = true := by
  rw [List.mem_append, not_or] at noQuote
  obtain ⟨rfl, rfl⟩ | isExponent := isExponent
  · have stops : ∀ head ∈ floatingSuffixStarts,
        head.any (fun c => Radix.decimal.isDigit c || c = '.') = false ∧
          head ≠ some 'e' ∧ head ≠ some 'E' := by decide
    obtain ⟨stop, noSmall, noCapital⟩ := stops _ (head_mem_floatingSuffixStarts ends)
    obtain ⟨m, read, hasDigits, hasPoint, same, -⟩ := read_mantissa isMantissa noQuote.1 stop rfl
    rw [Radix.isDigit] at read
    rw [List.nil_append]
    simp only [isDecimalOrOctal, read, hasDigits, Bool.true_and]
    subst same
    split
    · next atLetter => rw [atLetter] at noSmall; exact absurd rfl noSmall
    · next atLetter => rw [atLetter] at noCapital; exact absurd rfl noCapital
    · rw [if_pos hasPoint]
      exact isFloatSuffix_iff.mpr ends
  · obtain ⟨letter, isLetter, rest, same, accepted⟩ := any_of_isExponent isExponent noQuote.2 ends
    have stops : ∀ c ∈ ['e', 'E'],
        (c :: rest).head?.any (fun c => Radix.decimal.isDigit c || c = '.') = false := by
      simp only [List.head?_cons, Option.any_some]
      exact List.all_iff_forall_prop.mp (by decide)
    obtain ⟨m, read, hasDigits, -, atLetter, -⟩ :=
      read_mantissa isMantissa noQuote.1 (stops letter isLetter) rfl
    rw [Radix.isDigit] at read
    rw [same]
    simp only [isDecimalOrOctal, read, hasDigits, atLetter, Bool.true_and]
    simp only [List.mem_cons, List.not_mem_nil, or_false] at isLetter
    obtain rfl | rfl := isLetter <;> exact accepted

/-! ## Literals without a mark -/

/-- The letters that announce a radix after a zero. -/
def markLetters : List Char :=
  ['x', 'X', 'b', 'B']

theorem isPlain_of_unmarked (unmarked : ∀ c ∈ text.tail.head?, c ∉ markLetters) :
    isPlain text = isDecimalOrOctal text := by
  unfold isPlain
  split
  · exact absurd (by decide) (unmarked 'x' rfl)
  · exact absurd (by decide) (unmarked 'X' rfl)
  · exact absurd (by decide) (unmarked 'b' rfl)
  · exact absurd (by decide) (unmarked 'B' rfl)
  · rfl

/-- A mantissa holds digits, a point and quotes. -/
theorem IsMantissa.isDigit_or_point (isMantissa : IsMantissa radix point mantissa) :
    ∀ c ∈ mantissa, radix.isDigit c = true ∨ c ∈ ['.', '\''] := by
  have digits : ∀ {digits : Text}, IsDigits radix digits →
      ∀ c ∈ digits, radix.isDigit c = true ∨ c ∈ ['.', '\''] := fun isDigits c present =>
    (isDigits.isDigit_or_quote c present).imp_right (by rintro rfl; decide)
  have point : ∀ c ∈ ['.'], radix.isDigit c = true ∨ c ∈ ['.', '\''] :=
    fun c isPoint => .inr (by simp_all)
  cases isMantissa with
  | noPoint isDigits => exact digits isDigits
  | pointAfter isDigits => exact List.forall_mem_append.mpr ⟨digits isDigits, point⟩
  | pointBefore isDigits => exact List.forall_mem_append.mpr ⟨point, digits isDigits⟩
  | pointBetween isDigits more =>
    exact List.forall_mem_append.mpr
      ⟨digits isDigits, List.forall_mem_append.mpr ⟨point, digits more⟩⟩

/-- A decimal mantissa holds no letter that announces a radix. -/
theorem IsMantissa.not_mem_markLetters (isMantissa : IsMantissa .decimal point mantissa) :
    ∀ c ∈ mantissa, c ∉ markLetters := by
  have noDigit : ∀ c ∈ markLetters, Radix.decimal.isDigit c = false ∧ c ∉ ['.', '\''] :=
    List.all_iff_forall_prop.mp (by decide)
  intro c present announces
  obtain isDigit | other := isMantissa.isDigit_or_point c present
  · exact absurd isDigit (by simp [noDigit c announces])
  · exact (noDigit c announces).2 other

theorem IsMantissa.ne_nil (isMantissa : IsMantissa radix point mantissa) : mantissa ≠ [] := by
  cases isMantissa with
  | noPoint digits => exact digits.ne_nil
  | pointAfter digits => simp
  | pointBefore digits => simp
  | pointBetween digits more => simp

/-- A literal without a mark is not taken for one with a mark. -/
theorem unmarked_of_isMantissa (isMantissa : IsMantissa .decimal point mantissa)
    (ends : ∀ c ∈ rest.head?, c ∉ markLetters) :
    ∀ c ∈ (mantissa ++ rest).tail.head?, c ∉ markLetters := by
  have unmarked := isMantissa.not_mem_markLetters
  intro c second
  cases mantissa with
  | nil => exact absurd rfl isMantissa.ne_nil
  | cons first more =>
    cases more with
    | nil => exact ends c second
    | cons d more => exact unmarked c (by simp_all)

/-- The digits of an integer without a mark are decimal ones. -/
theorem IsDigits.decimal (isDigits : IsDigits radix digits) (noQuote : '\'' ∉ digits)
    (small : radix ≠ .hexadecimal) : IsDigits .decimal digits :=
  .of_forall isDigits.ne_nil fun c present => isDigit_decimal small (isDigits.isDigit noQuote c present)

/-- The suffix of an integer does not start with a letter that announces a radix. -/
theorem integerSuffix_unmarked (ends : IsIntegerSuffix suffix ∨ IsUserSuffix suffix) :
    ∀ c ∈ suffix.head?, c ∉ markLetters := by
  have stops : ∀ head ∈ integerSuffixStarts, head.all (· ∉ markLetters) = true := by decide
  simpa [Option.all_eq_true] using stops _ (head_mem_integerSuffixStarts ends)

/-- Nor does what follows the mantissa of a floating number. -/
theorem exponent_unmarked (isExponent : exponent = [] ∨ IsExponent ['e', 'E'] exponent)
    (ends : IsFloatingSuffix suffix ∨ IsUserSuffix suffix) :
    ∀ c ∈ (exponent ++ suffix).head?, c ∉ markLetters := by
  obtain rfl | isExponent := isExponent
  · have stops : ∀ head ∈ floatingSuffixStarts, head.all (· ∉ markLetters) = true := by decide
    simpa [Option.all_eq_true] using stops _ (head_mem_floatingSuffixStarts ends)
  · have stops : ∀ c ∈ ['e', 'E'], c ∉ markLetters := List.all_iff_forall_prop.mp (by decide)
    obtain ⟨letter, known, more, rfl⟩ := isExponent.head
    exact fun c first => Option.some.inj first ▸ stops letter known

theorem IsInteger.ends (isInteger : IsInteger radix digits suffix text) :
    IsIntegerSuffix suffix ∨ IsUserSuffix suffix := by
  cases isInteger with
  | intro known isDigits starts ends => exact ends

theorem isPlain_of_isInteger (isInteger : IsInteger radix digits suffix text)
    (noQuote : '\'' ∉ text) : isPlain text = true := by
  obtain ⟨known, isDigits, starts, ends⟩ := isInteger
  have plain : '\'' ∉ digits := by simp_all
  cases radix with
  | binary =>
    have accepted := isBinary_of_isDigits isDigits plain ends
    simp only [Radix.marks, List.mem_cons, List.not_mem_nil, or_false] at known
    obtain rfl | rfl := known <;> exact accepted
  | hexadecimal =>
    have accepted := isHexadecimal_of_isDigits isDigits plain ends
    simp only [Radix.marks, List.mem_cons, List.not_mem_nil, or_false] at known
    obtain rfl | rfl := known <;> exact accepted
  | octal =>
    obtain rfl := List.mem_singleton.mp known
    have decimal := isDigits.decimal plain (by decide)
    rw [List.nil_append, isPlain_of_unmarked
      (unmarked_of_isMantissa (.noPoint decimal) (integerSuffix_unmarked ends))]
    exact isDecimalOrOctal_of_isDigits decimal (.inr (isDigits.isDigit plain)) plain ends
  | decimal =>
    obtain rfl := List.mem_singleton.mp known
    have noZero : digits.head? ≠ some '0' := fun zero => by
      simpa [Radix.mayStart] using starts '0' zero
    rw [List.nil_append, isPlain_of_unmarked
      (unmarked_of_isMantissa (.noPoint isDigits) (integerSuffix_unmarked ends))]
    exact isDecimalOrOctal_of_isDigits isDigits (.inl noZero) plain ends

theorem isPlain_of_isFloating (isFloating : IsFloating text) (noQuote : '\'' ∉ text) :
    isPlain text = true := by
  cases isFloating with
  | @decimal point mantissa exponent suffix isMantissa isExponent ends =>
    have plain : '\'' ∉ mantissa ++ exponent := by simp_all
    have unmarked := exponent_unmarked (isExponent.imp_left And.left) ends
    rw [isPlain_of_unmarked (unmarked_of_isMantissa isMantissa unmarked)]
    exact isDecimalOrOctal_of_isMantissa isMantissa isExponent plain ends
  | @hexadecimal point mark mantissa exponent suffix known isMantissa isExponent ends =>
    have plain : '\'' ∉ mantissa ++ exponent := by simp_all
    have accepted := isHexadecimal_of_isMantissa isMantissa isExponent plain ends
    simp only [Radix.marks, List.mem_cons, List.not_mem_nil, or_false] at known
    obtain rfl | rfl := known <;> exact accepted

/-- Every literal without separators is a plain one. -/
theorem isPlain_of_isLiteral (isLiteral : IsLiteral text) (noQuote : '\'' ∉ text) :
    isPlain text = true := by
  cases isLiteral with
  | integer isInteger => exact isPlain_of_isInteger isInteger noQuote
  | floating isFloating => exact isPlain_of_isFloating isFloating noQuote

/-- The validator of plain literals accepts the literals of the grammar. -/
theorem isPlain_iff (noQuote : '\'' ∉ text) : isPlain text = true ↔ IsLiteral text :=
  ⟨isLiteral_of_isPlain, fun isLiteral => isPlain_of_isLiteral isLiteral noQuote⟩

end CPreprocessor.Number
