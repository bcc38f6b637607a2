/-
# Digit separators

The validator of numeric literals looks at separators before it looks at the literal: a quote has
to stand between two letters or digits, and what is left without the quotes has to be a literal. A
literal of the grammar has its quotes between two digits of one sequence. `isValid_iff` compares
the two: every literal is accepted, and an accepted text is a literal exactly if its quotes stand
where the grammar has them. What is accepted beyond that has a quote next to a mark, an exponent
or a suffix.
-/
import Mathlib.Data.Bool.AllAny
import CPreprocessor.Proofs.Number.Plain

namespace CPreprocessor.Number

variable {radix : Radix} {point : Bool}
variable {done text rest letters plain digits mantissa exponent suffix : Text}

/-- Every quote stands between two characters that may be joined by one, after what has been read
so far. -/
def QuotesAfter (joins : Text → Char → Bool) (done text : Text) : Prop :=
  ∀ before after, text = before ++ '\'' :: after →
    (done ++ before).getLast?.any (joins (done ++ before)) = true ∧
      after.head?.any (joins (done ++ before)) = true

/-- Every quote of a text stands between two characters that may be joined by one. -/
def QuotesBetween (joins : Text → Char → Bool) (text : Text) : Prop :=
  QuotesAfter joins [] text

/-- The digits of the sequence that may go on after `before`: hexadecimal ones after the mark for
them, up to the letter of an exponent, and none in a suffix of the user. -/
def digitsAfter (before : Text) (c : Char) : Bool :=
  if '_' ∈ before then false
  else if before.take 2 ∈ Radix.hexadecimal.marks ∧ 'p' ∉ before ∧ 'P' ∉ before then
    Text.isHexDigit c
  else c.isDigit

/-! ## Quotes, one by one -/

section Quotes

variable {joins : Text → Char → Bool}

theorem quotesAfter_nil : QuotesAfter joins done [] := fun before after same => by simp at same

/-- The condition on the quotes of a text, letter by letter. -/
theorem quotesAfter_cons {c : Char} :
    QuotesAfter joins done (c :: text) ↔
      (c = '\'' → done.getLast?.any (joins done) = true ∧ text.head?.any (joins done) = true) ∧
        QuotesAfter joins (done ++ [c]) text := by
  constructor
  · intro stand
    refine ⟨?_, fun before after same => ?_⟩
    · rintro rfl
      simpa using stand [] text rfl
    · simpa using stand (c :: before) after (by rw [same]; rfl)
  · rintro ⟨first, others⟩ before after same
    cases before with
    | nil =>
      obtain ⟨rfl, rfl⟩ := List.cons.inj same
      simpa using first rfl
    | cons d before =>
      obtain ⟨rfl, rfl⟩ := List.cons.inj same
      simpa using others before after rfl

/-- Where there is no quote, there is nothing to ask. -/
theorem quotesAfter_append (noQuote : '\'' ∉ plain) :
    QuotesAfter joins done (plain ++ text) ↔ QuotesAfter joins (done ++ plain) text := by
  induction plain generalizing done with
  | nil => simp
  | cons c plain ih =>
    have other : c ≠ '\'' := fun quote => noQuote (by simp [quote])
    rw [List.cons_append, quotesAfter_cons, ih (List.not_mem_of_not_mem_cons noQuote)]
    simp [other]

theorem QuotesAfter.mono {joins' : Text → Char → Bool} (stand : QuotesAfter joins done text)
    (more : ∀ before c, joins before c = true → joins' before c = true) :
    QuotesAfter joins' done text := by
  have any : ∀ (o : Option Char) before, o.any (joins before) = true →
      o.any (joins' before) = true := by
    intro o before
    cases o with
    | none => exact id
    | some c => exact more before c
  exact fun before after same => (stand before after same).imp (any _ _) (any _ _)

/-- Quotes between the digits of a sequence stand as they should if its digits may be joined. -/
theorem IsDigits.quotesAfter (isDigits : IsDigits radix digits)
    (joined : ∀ part, part <+: digits → ∀ c, radix.isDigit c = true → joins (done ++ part) c = true)
    (others : QuotesAfter joins (done ++ digits) text) : QuotesAfter joins done (digits ++ text) := by
  have noQuote : ∀ {c : Char}, radix.isDigit c = true → c ≠ '\'' := by
    rintro c digit rfl
    revert digit
    cases radix <;> decide
  induction isDigits generalizing done with
  | last digit => exact quotesAfter_cons.mpr ⟨fun quote => absurd quote (noQuote digit), others⟩
  | @next c digits digit more ih =>
    refine quotesAfter_cons.mpr ⟨fun quote => absurd quote (noQuote digit), ih ?_ (by simpa using others)⟩
    intro part before d isDigit
    simpa using joined (c :: part) (List.cons_prefix_cons.mpr ⟨rfl, before⟩) d isDigit
  | @separator c digits digit more ih =>
    obtain ⟨d, after, rfl, isDigit⟩ := more.head
    have joins := joined [c] (by simp)
    refine quotesAfter_cons.mpr ⟨fun quote => absurd quote (noQuote digit), quotesAfter_cons.mpr
      ⟨fun _ => ⟨by simpa using joins c digit, by simpa using joins d isDigit⟩,
        ih ?_ (by simpa using others)⟩⟩
    intro part before e isDigit
    simpa using joined (c :: '\'' :: part) (by simpa using before) e isDigit

end Quotes

/-- The first pass of the validator. -/
theorem separatorsStandBetween_iff :
    separatorsStandBetween done.getLast? text = true ↔
      QuotesAfter (fun _ => Char.isAlphanum) done text := by
  induction text generalizing done with
  | nil => exact iff_of_true rfl quotesAfter_nil
  | cons c text ih =>
    have last : (done ++ [c]).getLast? = some c := by simp
    rw [quotesAfter_cons, ← ih, last]
    by_cases quote : c = '\''
    · subst quote
      simp [separatorsStandBetween]
    · simp [separatorsStandBetween, quote]

/-! ## The quotes of a literal -/

/-- Digits of the radix may go on after what has been read. -/
def Continues (radix : Radix) (done : Text) : Prop :=
  '_' ∉ done ∧ (radix = .hexadecimal →
    done.take 2 ∈ Radix.hexadecimal.marks ∧ 'p' ∉ done ∧ 'P' ∉ done)

theorem Continues.joins {c : Char} (goesOn : Continues radix done)
    (isDigit : radix.isDigit c = true) : digitsAfter done c = true := by
  unfold digitsAfter
  rw [if_neg goesOn.1]
  by_cases hexadecimal : radix = .hexadecimal
  · rw [if_pos (goesOn.2 hexadecimal)]
    subst hexadecimal
    exact isDigit
  · have decimal : c.isDigit = true := isDigit_decimal hexadecimal isDigit
    split <;> simp [Text.isHexDigit, decimal]

/-- Digits, points and quotes do not end a sequence of digits. -/
theorem Continues.append (goesOn : Continues radix done)
    (parts : ∀ c ∈ plain, radix.isDigit c = true ∨ c ∈ ['.', '\'']) :
    Continues radix (done ++ plain) := by
  have absent : ∀ c ∈ ['_', 'p', 'P'], c ∉ plain := by
    have noDigit : ∀ c ∈ ['_', 'p', 'P'], radix.isDigit c = false ∧ c ∉ ['.', '\''] := by
      cases radix <;> exact List.all_iff_forall_prop.mp (by decide)
    intro c listed present
    obtain ⟨notDigit, notOther⟩ := noDigit c listed
    obtain isDigit | other := parts c present
    · exact absurd isDigit (by simp [notDigit])
    · exact notOther other
  refine ⟨by simp [goesOn.1, absent], fun hexadecimal => ?_⟩
  obtain ⟨mark, noSmall, noCapital⟩ := goesOn.2 hexadecimal
  refine ⟨?_, by simp [noSmall, absent], by simp [noCapital, absent]⟩
  have long : 2 ≤ done.length := by
    have lengths : ∀ mark ∈ Radix.hexadecimal.marks, mark.length = 2 := by decide
    have length := lengths _ mark
    rw [List.length_take] at length
    omega
  rw [List.take_append_of_le_length long]
  exact mark

theorem Continues.quotesAfter (goesOn : Continues radix done) (isDigits : IsDigits radix digits)
    (others : QuotesAfter digitsAfter (done ++ digits) text) :
    QuotesAfter digitsAfter done (digits ++ text) := by
  refine isDigits.quotesAfter (fun part before c isDigit => ?_) others
  refine (goesOn.append fun c present => ?_).joins isDigit
  exact (isDigits.isDigit_or_quote c (before.subset present)).imp_right (by rintro rfl; decide)

theorem Continues.quotesAfter_mantissa (goesOn : Continues radix done)
    (isMantissa : IsMantissa radix point mantissa)
    (others : QuotesAfter digitsAfter (done ++ mantissa) text) :
    QuotesAfter digitsAfter done (mantissa ++ text) := by
  have afterPoint : ∀ {fraction text : Text} {done : Text}, Continues radix done →
      IsDigits radix fraction → QuotesAfter digitsAfter (done ++ '.' :: fraction) text →
      QuotesAfter digitsAfter done ('.' :: (fraction ++ text)) := by
    intro fraction text done goesOn isDigits others
    have noQuote : '\'' ∉ ['.'] := by decide
    have isPoint : ∀ c ∈ ['.'], radix.isDigit c = true ∨ c ∈ ['.', '\''] := by simp
    refine (quotesAfter_append noQuote).mpr ?_
    exact (goesOn.append isPoint).quotesAfter isDigits (by simpa using others)
  cases isMantissa with
  | noPoint isDigits => exact goesOn.quotesAfter isDigits others
  | @pointAfter whole isDigits =>
    rw [List.append_assoc]
    refine goesOn.quotesAfter isDigits ((quotesAfter_append (by decide)).mpr ?_)
    simpa using others
  | pointBefore isDigits => exact afterPoint goesOn isDigits others
  | @pointBetween whole fraction isDigits more =>
    rw [List.append_assoc, List.cons_append]
    refine goesOn.quotesAfter isDigits (afterPoint ?_ more (by simpa using others))
    exact goesOn.append (IsMantissa.noPoint isDigits).isDigit_or_point

theorem IsExponent.quotesAfter (isExponent : IsExponent letters exponent)
    (known : letters ⊆ ['e', 'E', 'p', 'P']) (noUnderscore : '_' ∉ done)
    (others : QuotesAfter digitsAfter (done ++ exponent) text) :
    QuotesAfter digitsAfter done (exponent ++ text) := by
  have plainLetters : ∀ letter ∈ ['e', 'E', 'p', 'P'], letter ≠ '\'' ∧ letter ≠ '_' :=
    List.all_iff_forall_prop.mp (by decide)
  cases isExponent with
  | @unsigned letter digits isLetter number =>
    obtain ⟨noQuote, other⟩ := plainLetters letter (known isLetter)
    have plain : '\'' ∉ [letter] := by simpa using noQuote.symm
    refine (quotesAfter_append plain).mpr ?_
    have goesOn : Continues .decimal (done ++ [letter]) :=
      ⟨by simp [noUnderscore, other.symm], fun hexadecimal => by cases hexadecimal⟩
    exact goesOn.quotesAfter number (by simpa using others)
  | @signed letter sign digits isLetter isSign number =>
    obtain ⟨noQuote, other⟩ := plainLetters letter (known isLetter)
    have plainSign : sign ≠ '\'' ∧ sign ≠ '_' := by
      have plainSigns : ∀ sign ∈ ['+', '-'], sign ≠ '\'' ∧ sign ≠ '_' :=
        List.all_iff_forall_prop.mp (by decide)
      exact plainSigns sign isSign
    have plain : '\'' ∉ [letter, sign] := by simp [noQuote.symm, plainSign.1.symm]
    refine (quotesAfter_append plain).mpr ?_
    have goesOn : Continues .decimal (done ++ [letter, sign]) :=
      ⟨by simp [noUnderscore, other.symm, plainSign.2.symm], fun hexadecimal => by cases hexadecimal⟩
    exact goesOn.quotesAfter number (by simpa using others)

/-- There are no quotes in a suffix. -/
theorem quote_not_mem_suffix
    (ends : IsIntegerSuffix suffix ∨ IsFloatingSuffix suffix ∨ IsUserSuffix suffix) :
    '\'' ∉ suffix := by
  obtain known | known | ⟨name, rfl, names⟩ := ends
  · have plain : ∀ suffix ∈ [] :: integerSuffixes, '\'' ∉ suffix := by decide
    exact plain _ (mem_integerSuffixes_iff.mpr known)
  · revert known suffix
    unfold IsFloatingSuffix
    decide
  · intro quote
    have inName : '\'' ∈ name := by simpa using quote
    have notIn := names _ inName
    revert notIn
    decide

theorem quotesAfter_suffix
    (ends : IsIntegerSuffix suffix ∨ IsFloatingSuffix suffix ∨ IsUserSuffix suffix) :
    QuotesAfter digitsAfter done suffix := by
  have stand : QuotesAfter digitsAfter done (suffix ++ []) :=
    (quotesAfter_append (quote_not_mem_suffix ends)).mpr quotesAfter_nil
  rwa [List.append_nil] at stand

theorem continues_mark {mark : Text} (known : mark ∈ radix.marks) : Continues radix mark := by
  revert mark
  unfold Continues
  cases radix <;> decide

theorem quote_not_mem_mark {mark : Text} (known : mark ∈ radix.marks) : '\'' ∉ mark := by
  revert mark
  cases radix <;> decide

theorem IsInteger.quotesBetween (isInteger : IsInteger radix digits suffix text) :
    QuotesBetween digitsAfter text := by
  obtain ⟨known, isDigits, starts, ends⟩ := isInteger
  refine (quotesAfter_append (quote_not_mem_mark known)).mpr ?_
  exact (continues_mark known).quotesAfter isDigits (quotesAfter_suffix (ends.imp_right .inr))

theorem IsFloating.quotesBetween (isFloating : IsFloating text) : QuotesBetween digitsAfter text := by
  cases isFloating with
  | @decimal point mantissa exponent suffix isMantissa isExponent ends =>
    have goesOn : Continues .decimal [] := continues_mark (List.mem_singleton_self _)
    refine goesOn.quotesAfter_mantissa isMantissa ?_
    have noUnderscore := (goesOn.append isMantissa.isDigit_or_point).1
    obtain ⟨rfl, -⟩ | isExponent := isExponent
    · exact quotesAfter_suffix (.inr ends)
    · exact isExponent.quotesAfter (by decide) noUnderscore (quotesAfter_suffix (.inr ends))
  | @hexadecimal point mark mantissa exponent suffix known isMantissa isExponent ends =>
    refine (quotesAfter_append (quote_not_mem_mark known)).mpr ?_
    have goesOn : Continues .hexadecimal mark := continues_mark known
    refine goesOn.quotesAfter_mantissa isMantissa ?_
    have noUnderscore := (goesOn.append isMantissa.isDigit_or_point).1
    exact isExponent.quotesAfter (by decide) noUnderscore (quotesAfter_suffix (.inr ends))

/-- The quotes of a literal stand between two digits of a sequence. -/
theorem IsLiteral.quotesBetween (isLiteral : IsLiteral text) : QuotesBetween digitsAfter text := by
  cases isLiteral with
  | integer isInteger => exact isInteger.quotesBetween
  | floating isFloating => exact isFloating.quotesBetween

/-! ## Literals without their quotes -/

theorem withoutSeparators_append (first second : Text) :
    withoutSeparators (first ++ second) = withoutSeparators first ++ withoutSeparators second :=
  List.filter_append first second

theorem withoutSeparators_eq_self (noQuote : '\'' ∉ plain) : withoutSeparators plain = plain :=
  List.filter_eq_self.mpr fun _ present =>
    decide_eq_true fun quote => noQuote (quote ▸ present)

theorem withoutSeparators_cons {c : Char} (other : c ≠ '\'') :
    withoutSeparators (c :: text) = c :: withoutSeparators text := by
  simp [withoutSeparators, other]

theorem IsDigits.withoutSeparators (isDigits : IsDigits radix digits) :
    IsDigits radix (withoutSeparators digits) ∧
      (Number.withoutSeparators digits).head? = digits.head? := by
  have noQuote : ∀ {c : Char}, radix.isDigit c = true → c ≠ '\'' := by
    rintro c digit rfl
    revert digit
    cases radix <;> decide
  induction isDigits with
  | last digit => simpa [Number.withoutSeparators, noQuote digit] using IsDigits.last digit
  | next digit more ih =>
    rw [withoutSeparators_cons (noQuote digit)]
    exact ⟨.next digit ih.1, rfl⟩
  | separator digit more ih =>
    rw [withoutSeparators_cons (noQuote digit)]
    exact ⟨.next digit (by simpa [Number.withoutSeparators] using ih.1), rfl⟩

theorem IsMantissa.withoutSeparators (isMantissa : IsMantissa radix point mantissa) :
    IsMantissa radix point (withoutSeparators mantissa) := by
  have atPoint : ∀ text, Number.withoutSeparators ('.' :: text) = '.' :: Number.withoutSeparators text :=
    fun text => withoutSeparators_cons (by decide)
  cases isMantissa with
  | noPoint isDigits => exact .noPoint isDigits.withoutSeparators.1
  | pointAfter isDigits =>
    rw [withoutSeparators_append]
    exact .pointAfter isDigits.withoutSeparators.1
  | pointBefore isDigits =>
    rw [atPoint]
    exact .pointBefore isDigits.withoutSeparators.1
  | pointBetween isDigits more =>
    rw [withoutSeparators_append, atPoint]
    exact .pointBetween isDigits.withoutSeparators.1 more.withoutSeparators.1

theorem IsExponent.withoutSeparators (isExponent : IsExponent letters exponent)
    (plainLetters : '\'' ∉ letters) : IsExponent letters (withoutSeparators exponent) := by
  cases isExponent with
  | @unsigned letter digits isLetter number =>
    have other : letter ≠ '\'' := fun quote => plainLetters (quote ▸ isLetter)
    rw [withoutSeparators_cons other]
    exact .unsigned isLetter number.withoutSeparators.1
  | @signed letter sign digits isLetter isSign number =>
    have other : letter ≠ '\'' := fun quote => plainLetters (quote ▸ isLetter)
    have plainSigns : ∀ sign ∈ ['+', '-'], sign ≠ '\'' := List.all_iff_forall_prop.mp (by decide)
    rw [withoutSeparators_cons other, withoutSeparators_cons (plainSigns sign isSign)]
    exact .signed isLetter isSign number.withoutSeparators.1

theorem IsInteger.withoutSeparators (isInteger : IsInteger radix digits suffix text) :
    IsInteger radix (withoutSeparators digits) suffix (Number.withoutSeparators text) := by
  obtain ⟨known, isDigits, starts, ends⟩ := isInteger
  obtain ⟨plainDigits, head⟩ := isDigits.withoutSeparators
  rw [withoutSeparators_append, withoutSeparators_append,
    withoutSeparators_eq_self (quote_not_mem_mark known),
    withoutSeparators_eq_self (quote_not_mem_suffix (ends.imp_right .inr))]
  exact .intro known plainDigits (head ▸ starts) ends

theorem IsFloating.withoutSeparators (isFloating : IsFloating text) :
    IsFloating (withoutSeparators text) := by
  cases isFloating with
  | decimal isMantissa isExponent ends =>
    rw [withoutSeparators_append, withoutSeparators_append,
      withoutSeparators_eq_self (quote_not_mem_suffix (.inr ends))]
    refine .decimal isMantissa.withoutSeparators (isExponent.imp ?_ ?_) ends
    · rintro ⟨rfl, hasPoint⟩
      exact ⟨rfl, hasPoint⟩
    · exact fun isExponent => isExponent.withoutSeparators (by decide)
  | hexadecimal known isMantissa isExponent ends =>
    rw [withoutSeparators_append, withoutSeparators_append, withoutSeparators_append,
      withoutSeparators_eq_self (quote_not_mem_mark known),
      withoutSeparators_eq_self (quote_not_mem_suffix (.inr ends))]
    exact .hexadecimal known isMantissa.withoutSeparators
      (isExponent.withoutSeparators (by decide)) ends

/-- A literal is still one without its quotes. -/
theorem IsLiteral.withoutSeparators (isLiteral : IsLiteral text) :
    IsLiteral (withoutSeparators text) := by
  cases isLiteral with
  | integer isInteger => exact .integer isInteger.withoutSeparators
  | floating isFloating => exact .floating isFloating.withoutSeparators

/-! ## Putting the quotes back -/

/-- No sequence goes on with a letter that is no digit of any radix. -/
theorem digitsAfter_eq_false {c : Char} (noDigit : Text.isHexDigit c = false) :
    digitsAfter done c = false := by
  have noDecimal : c.isDigit = false := by
    simp only [Text.isHexDigit, Bool.or_eq_false_iff] at noDigit
    exact noDigit.1.1
  unfold digitsAfter
  split
  · rfl
  · split <;> assumption

/-- Outside of hexadecimal digits, a sequence goes on with decimal ones only. -/
theorem digitsAfter_decimal {c : Char}
    (ended : done.take 2 ∉ Radix.hexadecimal.marks ∨ 'p' ∈ done ∨ 'P' ∈ done)
    (noDigit : c.isDigit = false) : digitsAfter done c = false := by
  unfold digitsAfter
  rw [if_neg (c := _ ∧ _) (by tauto)]
  split
  · rfl
  · exact noDigit

/-- A letter that goes on with no sequence, or follows none, stands directly after the one before. -/
theorem head_ne_quote {c : Char} (stand : QuotesAfter digitsAfter done text)
    (spelt : withoutSeparators text = c :: letters)
    (direct : done.getLast?.any (digitsAfter done) = false ∨ digitsAfter done c = false) :
    text.head? ≠ some '\'' := by
  intro quote
  obtain ⟨after, rfl⟩ := List.head?_eq_some_iff.mp quote
  obtain ⟨last, next⟩ := (quotesAfter_cons.mp stand).1 rfl
  cases after with
  | nil => cases next
  | cons d after =>
    have isDigit : digitsAfter done d = true := by simpa using next
    have other : d ≠ '\'' := by
      rintro rfl
      rw [digitsAfter_eq_false (by decide)] at isDigit
      cases isDigit
    have same : d = c := by simpa [withoutSeparators, other] using congrArg List.head? spelt
    subst same
    obtain noLast | noDigit := direct
    · rw [noLast] at last
      cases last
    · rw [noDigit] at isDigit
      cases isDigit

/-- No quotes are left after the last letter. -/
theorem eq_nil_of_withoutSeparators (stand : QuotesAfter digitsAfter done text)
    (spelt : withoutSeparators text = []) : text = [] := by
  cases text with
  | nil => rfl
  | cons c text =>
    have areQuotes : ∀ d ∈ c :: text, d = '\'' := by simpa [withoutSeparators] using spelt
    obtain ⟨-, next⟩ := (quotesAfter_cons.mp stand).1 (areQuotes c List.mem_cons_self)
    cases text with
    | nil => cases next
    | cons d text =>
      rw [areQuotes d (by simp), List.head?_cons, Option.any_some,
        digitsAfter_eq_false (by decide)] at next
      cases next

/-- A letter that no quote stands before. -/
theorem exists_letter {c : Char} (stand : QuotesAfter digitsAfter done text)
    (spelt : withoutSeparators text = c :: letters) (direct : text.head? ≠ some '\'') :
    ∃ rest, text = c :: rest ∧ withoutSeparators rest = letters ∧
      QuotesAfter digitsAfter (done ++ [c]) rest := by
  cases text with
  | nil => cases spelt
  | cons d rest =>
    have other : d ≠ '\'' := fun quote => direct (by rw [quote]; rfl)
    rw [withoutSeparators_cons other] at spelt
    obtain ⟨rfl, others⟩ := List.cons.inj spelt
    exact ⟨rest, rfl, others, (quotesAfter_cons.mp stand).2⟩

/-- After a quote there is no other one. -/
theorem head_ne_quote_of_quote (stand : QuotesAfter digitsAfter done ('\'' :: text)) :
    text.head? ≠ some '\'' := by
  intro quote
  obtain ⟨-, next⟩ := (quotesAfter_cons.mp stand).1 rfl
  rw [quote, Option.any_some, digitsAfter_eq_false (by decide)] at next
  cases next

/-- Digits, with the quotes between them. -/
theorem exists_isDigits (stand : QuotesAfter digitsAfter done text)
    (spelt : withoutSeparators text = digits ++ letters) (isDigits : IsDigits radix digits)
    (noQuote : '\'' ∉ digits) (direct : text.head? ≠ some '\'') :
    ∃ piece rest, text = piece ++ rest ∧ IsDigits radix piece ∧ piece.head? = digits.head? ∧
      withoutSeparators rest = letters ∧ QuotesAfter digitsAfter (done ++ piece) rest := by
  induction isDigits generalizing done text with
  | @last c digit =>
    obtain ⟨rest, rfl, others, stand⟩ := exists_letter stand spelt direct
    exact ⟨[c], rest, rfl, .last digit, rfl, others, stand⟩
  | @next c digits digit more ih =>
    have plain := List.not_mem_of_not_mem_cons noQuote
    obtain ⟨rest, rfl, others, stand⟩ := exists_letter stand spelt direct
    by_cases separated : rest.head? = some '\''
    · obtain ⟨after, rfl⟩ := List.head?_eq_some_iff.mp separated
      have spelt : withoutSeparators after = digits ++ letters := by
        simpa [withoutSeparators] using others
      obtain ⟨piece, rest, rfl, isPiece, -, left, stand⟩ :=
        ih (quotesAfter_cons.mp stand).2 spelt plain (head_ne_quote_of_quote stand)
      exact ⟨c :: '\'' :: piece, rest, rfl, .separator digit isPiece, rfl, left, by simpa using stand⟩
    · obtain ⟨piece, rest, rfl, isPiece, -, left, stand⟩ := ih stand others plain separated
      exact ⟨c :: piece, rest, rfl, .next digit isPiece, rfl, left, by simpa using stand⟩
  | separator digit more ih => simp at noQuote

/-- After a letter that is no digit of any radix, there is no quote. -/
theorem head_ne_quote_of_last {c : Char} (stand : QuotesAfter digitsAfter (done ++ [c]) text)
    (noDigit : digitsAfter (done ++ [c]) c = false) : text.head? ≠ some '\'' := by
  intro quote
  obtain ⟨after, rfl⟩ := List.head?_eq_some_iff.mp quote
  obtain ⟨last, -⟩ := (quotesAfter_cons.mp stand).1 rfl
  rw [List.getLast?_concat, Option.any_some, noDigit] at last
  cases last

/-- A mantissa, with the quotes between its digits. -/
theorem exists_isMantissa (stand : QuotesAfter digitsAfter done text)
    (spelt : withoutSeparators text = mantissa ++ letters)
    (isMantissa : IsMantissa radix point mantissa) (noQuote : '\'' ∉ mantissa)
    (direct : text.head? ≠ some '\'') :
    ∃ piece rest, text = piece ++ rest ∧ IsMantissa radix point piece ∧
      withoutSeparators rest = letters ∧ QuotesAfter digitsAfter (done ++ piece) rest := by
  have noPoint : ∀ before, digitsAfter before '.' = false :=
    fun before => digitsAfter_eq_false (by decide)
  cases isMantissa with
  | noPoint isDigits =>
    obtain ⟨piece, rest, rfl, isPiece, -, others, stand⟩ :=
      exists_isDigits stand spelt isDigits noQuote direct
    exact ⟨piece, rest, rfl, .noPoint isPiece, others, stand⟩
  | @pointAfter whole isDigits =>
    rw [List.append_assoc] at spelt
    obtain ⟨piece, rest, rfl, isPiece, -, others, stand⟩ :=
      exists_isDigits stand spelt isDigits (by simp_all) direct
    obtain ⟨rest, rfl, others, stand⟩ :=
      exists_letter stand others (head_ne_quote stand others (.inr (noPoint _)))
    exact ⟨piece ++ ['.'], rest, by simp, .pointAfter isPiece, others, by simpa using stand⟩
  | @pointBefore fraction isDigits =>
    obtain ⟨rest, rfl, others, stand⟩ := exists_letter stand spelt direct
    obtain ⟨piece, rest, rfl, isPiece, -, others, stand⟩ := exists_isDigits stand others isDigits
      (by simp_all) (head_ne_quote_of_last stand (noPoint _))
    exact ⟨'.' :: piece, rest, rfl, .pointBefore isPiece, others, by simpa using stand⟩
  | @pointBetween whole fraction isDigits more =>
    rw [List.append_assoc] at spelt
    obtain ⟨first, rest, rfl, isFirst, -, others, stand⟩ :=
      exists_isDigits stand spelt isDigits (by simp_all) direct
    obtain ⟨rest, rfl, others, stand⟩ :=
      exists_letter stand others (head_ne_quote stand others (.inr (noPoint _)))
    obtain ⟨second, rest, rfl, isSecond, -, others, stand⟩ := exists_isDigits stand others more
      (by simp_all) (head_ne_quote_of_last stand (noPoint _))
    exact ⟨first ++ '.' :: second, rest, by simp, .pointBetween isFirst isSecond, others,
      by simpa using stand⟩

/-- An exponent, with the quotes between its digits. -/
theorem exists_isExponent (stand : QuotesAfter digitsAfter done text)
    (spelt : withoutSeparators text = exponent ++ suffix) (isExponent : IsExponent letters exponent)
    (noQuote : '\'' ∉ exponent)
    (ended : ∀ letter ∈ letters, digitsAfter done letter = false ∧
      digitsAfter (done ++ [letter]) letter = false) :
    ∃ piece rest, text = piece ++ rest ∧ IsExponent letters piece ∧
      withoutSeparators rest = suffix ∧ QuotesAfter digitsAfter (done ++ piece) rest := by
  cases isExponent with
  | @unsigned letter digits isLetter number =>
    obtain ⟨before, after⟩ := ended letter isLetter
    obtain ⟨rest, rfl, others, stand⟩ :=
      exists_letter stand spelt (head_ne_quote stand spelt (.inr before))
    obtain ⟨piece, rest, rfl, isPiece, -, others, stand⟩ := exists_isDigits stand others number
      (by simp_all) (head_ne_quote_of_last stand after)
    exact ⟨letter :: piece, rest, rfl, .unsigned isLetter isPiece, others, by simpa using stand⟩
  | @signed letter sign digits isLetter isSign number =>
    obtain ⟨before, after⟩ := ended letter isLetter
    have noDigit : ∀ sign ∈ ['+', '-'], Text.isHexDigit sign = false :=
      List.all_iff_forall_prop.mp (by decide)
    obtain ⟨rest, rfl, others, stand⟩ :=
      exists_letter stand spelt (head_ne_quote stand spelt (.inr before))
    obtain ⟨rest, rfl, others, stand⟩ :=
      exists_letter stand others (head_ne_quote_of_last stand after)
    obtain ⟨piece, rest, rfl, isPiece, -, others, stand⟩ := exists_isDigits stand others number
      (by simp_all) (head_ne_quote_of_last stand (digitsAfter_eq_false (noDigit sign isSign)))
    exact ⟨letter :: sign :: piece, rest, rfl, .signed isLetter isSign isPiece, others,
      by simpa using stand⟩

/-- A text is spelt by its letters alone if no sequence goes on with any of them. -/
theorem eq_of_withoutSeparators (stand : QuotesAfter digitsAfter done text)
    (spelt : withoutSeparators text = plain)
    (direct : ∀ part c more, plain = part ++ c :: more → digitsAfter (done ++ part) c = false) :
    text = plain := by
  induction plain generalizing done text with
  | nil => exact eq_nil_of_withoutSeparators stand spelt
  | cons c plain ih =>
    have noDigit : digitsAfter done c = false := by simpa using direct [] c plain rfl
    obtain ⟨rest, rfl, others, stand⟩ :=
      exists_letter stand spelt (head_ne_quote stand spelt (.inr noDigit))
    rw [ih stand others fun part d more same => ?_]
    simpa using direct (c :: part) d more (by rw [same]; rfl)

/-- A suffix, if no sequence goes on with its first letter. -/
theorem eq_suffix (stand : QuotesAfter digitsAfter done text)
    (spelt : withoutSeparators text = suffix)
    (ends : IsIntegerSuffix suffix ∨ IsFloatingSuffix suffix ∨ IsUserSuffix suffix)
    (direct : suffix.head?.any (digitsAfter done) = false) : text = suffix := by
  refine eq_of_withoutSeparators stand spelt fun part c more same => ?_
  obtain known | known | ⟨name, isName, -⟩ := ends
  · have noDigits : ∀ suffix ∈ [] :: integerSuffixes, suffix.any Text.isHexDigit = false := by decide
    have noDigit := List.any_eq_false.mp (noDigits _ (mem_integerSuffixes_iff.mpr known))
    exact digitsAfter_eq_false (Bool.eq_false_iff.mpr (noDigit c (by rw [same]; simp)))
  · cases part with
    | nil => simpa [same] using direct
    | cons d part =>
      have short : ∀ suffix ∈ [[], ['f'], ['F'], ['l'], ['L']], suffix.length ≤ 1 := by decide
      have length := short _ known
      rw [same] at length
      simp at length
  · cases part with
    | nil =>
      rw [same] at isName
      rw [(List.cons.inj isName).1]
      exact digitsAfter_eq_false (by decide)
    | cons d part =>
      rw [same] at isName
      simp [digitsAfter, (List.cons.inj isName).1]

/-! ## Which accepted texts are literals -/

/-- The mark of a radix has no quotes in it or directly after it. -/
theorem exists_mark {mark : Text} (stand : QuotesBetween digitsAfter text)
    (spelt : withoutSeparators text = mark ++ letters) (known : mark ∈ radix.marks) :
    ∃ rest, text = mark ++ rest ∧ withoutSeparators rest = letters ∧
      QuotesAfter digitsAfter mark rest ∧ rest.head? ≠ some '\'' := by
  have start : ∀ {c : Char} {letters : Text}, withoutSeparators text = c :: letters →
      text.head? ≠ some '\'' := fun spelt => head_ne_quote stand spelt (.inl rfl)
  have marks : mark = [] ∨ ∃ m ∈ markLetters, mark = ['0', m] := by
    cases radix with
    | octal => exact .inl (List.mem_singleton.mp known)
    | decimal => exact .inl (List.mem_singleton.mp known)
    | binary =>
      obtain rfl | rfl : mark = ['0', 'b'] ∨ mark = ['0', 'B'] := by simpa [Radix.marks] using known
      · exact .inr ⟨'b', by decide, rfl⟩
      · exact .inr ⟨'B', by decide, rfl⟩
    | hexadecimal =>
      obtain rfl | rfl : mark = ['0', 'x'] ∨ mark = ['0', 'X'] := by simpa [Radix.marks] using known
      · exact .inr ⟨'x', by decide, rfl⟩
      · exact .inr ⟨'X', by decide, rfl⟩
  have apart : ∀ m ∈ markLetters,
      digitsAfter ['0'] m = false ∧ digitsAfter ['0', m] m = false :=
    List.all_iff_forall_prop.mp (by decide)
  obtain rfl | ⟨m, isLetter, rfl⟩ := marks
  · refine ⟨text, rfl, spelt, stand, fun quote => ?_⟩
    obtain ⟨after, rfl⟩ := List.head?_eq_some_iff.mp quote
    obtain ⟨none, -⟩ := (quotesAfter_cons.mp stand).1 rfl
    cases none
  · obtain ⟨before, after⟩ := apart m isLetter
    obtain ⟨rest, rfl, others, stand⟩ := exists_letter stand spelt (start spelt)
    obtain ⟨rest, rfl, others, stand⟩ :=
      exists_letter stand others (head_ne_quote stand others (.inr before))
    have afterMark : QuotesAfter digitsAfter (['0'] ++ [m]) rest := stand
    exact ⟨rest, rfl, others, stand, head_ne_quote_of_last afterMark after⟩

/-- A text without a mark is none with the mark of hexadecimal digits. -/
theorem take_not_mem_marks (unmarked : ∀ c ∈ text.tail.head?, c ∉ markLetters) :
    text.take 2 ∉ Radix.hexadecimal.marks := by
  intro known
  cases text with
  | nil => revert known; decide
  | cons c text =>
    cases text with
    | nil =>
      simp [Radix.marks] at known
    | cons d text =>
      have notLetter := unmarked d rfl
      simp [Radix.marks] at known
      obtain ⟨-, rfl⟩ | ⟨-, rfl⟩ := known <;> simp [markLetters] at notLetter

/-- The suffix of a floating number does not go on with decimal digits. -/
theorem floatingSuffix_apart (ends : IsFloatingSuffix suffix ∨ IsUserSuffix suffix)
    (ended : done.take 2 ∉ Radix.hexadecimal.marks ∨ 'p' ∈ done ∨ 'P' ∈ done) :
    suffix.head?.any (digitsAfter done) = false := by
  have noDigit : ∀ head ∈ floatingSuffixStarts, head.any Char.isDigit = false := by decide
  have first := noDigit _ (head_mem_floatingSuffixStarts ends)
  cases suffix with
  | nil => rfl
  | cons c suffix => exact digitsAfter_decimal ended first

/-- The digits of an integer get their quotes back. -/
theorem IsInteger.exists_of_withoutSeparators (stand : QuotesBetween digitsAfter text)
    (isInteger : IsInteger radix digits suffix (Number.withoutSeparators text)) :
    ∃ piece, IsInteger radix piece suffix text := by
  have noQuote := quote_not_mem_withoutSeparators text
  generalize spelt : Number.withoutSeparators text = plain at isInteger noQuote
  obtain ⟨known, isDigits, starts, ends⟩ := isInteger
  obtain ⟨rest, rfl, others, stand, direct⟩ := exists_mark stand spelt known
  obtain ⟨piece, rest, rfl, isPiece, head, others, stand⟩ :=
    exists_isDigits stand others isDigits (by simp_all) direct
  have noDigit : ∀ head ∈ integerSuffixStarts, head.any Text.isHexDigit = false := by decide
  have ended := noDigit _ (head_mem_integerSuffixStarts ends)
  have apart : ∀ done, suffix.head?.any (digitsAfter done) = false := by
    intro done
    cases suffix with
    | nil => rfl
    | cons c suffix => exact digitsAfter_eq_false ended
  rw [eq_suffix stand others (ends.imp_right .inr) (apart _)]
  exact ⟨piece, .intro known isPiece (head ▸ starts) ends⟩

/-- The digits of a floating number get their quotes back. -/
theorem IsFloating.of_withoutSeparators (stand : QuotesBetween digitsAfter text)
    (isFloating : IsFloating (Number.withoutSeparators text)) : IsFloating text := by
  have noQuote := quote_not_mem_withoutSeparators text
  generalize spelt : Number.withoutSeparators text = plain at isFloating noQuote
  cases isFloating with
  | @decimal point mantissa exponent suffix isMantissa isExponent ends =>
    have noMark : [] ∈ Radix.decimal.marks := List.mem_singleton_self _
    have unmarkedSpelling :
        Number.withoutSeparators text = [] ++ (mantissa ++ (exponent ++ suffix)) := spelt
    obtain ⟨rest, rfl, others, stand, direct⟩ := exists_mark stand unmarkedSpelling noMark
    obtain ⟨piece, rest, rfl, isPiece, others, stand⟩ :=
      exists_isMantissa stand others isMantissa (by simp_all) direct
    have unmarked : ∀ {rest : Text}, (∀ c ∈ rest.head?, c ∉ markLetters) →
        (piece ++ rest).take 2 ∉ Radix.hexadecimal.marks :=
      fun ends => take_not_mem_marks (unmarked_of_isMantissa isPiece ends)
    have alone : piece.take 2 ∉ Radix.hexadecimal.marks := by
      have atEnd : ∀ c ∈ ([] : Text).head?, c ∉ markLetters := by simp
      simpa using unmarked atEnd
    obtain ⟨rfl, hasPoint⟩ | isExponent := isExponent
    · rw [eq_suffix stand others (.inr ends) (floatingSuffix_apart ends (.inl alone))]
      rw [hasPoint] at isPiece
      exact .withoutExponent isPiece ends
    · have noDigit : ∀ letter ∈ ['e', 'E'], letter.isDigit = false ∧ letter ∉ markLetters :=
        List.all_iff_forall_prop.mp (by decide)
      have ended : ∀ letter ∈ ['e', 'E'], digitsAfter piece letter = false ∧
          digitsAfter (piece ++ [letter]) letter = false := fun letter isLetter =>
        ⟨digitsAfter_decimal (.inl alone) (noDigit letter isLetter).1,
          digitsAfter_decimal (.inl (unmarked (by simpa using (noDigit letter isLetter).2)))
            (noDigit letter isLetter).1⟩
      obtain ⟨power, rest, rfl, isPower, others, stand⟩ :=
        exists_isExponent stand others isExponent (by simp_all) ended
      have goesOn : ∀ c ∈ power.head?, c ∉ markLetters := by
        have noSuffix : IsFloatingSuffix [] := by simp [IsFloatingSuffix]
        simpa using exponent_unmarked (.inr isPower) (.inl noSuffix)
      rw [eq_suffix stand others (.inr ends)
        (floatingSuffix_apart ends (.inl (unmarked goesOn)))]
      exact .decimal isPiece (.inr isPower) ends
  | @hexadecimal point mark mantissa exponent suffix known isMantissa isExponent ends =>
    obtain ⟨rest, rfl, others, stand, direct⟩ := exists_mark stand spelt known
    obtain ⟨piece, rest, rfl, isPiece, others, stand⟩ :=
      exists_isMantissa stand others isMantissa (by simp_all) direct
    have noDigit : ∀ letter ∈ ['p', 'P'], Text.isHexDigit letter = false :=
      List.all_iff_forall_prop.mp (by decide)
    obtain ⟨power, rest, rfl, isPower, others, stand⟩ := exists_isExponent stand others
      isExponent (by simp_all) fun letter isLetter =>
        ⟨digitsAfter_eq_false (noDigit letter isLetter), digitsAfter_eq_false (noDigit letter isLetter)⟩
    have ended : 'p' ∈ mark ++ piece ++ power ∨ 'P' ∈ mark ++ piece ++ power := by
      obtain ⟨letter, isLetter, more, rfl⟩ := isPower.head
      obtain rfl | rfl : letter = 'p' ∨ letter = 'P' := by simpa using isLetter
      · exact .inl (by simp)
      · exact .inr (by simp)
    rw [eq_suffix stand others (.inr ends) (floatingSuffix_apart ends (.inr ended))]
    exact .hexadecimal known isPiece isPower ends

/-- A text is a literal if it is one without its quotes and they stand between two digits of a
sequence. -/
theorem IsLiteral.of_withoutSeparators (stand : QuotesBetween digitsAfter text)
    (isLiteral : IsLiteral (Number.withoutSeparators text)) : IsLiteral text := by
  cases isLiteral with
  | integer isInteger =>
    obtain ⟨piece, isInteger⟩ := isInteger.exists_of_withoutSeparators stand
    exact .integer isInteger
  | floating isFloating => exact .floating (isFloating.of_withoutSeparators stand)

/-- Digits of any radix are letters or digits. -/
theorem isAlphanum_of_digitsAfter {c : Char} (isDigit : digitsAfter done c = true) :
    c.isAlphanum = true := by
  have hexadecimal : Text.isHexDigit c = true := by
    by_contra noDigit
    rw [digitsAfter_eq_false (Bool.eq_false_iff.mpr noDigit)] at isDigit
    cases isDigit
  simp only [Text.isHexDigit, Bool.or_eq_true, Bool.and_eq_true, decide_eq_true_eq] at hexadecimal
  have letter (isLetter : c.isUpper = true ∨ c.isLower = true) : c.isAlphanum = true :=
    Bool.or_eq_true_iff.mpr (.inl (Bool.or_eq_true_iff.mpr isLetter))
  obtain (decimal | small) | capital := hexadecimal
  · exact Bool.or_eq_true_iff.mpr (.inr decimal)
  · have atMost : c.val ≤ 'z'.val := Nat.le_trans small.2 (by decide)
    exact letter (.inr (Bool.and_eq_true_iff.mpr ⟨decide_eq_true small.1, decide_eq_true atMost⟩))
  · have atMost : c.val ≤ 'Z'.val := Nat.le_trans capital.2 (by decide)
    exact letter (.inl (decide_eq_true ⟨capital.1, atMost⟩))

/-- What is accepted, and which of it is a literal. A text is accepted if its quotes stand between
letters and digits and it is a literal without them; it is a literal itself if its quotes stand
between digits of one sequence. -/
theorem isValid_iff (text : Text) :
    (isValid text = true ↔
      QuotesBetween (fun _ => Char.isAlphanum) text ∧ IsLiteral (withoutSeparators text)) ∧
    (IsLiteral text ↔ isValid text = true ∧ QuotesBetween digitsAfter text) := by
  have accepted : isValid text = true ↔
      QuotesBetween (fun _ => Char.isAlphanum) text ∧ IsLiteral (withoutSeparators text) := by
    rw [isValid, Bool.and_eq_true, isPlain_iff (quote_not_mem_withoutSeparators text)]
    have stand : separatorsStandBetween ([] : Text).getLast? text = true ↔ _ :=
      separatorsStandBetween_iff
    exact and_congr_left fun _ => stand
  refine ⟨accepted, fun isLiteral => ⟨accepted.mpr ⟨?_, isLiteral.withoutSeparators⟩,
    isLiteral.quotesBetween⟩, fun ⟨valid, stand⟩ => .of_withoutSeparators stand (accepted.mp valid).2⟩
  exact isLiteral.quotesBetween.mono fun before c => isAlphanum_of_digitsAfter

/-- A quote next to a suffix is accepted, although it does not stand between two digits. -/
example : isValid ['1', '\'', 'u'] = true ∧ digitsAfter ['1'] 'u' = false := by decide

end CPreprocessor.Number
