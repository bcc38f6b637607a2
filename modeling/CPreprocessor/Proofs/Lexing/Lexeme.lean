/-
# Where a lexeme ends

A lexeme that was read before one text is read before another text exactly if it
ends there. For each kind, `Ends` says what must not follow: the rest of a longer
number, name, suffix or punctuator. No kind looks further ahead than its longest
punctuator does, which is what later allows a lexeme to be judged by its neighbour.
-/
import CPreprocessor.Token.Lexeme
import CPreprocessor.Proofs.Lexing.Literal
import CPreprocessor.Proofs.Lexing.Number

namespace CPreprocessor

namespace Language

theorem foldl_longest_le {punctuators : List Text} {text : Text} {longest n : Nat} :
    punctuators.foldl
        (fun longest p => if p.isPrefixOf text then max longest p.length else longest) longest ≤ n ↔
      longest ≤ n ∧ ∀ p ∈ punctuators, p <+: text → p.length ≤ n := by
  induction punctuators generalizing longest with
  | nil => simp
  | cons p punctuators ih =>
      rw [List.foldl_cons, ih, List.forall_mem_cons]
      by_cases isPrefix : p <+: text
      · rw [if_pos (List.isPrefixOf_iff_prefix.mpr isPrefix), Nat.max_le]
        constructor
        · rintro ⟨⟨start, one⟩, others⟩
          exact ⟨start, fun _ => one, others⟩
        · rintro ⟨start, one, others⟩
          exact ⟨⟨start, one isPrefix⟩, others⟩
      · rw [if_neg fun same => isPrefix (List.isPrefixOf_iff_prefix.mp same)]
        constructor
        · rintro ⟨start, others⟩
          exact ⟨start, fun same => (isPrefix same).elim, others⟩
        · rintro ⟨start, -, others⟩
          exact ⟨start, others⟩

/-- The longest punctuator is no longer than `n` exactly if no punctuator at the start of the text
is. -/
theorem punctuatorLength_le {language : Language} {text : Text} {n : Nat} :
    language.punctuatorLength text ≤ n ↔
      ∀ p ∈ language.punctuators, p <+: text → p.length ≤ n := by
  rw [punctuatorLength, foldl_longest_le]
  exact ⟨And.right, fun all => ⟨Nat.zero_le n, all⟩⟩

/-- The longest punctuator at the start of a text is a punctuator, if there is one. -/
theorem exists_punctuator {language : Language} {text : Text}
    (some : 0 < language.punctuatorLength text) :
    ∃ p ∈ language.punctuators, p <+: text ∧ p.length = language.punctuatorLength text := by
  by_contra missing
  have shorter : language.punctuatorLength text ≤ language.punctuatorLength text - 1 := by
    rw [punctuatorLength_le]
    intro p known isPrefix
    have le := punctuatorLength_le.mp (Nat.le_refl (language.punctuatorLength text)) p known isPrefix
    have ne : p.length ≠ language.punctuatorLength text :=
      fun same => missing ⟨p, known, isPrefix, same⟩
    omega
  omega

end Language

namespace Lexeme

variable {language : Language} {kind : TokenKind} {w rest other : Text}

/-! ## The four ways to read a lexeme -/

theorem read_number (language : Language) {text : Text} (starts : startsNumber text = true) :
    read language text = readNumber text := by
  rw [read, if_pos starts]

theorem read_literal (language : Language) {text : Text} {opening : Literal.Opening}
    (noNumber : startsNumber text = false) (opens : Literal.opening? text = some opening) :
    read language text =
      if opening.raw then readRaw text opening else readQuoted text opening := by
  simp only [read, noNumber, Bool.false_eq_true, if_false, opens]

theorem read_name (language : Language) {text : Text} (noNumber : startsNumber text = false)
    (noLiteral : Literal.opening? text = none)
    (starts : Text.isIdentifierStart (Text.first text) = true) :
    read language text = readName language text := by
  simp only [read, noNumber, Bool.false_eq_true, if_false, noLiteral, starts, if_true]

theorem read_punctuator (language : Language) {text : Text} (noNumber : startsNumber text = false)
    (noLiteral : Literal.opening? text = none)
    (noName : Text.isIdentifierStart (Text.first text) = false) :
    read language text =
      { kind := .punctuator, length := max 1 (language.punctuatorLength text) } := by
  simp only [read, noNumber, Bool.false_eq_true, if_false, noLiteral, noName]

/-- Whatever a text starts with is read in one of the four ways. -/
theorem read_cases (language : Language) (text : Text) :
    (startsNumber text = true ∧ read language text = readNumber text) ∨
      (∃ opening, Literal.opening? text = some opening ∧
        read language text =
          if opening.raw then readRaw text opening else readQuoted text opening) ∨
      (Literal.opening? text = none ∧ Text.isIdentifierStart (Text.first text) = true ∧
        read language text = readName language text) ∨
      (startsNumber text = false ∧ Literal.opening? text = none ∧
        Text.isIdentifierStart (Text.first text) = false ∧
        read language text =
          { kind := .punctuator, length := max 1 (language.punctuatorLength text) }) := by
  cases number : startsNumber text with
  | true => exact .inl ⟨rfl, read_number language number⟩
  | false =>
      cases opens : Literal.opening? text with
      | some opening => exact .inr (.inl ⟨opening, rfl, read_literal language number opens⟩)
      | none =>
          cases starts : Text.isIdentifierStart (Text.first text) with
          | true => exact .inr (.inr (.inl ⟨rfl, rfl, read_name language number opens starts⟩))
          | false =>
              exact .inr (.inr (.inr ⟨rfl, rfl, rfl, read_punctuator language number opens starts⟩))

/-- A literal starts with a letter of a prefix or with a quote. -/
theorem first_mem_of_opening? {text : Text} {opening : Literal.Opening}
    (opens : Literal.opening? text = some opening) :
    Text.first text ∈ ['u', 'U', 'L', 'R', '"', '\''] := by
  obtain ⟨word, rest, known, -, rfl, quote⟩ := Literal.opening?_eq_some.mp opens
  simp only [Literal.prefixes, List.mem_cons, Prod.mk.injEq, List.not_mem_nil, or_false] at known
  rcases known with ⟨rfl, -⟩ | ⟨rfl, -⟩ | ⟨rfl, -⟩ | ⟨rfl, -⟩ | ⟨rfl, -⟩ | ⟨rfl, -⟩ | ⟨rfl, -⟩ |
    ⟨rfl, -⟩ | ⟨rfl, -⟩ | ⟨rfl, -⟩
  · rcases quote with same | ⟨same, -⟩ <;> simp [same]
  all_goals simp

theorem startsNumber_iff {text : Text} :
    startsNumber text = true ↔
      (Text.first text).isDigit = true ∨
        Text.first text = '.' ∧ (Text.first (text.drop 1)).isDigit = true := by
  simp only [startsNumber, Bool.or_eq_true, Bool.and_eq_true, decide_eq_true_eq]

/-- A number starts with a digit or a point. -/
theorem first_of_startsNumber {text : Text} (starts : startsNumber text = true) :
    (Text.first text).isDigit = true ∨ Text.first text = '.' :=
  (startsNumber_iff.mp starts).imp_right And.left

theorem startsNumber_of_opening? {text : Text} {opening : Literal.Opening}
    (opens : Literal.opening? text = some opening) : startsNumber text = false := by
  have known := first_mem_of_opening? opens
  have noNumber : ['u', 'U', 'L', 'R', '"', '\''].all (fun c => !c.isDigit && c != '.') = true := by
    decide
  have one := List.all_eq_true.mp noNumber _ known
  simp only [Bool.and_eq_true, Bool.not_eq_true', bne_iff_ne] at one
  simp [startsNumber, one]

theorem startsNumber_of_isIdentifierStart {text : Text}
    (starts : Text.isIdentifierStart (Text.first text) = true) : startsNumber text = false := by
  rw [Bool.eq_false_iff]
  intro number
  rcases first_of_startsNumber number with digit | point
  · rw [Text.isIdentifierStart_digit digit] at starts
    cases starts
  · rw [point] at starts
    cases starts

/-! ## Numbers -/

theorem isExponent_eq_false {c : Char} (digit : c.isDigit = true ∨ c = '.') (next : Char) :
    isExponent c next = false := by
  rcases digit with digit | rfl
  · have letters : ['e', 'E', 'p', 'P'].contains c = false := by
      rw [Bool.eq_false_iff]
      intro letter
      simp only [List.contains_iff_mem, List.mem_cons, List.not_mem_nil, or_false] at letter
      rcases letter with rfl | rfl | rfl | rfl <;> cases digit
    rw [isExponent, letters, Bool.false_and]
  · rfl

/-- A number is its first character and a tail. -/
theorem exists_numberTail {rest : Text}
    (reads : readNumber (w ++ rest) = ⟨kind, w.length, none⟩) :
    ∃ c tail, w = c :: tail ∧ numberTail (tail ++ rest) = tail.length ∧ kind = .number ∧
      Number.isValid w = true := by
  cases w with
  | nil =>
      have length := congrArg Lexeme.length reads
      simp [readNumber] at length
  | cons c tail =>
      have length := congrArg Lexeme.length reads
      have error := congrArg Lexeme.error reads
      have same := congrArg Lexeme.kind reads
      simp only [readNumber, List.cons_append, List.drop_succ_cons, List.drop_zero,
        List.length_cons] at length error same
      have tailLength : numberTail (tail ++ rest) = tail.length := by omega
      rw [tailLength, Nat.add_comm, List.take_succ_cons, List.take_left] at error
      refine ⟨c, tail, rfl, tailLength, same.symm, ?_⟩
      by_contra invalid
      rw [if_neg invalid] at error
      cases error

/-- What follows a number does not change that it starts one. -/
theorem startsNumber_append {c : Char} {tail rest : Text}
    (starts : startsNumber (c :: tail ++ rest) = true)
    (whole : numberTail (tail ++ rest) = tail.length) (other : Text) :
    startsNumber (c :: tail ++ other) = true := by
  rw [startsNumber_iff] at starts ⊢
  simp only [List.cons_append, Text.first_cons, List.drop_succ_cons, List.drop_zero] at starts ⊢
  refine starts.imp_right fun ⟨point, digit⟩ => ⟨point, ?_⟩
  cases tail with
  | nil =>
      -- The digit after the point would belong to the number.
      have nothing := numberTail_eq_zero.mp whole
      simp only [List.nil_append] at nothing digit
      simp [continuesNumber, Char.isAlphanum, digit] at nothing
  | cons d tail => exact digit

theorem number_append {rest : Text} (starts : startsNumber (w ++ rest) = true)
    (reads : readNumber (w ++ rest) = ⟨kind, w.length, none⟩) (other : Text) :
    (NumberEnds (w.getLastD Text.nul) other →
        read language (w ++ other) = ⟨kind, w.length, none⟩) ∧
      ((read language (w ++ other)).length = w.length →
        NumberEnds (w.getLastD Text.nul) other) := by
  obtain ⟨c, tail, rfl, whole, rfl, valid⟩ := exists_numberTail reads
  have first : c.isDigit = true ∨ c = '.' := first_of_startsNumber starts
  rw [read_number language (startsNumber_append starts whole other), List.getLastD_cons]
  simp only [readNumber, List.cons_append, List.drop_succ_cons, List.drop_zero, List.length_cons]
  constructor
  · intro ends
    rw [numberTail_append_of_ends whole ends, Nat.add_comm, List.take_succ_cons, List.take_left,
      valid, if_pos rfl]
  · intro length
    exact numberEnds_of_numberTail (by omega) (isExponent_eq_false first _)

/-! ## Names -/

/-- A name ends before a text: the text does not continue it, and does not make it the prefix of a
literal. -/
def NameEnds (w rest : Text) : Prop :=
  Literal.opening? (w ++ rest) = none ∧ Text.isIdentifierChar (Text.first rest) = false

/-- A literal that opens with a run of characters of names opens with all of them and a quote. -/
theorem opening?_append_eq_some {rest : Text} {opening : Literal.Opening}
    (all : ∀ c ∈ w, Text.isIdentifierChar c = true)
    (ends : Text.isIdentifierChar (Text.first rest) = false)
    (opens : Literal.opening? (w ++ rest) = some opening) :
    (w, opening.raw) ∈ ([], false) :: Literal.prefixes ∧ w.length = opening.prefixLength ∧
      Text.first rest = opening.quote ∧
      (opening.quote = '"' ∨ opening.quote = '\'' ∧ opening.raw = false) := by
  obtain ⟨word, inner, known, length, split, quote⟩ := Literal.opening?_eq_some.mp opens
  have areNames : (([], false) :: Literal.prefixes).all
      (fun known => known.1.all Text.isIdentifierChar) = true := by
    decide
  have isName : ∀ c ∈ word, Text.isIdentifierChar c = true :=
    List.all_eq_true.mp (List.all_eq_true.mp areNames _ known)
  have noName : Text.isIdentifierChar (Text.first (opening.quote :: inner)) = false := by
    rcases quote with same | ⟨same, -⟩ <;> rw [same] <;> rfl
  have one := Text.takeWhile_append all ends
  rw [split, Text.takeWhile_append isName noName] at one
  subst one
  have same := List.append_cancel_left split
  exact ⟨known, length, by rw [same]; rfl, quote⟩

/-- A name is a run of characters of names. -/
theorem exists_name {rest : Text}
    (starts : Text.isIdentifierStart (Text.first (w ++ rest)) = true)
    (reads : readName language (w ++ rest) = ⟨kind, w.length, none⟩) :
    ∃ c tail, w = c :: tail ∧ Text.isIdentifierStart c = true ∧
      (∀ d ∈ tail, Text.isIdentifierChar d = true) ∧
      Text.isIdentifierChar (Text.first rest) = false ∧
      kind = if language.isKeyword w then .keyword else .identifier := by
  cases w with
  | nil =>
      have length := congrArg Lexeme.length reads
      simp [readName] at length
  | cons c tail =>
      have length := congrArg Lexeme.length reads
      have same := congrArg Lexeme.kind reads
      simp only [readName, List.cons_append, List.drop_succ_cons, List.drop_zero,
        List.length_cons] at length same
      have whole : ((tail ++ rest).takeWhile Text.isIdentifierChar).length = tail.length := by omega
      obtain ⟨all, ends⟩ := Text.forall_of_length_takeWhile (by decide) whole
      rw [whole, Nat.add_comm, List.take_succ_cons, List.take_left] at same
      exact ⟨c, tail, rfl, starts, all, ends, same.symm⟩

/-- A literal holds at least its opening. -/
theorem prefixLength_lt_length {text : Text} {opening : Literal.Opening}
    (opens : Literal.opening? text = some opening) :
    opening.prefixLength < (read language text).length := by
  rw [read_literal language (startsNumber_of_opening? opens) opens]
  cases raw : opening.raw with
  | false =>
      rw [if_neg (by decide), readQuoted]
      cases closed : (Literal.body opening.quote (text.drop (opening.prefixLength + 1))).closed with
      | true =>
          simp only [if_true]
          omega
      | false =>
          simp only [Bool.false_eq_true, if_false]
          omega
  | true =>
      rw [if_pos rfl, readRaw]
      cases closes : Literal.rawLength? (text.drop (opening.prefixLength + 1)) with
      | some more =>
          simp only []
          omega
      | none =>
          obtain ⟨word, rest, known, length, rfl, quote⟩ := Literal.opening?_eq_some.mp opens
          have oneLine : (([], false) :: Literal.prefixes).all
              (fun known => known.1.all fun c => decide (c ≠ '\n')) = true := by
            decide
          have line : ∀ c ∈ word ++ [opening.quote], decide (c ≠ '\n') = true := by
            intro c present
            rcases List.mem_append.mp present with inWord | isQuote
            · exact List.all_eq_true.mp (List.all_eq_true.mp oneLine _ known) c inWord
            · rw [List.mem_singleton] at isQuote
              rcases quote with same | ⟨same, -⟩ <;> simp [isQuote, same]
          have longer : word.length + 1 ≤ Text.lineLength (word ++ opening.quote :: rest) := by
            rw [Text.lineLength, List.append_cons, List.takeWhile_append_of_pos line]
            simp only [List.length_append, List.length_cons, List.length_nil]
            omega
          simp only []
          omega

/-- A name holds no quote, so it is not a whole literal. -/
theorem length_ne_of_opening? {other : Text} {opening : Literal.Opening}
    (all : ∀ c ∈ w, Text.isIdentifierChar c = true)
    (opens : Literal.opening? (w ++ other) = some opening) :
    (read language (w ++ other)).length ≠ w.length := by
  intro length
  have longer : opening.prefixLength < (read language (w ++ other)).length :=
    prefixLength_lt_length opens
  obtain ⟨word, rest, known, wordLength, split, quote⟩ := Literal.opening?_eq_some.mp opens
  have inside : opening.quote ∈ w := by
    have there : (w ++ other)[word.length]? = some opening.quote := by
      rw [split, List.getElem?_append_right (Nat.le_refl _), Nat.sub_self]
      rfl
    rw [List.getElem?_append_left (by omega)] at there
    exact List.mem_of_getElem? there
  have isName := all _ inside
  rcases quote with same | ⟨same, -⟩ <;> rw [same] at isName <;> cases isName

theorem name_append {rest : Text}
    (starts : Text.isIdentifierStart (Text.first (w ++ rest)) = true)
    (reads : readName language (w ++ rest) = ⟨kind, w.length, none⟩) (other : Text) :
    (NameEnds w other → read language (w ++ other) = ⟨kind, w.length, none⟩) ∧
      ((read language (w ++ other)).length = w.length → NameEnds w other) := by
  obtain ⟨c, tail, rfl, startsName, all, -, rfl⟩ := exists_name starts reads
  have noNumber : startsNumber (c :: tail ++ other) = false :=
    startsNumber_of_isIdentifierStart startsName
  constructor
  · rintro ⟨noLiteral, ends⟩
    rw [read_name language noNumber noLiteral startsName]
    simp only [readName, List.cons_append, List.drop_succ_cons, List.drop_zero]
    rw [Text.takeWhile_append all ends, Nat.add_comm, List.take_succ_cons, List.take_left,
      List.length_cons]
  · intro length
    cases opens : Literal.opening? (c :: tail ++ other) with
    | some opening =>
        have allName : ∀ d ∈ c :: tail, Text.isIdentifierChar d = true :=
          List.forall_mem_cons.mpr ⟨Text.isIdentifierChar_of_isIdentifierStart startsName, all⟩
        exact (length_ne_of_opening? allName opens length).elim
    | none =>
        refine ⟨opens, ?_⟩
        rw [read_name language noNumber opens startsName] at length
        simp only [readName, List.cons_append, List.drop_succ_cons, List.drop_zero,
          List.length_cons] at length
        have whole : ((tail ++ other).takeWhile Text.isIdentifierChar).length = tail.length := by
          omega
        exact (Text.forall_of_length_takeWhile (by decide) whole).2

/-! ## Literals -/

/-- A literal ends before a text: the text does not start or continue its suffix. -/
def LiteralEnds (w rest : Text) : Prop :=
  if w.getLastD Text.nul = '"' ∨ w.getLastD Text.nul = '\'' then
    Text.first rest = '$' ∨ Text.isIdentifierStart (Text.first rest) = false
  else
    Text.isIdentifierChar (Text.first rest) = false

theorem literalEnds_append {closed suffix rest : Text} {quote : Char}
    (isQuote : quote = '"' ∨ quote = '\'') (isSuffix : Literal.IsSuffix suffix) :
    LiteralEnds (closed ++ quote :: suffix) rest ↔ Literal.SuffixEnds suffix rest := by
  have last : (closed ++ quote :: suffix).getLastD Text.nul = suffix.getLastD quote := by
    simp [List.getLast?_append, List.getLast?_cons]
  rw [LiteralEnds, Literal.SuffixEnds, last]
  cases suffix with
  | nil => simp only [List.getLastD_nil, isQuote, if_true]
  | cons c suffix =>
      have isName : Text.isIdentifierChar ((c :: suffix).getLastD quote) = true := by
        rw [List.getLastD_cons]
        exact (isSuffix (List.cons_ne_nil _ _)).2.2 _ List.getLastD_mem_cons
      have noQuote : ¬ ((c :: suffix).getLastD quote = '"' ∨ (c :: suffix).getLastD quote = '\'') := by
        rintro (same | same) <;> rw [same] at isName <;> cases isName
      rw [if_neg noQuote, if_neg (List.cons_ne_nil _ _)]

theorem drop_opening (word inner : Text) (quote : Char) :
    (word ++ quote :: inner).drop (word.length + 1) = inner := by
  rw [← List.drop_drop, List.drop_left]
  rfl

/-- A quoted literal without errors is closed, and takes a suffix from whatever follows. -/
theorem exists_closed_of_readQuoted {word inner : Text} {quote : Char} {n : Nat}
    (reads : readQuoted (word ++ quote :: inner) ⟨word.length, false, quote⟩ = ⟨kind, n, none⟩) :
    ∃ content rest, inner = content ++ quote :: rest ∧
      ∀ other, readQuoted (word ++ quote :: (content ++ quote :: other)) ⟨word.length, false, quote⟩ =
        ⟨kind, word.length + 1 + content.length + 1 + Literal.suffixLength other, none⟩ := by
  rw [readQuoted] at reads
  simp only [drop_opening] at reads
  cases closes : (Literal.body quote inner).closed with
  | false =>
      simp only [closes, Bool.false_eq_true, if_false, Lexeme.mk.injEq, reduceCtorEq,
        and_false] at reads
  | true =>
      obtain ⟨content, rest, rfl, length⟩ := Literal.exists_append_of_closed closes
      refine ⟨content, rest, rfl, fun other => ?_⟩
      have same := Literal.body_congr closes length other
      simp only [closes, if_true, length, Lexeme.mk.injEq] at reads
      obtain ⟨sameKind, -, noError⟩ := reads
      rw [sameKind] at noError
      have after : (word ++ quote :: (content ++ quote :: other)).drop
          (word.length + 1 + content.length + 1) = other := by
        rw [Nat.add_assoc _ _ 1, ← List.drop_drop, drop_opening, drop_opening]
      rw [readQuoted]
      simp only [drop_opening, same, closes, if_true, length, after, sameKind, noError]

/-- A raw literal without errors is closed, and takes a suffix from whatever follows. -/
theorem exists_closed_of_readRaw {word inner : Text} {n : Nat}
    (reads : readRaw (word ++ '"' :: inner) ⟨word.length, true, '"'⟩ = ⟨kind, n, none⟩) :
    ∃ content rest, inner = content ++ '"' :: rest ∧
      ∀ other, readRaw (word ++ '"' :: (content ++ '"' :: other)) ⟨word.length, true, '"'⟩ =
        ⟨kind, word.length + 1 + content.length + 1 + Literal.suffixLength other, none⟩ := by
  rw [readRaw] at reads
  simp only [drop_opening] at reads
  cases closes : Literal.rawLength? inner with
  | none => simp only [closes, Lexeme.mk.injEq, reduceCtorEq, and_false] at reads
  | some more =>
      simp only [closes, Lexeme.mk.injEq, and_true] at reads
      obtain ⟨rfl, -⟩ := reads
      obtain ⟨content, rest, rfl, -, closesAll⟩ := Literal.exists_append_of_rawLength? closes
      refine ⟨content, rest, rfl, fun other => ?_⟩
      rw [readRaw]
      simp only [drop_opening, closesAll, Lexeme.mk.injEq, and_true, true_and]
      omega

/-- A literal without errors is closed, and takes a suffix from whatever follows its last quote. -/
theorem exists_closed {text : Text} {opening : Literal.Opening} {n : Nat}
    (opens : Literal.opening? text = some opening) (reads : read language text = ⟨kind, n, none⟩) :
    ∃ closed quote rest, (quote = '"' ∨ quote = '\'') ∧ closed ≠ [] ∧ text = closed ++ quote :: rest ∧
      ∀ other, read language (closed ++ quote :: other) =
        ⟨kind, closed.length + 1 + Literal.suffixLength other, none⟩ := by
  rw [read_literal language (startsNumber_of_opening? opens) opens] at reads
  obtain ⟨word, inner, known, wordLength, rfl, isQuote⟩ := Literal.opening?_eq_some.mp opens
  have readAgain (other : Text) := read_literal language
    (startsNumber_of_opening? (Literal.opening?_eq_some.mpr ⟨word, other, known, wordLength, rfl, isQuote⟩))
    (Literal.opening?_eq_some.mpr ⟨word, other, known, wordLength, rfl, isQuote⟩)
  have form (content other : Text) (quote : Char) :
      word ++ opening.quote :: content ++ quote :: other =
        word ++ opening.quote :: (content ++ quote :: other) := by
    rw [List.append_assoc, List.cons_append]
  have closedLength (content : Text) :
      (word ++ opening.quote :: content).length = word.length + 1 + content.length := by
    rw [List.length_append, List.length_cons]
    omega
  obtain ⟨prefixLength, raw, quote⟩ := opening
  subst wordLength
  cases raw with
  | false =>
      rw [if_neg Bool.false_ne_true] at reads
      obtain ⟨content, rest, rfl, closes⟩ := exists_closed_of_readQuoted reads
      refine ⟨word ++ quote :: content, quote, rest, isQuote.imp_right And.left, by simp,
        (form content rest quote).symm, fun other => ?_⟩
      rw [form, readAgain, if_neg Bool.false_ne_true, closes, closedLength]
  | true =>
      rw [if_pos rfl] at reads
      obtain rfl : quote = '"' := by simpa using isQuote
      obtain ⟨content, rest, rfl, closes⟩ := exists_closed_of_readRaw reads
      refine ⟨word ++ '"' :: content, '"', rest, .inl rfl, by simp, (form content rest '"').symm,
        fun other => ?_⟩
      rw [form, readAgain, if_pos rfl, closes, closedLength]

/-- A literal is its closed part and a suffix. -/
theorem exists_literal {rest : Text} {opening : Literal.Opening}
    (opens : Literal.opening? (w ++ rest) = some opening)
    (reads : read language (w ++ rest) = ⟨kind, w.length, none⟩) :
    ∃ closed quote suffix, (quote = '"' ∨ quote = '\'') ∧ closed ≠ [] ∧
      w = closed ++ quote :: suffix ∧ Literal.IsSuffix suffix ∧
      ∀ other, read language (closed ++ quote :: other) =
        ⟨kind, closed.length + 1 + Literal.suffixLength other, none⟩ := by
  obtain ⟨closed, quote, more, isQuote, nonempty, split, readsAll⟩ := exists_closed opens reads
  have length : w.length = closed.length + 1 + Literal.suffixLength more := by
    rw [split, readsAll, Lexeme.mk.injEq] at reads
    exact reads.2.1.symm
  obtain ⟨suffix, after, rfl, suffixLength⟩ := Literal.exists_suffix more
  have sameLength : w.length = (closed ++ quote :: suffix).length := by
    simp only [List.length_append, List.length_cons]
    omega
  rw [← List.cons_append, ← List.append_assoc] at split
  obtain ⟨rfl, rfl⟩ := List.append_inj split sameLength
  exact ⟨closed, quote, suffix, isQuote, nonempty, rfl, (Literal.suffixLength_append.mp suffixLength).1, readsAll⟩

theorem literal_append {rest : Text} {opening : Literal.Opening}
    (opens : Literal.opening? (w ++ rest) = some opening)
    (reads : read language (w ++ rest) = ⟨kind, w.length, none⟩) (other : Text) :
    (LiteralEnds w other → read language (w ++ other) = ⟨kind, w.length, none⟩) ∧
      ((read language (w ++ other)).length = w.length → LiteralEnds w other) := by
  obtain ⟨closed, quote, suffix, isQuote, -, rfl, isSuffix, readsAll⟩ := exists_literal opens reads
  rw [literalEnds_append isQuote isSuffix, List.append_assoc, List.cons_append, readsAll]
  simp only [List.length_append, List.length_cons]
  constructor
  · intro ends
    rw [Literal.suffixLength_append.mpr ⟨isSuffix, ends⟩, Lexeme.mk.injEq]
    exact ⟨rfl, by omega, rfl⟩
  · intro length
    exact (Literal.suffixLength_append.mp (by omega)).2

theorem length_readQuoted_le {word inner : Text} {quote : Char} {raw : Bool} :
    (readQuoted (word ++ quote :: inner) ⟨word.length, raw, quote⟩).length ≤
      (word ++ quote :: inner).length := by
  have inside := Literal.body_le quote inner
  simp only [readQuoted, drop_opening, List.length_append, List.length_cons]
  cases closes : (Literal.body quote inner).closed with
  | true =>
      obtain ⟨content, rest, rfl, length⟩ := Literal.exists_append_of_closed closes
      have after : (word ++ quote :: (content ++ quote :: rest)).drop
          (word.length + 1 + content.length + 1) = rest := by
        rw [Nat.add_assoc _ _ 1, ← List.drop_drop, drop_opening, drop_opening]
      have suffix := Literal.suffixLength_le rest
      simp only [length, if_true, after, List.length_append, List.length_cons]
      omega
  | false =>
      simp only [Bool.false_eq_true, if_false]
      omega

theorem length_readRaw_le {word inner : Text} {quote : Char} {raw : Bool} :
    (readRaw (word ++ quote :: inner) ⟨word.length, raw, quote⟩).length ≤
      (word ++ quote :: inner).length := by
  simp only [readRaw, drop_opening]
  cases closes : Literal.rawLength? inner with
  | some more =>
      obtain ⟨content, rest, rfl, same, -⟩ := Literal.exists_append_of_rawLength? closes
      have suffix := Literal.suffixLength_le rest
      simp only [List.length_append, List.length_cons]
      omega
  | none =>
      have line : Text.lineLength (word ++ quote :: inner) ≤ (word ++ quote :: inner).length :=
        (List.takeWhile_sublist _).length_le
      simp only [List.length_append, List.length_cons] at line ⊢
      omega

/-! ## Punctuators -/

/-- A punctuator ends before a text: no longer punctuator starts there, and a point does not start a
number. -/
def PunctuatorEnds (language : Language) (w rest : Text) : Prop :=
  (∀ p ∈ language.punctuators, p <+: w ++ rest → p.length ≤ w.length) ∧
    (w = ['.'] → (Text.first rest).isDigit = false)

/-- What starts neither a number nor a literal nor a name is a punctuator of the language or a
single character. -/
theorem exists_punctuator {rest : Text}
    (length : max 1 (language.punctuatorLength (w ++ rest)) = w.length) :
    w ∈ language.punctuators ∨ ∃ c, w = [c] := by
  by_cases none : language.punctuatorLength (w ++ rest) = 0
  · rw [none] at length
    exact .inr (List.length_eq_one_iff.mp length.symm)
  · obtain ⟨p, known, isPrefix, longest⟩ := Language.exists_punctuator (Nat.pos_of_ne_zero none)
    have sameLength : p.length = w.length := by omega
    have same : p = w := by
      rw [List.prefix_iff_eq_take.mp isPrefix, sameLength, List.take_left]
    exact .inl (same ▸ known)

/-- A text that starts no number starts one with another rest only if it is a point before a
digit. -/
theorem startsNumber_append_iff {rest other : Text} (nonempty : w ≠ [])
    (noNumber : startsNumber (w ++ rest) = false) :
    startsNumber (w ++ other) = true ↔ w = ['.'] ∧ (Text.first other).isDigit = true := by
  cases w with
  | nil => exact (nonempty rfl).elim
  | cons c w =>
      rw [Bool.eq_false_iff, ne_eq, startsNumber_iff] at noNumber
      rw [startsNumber_iff]
      simp only [List.cons_append, Text.first_cons, List.drop_succ_cons, List.drop_zero,
        not_or, not_and] at noNumber ⊢
      obtain ⟨noDigit, noPoint⟩ := noNumber
      cases w with
      | nil => simp [noDigit]
      | cons d w =>
          constructor
          · rintro (digit | ⟨point, digit⟩)
            · exact (noDigit digit).elim
            · exact (noPoint point digit).elim
          · rintro ⟨same, -⟩
            cases same

/-- What starts neither a literal nor a name starts no literal with another rest. -/
theorem opening?_append_eq_none {rest : Text} (nonempty : w ≠ [])
    (noLiteral : Literal.opening? (w ++ rest) = none)
    (noName : Text.isIdentifierStart (Text.first (w ++ rest)) = false) (other : Text) :
    Literal.opening? (w ++ other) = none := by
  rw [Option.eq_none_iff_forall_ne_some]
  intro opening opens
  have known := first_mem_of_opening? opens
  cases w with
  | nil => exact nonempty rfl
  | cons c w =>
      have isQuote : c = '"' ∨ c = '\'' := by
        simp only [List.cons_append, Text.first_cons] at known noName
        simp only [List.mem_cons, List.not_mem_nil, or_false] at known
        rcases known with rfl | rfl | rfl | rfl | same
        · cases noName
        · cases noName
        · cases noName
        · cases noName
        · exact same
      have opens : Literal.opening? (c :: w ++ rest) = some ⟨0, false, c⟩ :=
        Literal.opening?_eq_some.mpr
          ⟨[], w ++ rest, by simp, rfl, rfl, isQuote.imp_right fun same => ⟨same, rfl⟩⟩
      rw [noLiteral] at opens
      cases opens

theorem punctuator_append {rest : Text} (noNumber : startsNumber (w ++ rest) = false)
    (noLiteral : Literal.opening? (w ++ rest) = none)
    (noName : Text.isIdentifierStart (Text.first (w ++ rest)) = false)
    (reads : max 1 (language.punctuatorLength (w ++ rest)) = w.length) (other : Text) :
    (PunctuatorEnds language w other → read language (w ++ other) = ⟨.punctuator, w.length, none⟩) ∧
      ((read language (w ++ other)).length = w.length → PunctuatorEnds language w other) := by
  have nonempty : w ≠ [] := by
    rintro rfl
    rw [List.length_nil] at reads
    omega
  have noLiteral' := opening?_append_eq_none nonempty noLiteral noName other
  have noName' : Text.isIdentifierStart (Text.first (w ++ other)) = false := by
    rw [Text.first_append nonempty] at noName ⊢
    exact noName
  cases number : startsNumber (w ++ other) with
  | true =>
      obtain ⟨rfl, digit⟩ := (startsNumber_append_iff nonempty noNumber).mp number
      constructor
      · intro ends
        rw [ends.2 rfl] at digit
        cases digit
      · intro length
        have goesOn : numberTail other ≠ 0 := by
          intro nothing
          have ends := numberTail_eq_zero.mp nothing
          simp [continuesNumber, Char.isAlphanum, digit] at ends
        rw [read_number language number] at length
        simp only [readNumber, List.cons_append, List.nil_append, List.drop_succ_cons, List.drop_zero,
          List.length_cons, List.length_nil] at length
        omega
  | false =>
      rw [read_punctuator language number noLiteral' noName', Lexeme.mk.injEq]
      constructor
      · rintro ⟨longest, -⟩
        have atMost := Language.punctuatorLength_le.mpr longest
        refine ⟨rfl, ?_, rfl⟩
        rcases exists_punctuator reads with known | ⟨c, rfl⟩
        · have atLeast := Language.punctuatorLength_le.mp (Nat.le_refl _) w known
            (List.prefix_append w other)
          omega
        · rw [List.length_singleton] at atMost ⊢
          omega
      · intro length
        refine ⟨Language.punctuatorLength_le.mp (by simp only at length; omega), ?_⟩
        intro point
        rw [Bool.eq_false_iff]
        intro digit
        rw [(startsNumber_append_iff nonempty noNumber).mpr ⟨point, digit⟩] at number
        cases number

/-! ## Every kind -/

/-- A lexeme of some kind ends before a text. -/
def Ends (language : Language) (kind : TokenKind) (w rest : Text) : Prop :=
  match kind with
  | .number => NumberEnds (w.getLastD Text.nul) rest
  | .keyword | .identifier => NameEnds w rest
  | .string | .character => LiteralEnds w rest
  | .punctuator => PunctuatorEnds language w rest
  | .comment | .whitespace | .endOfFile => True

theorem kind_readQuoted (text : Text) (opening : Literal.Opening) :
    (readQuoted text opening).kind = if opening.quote = '"' then .string else .character := by
  rw [readQuoted]
  cases closed : (Literal.body opening.quote (text.drop (opening.prefixLength + 1))).closed with
  | true => rfl
  | false => rfl

theorem kind_readRaw (text : Text) (opening : Literal.Opening) :
    (readRaw text opening).kind = .string := by
  rw [readRaw]
  cases closed : Literal.rawLength? (text.drop (opening.prefixLength + 1)) with
  | some more => rfl
  | none => rfl

/-- A lexeme is never a gap or the end of a file. -/
theorem kind_read_ne (language : Language) (text : Text) :
    (read language text).kind ≠ .comment ∧ (read language text).kind ≠ .whitespace ∧
      (read language text).kind ≠ .endOfFile := by
  have word {kind : TokenKind}
      (isWord : kind ∈ [.keyword, .punctuator, .identifier, .number, .string, .character]) :
      kind ≠ .comment ∧ kind ≠ .whitespace ∧ kind ≠ .endOfFile := by
    cases kind <;> simp at isWord ⊢
  apply word
  rcases read_cases language text with ⟨-, same⟩ | ⟨opening, -, same⟩ | ⟨-, -, same⟩ | ⟨-, -, -, same⟩
  · rw [same, show (readNumber text).kind = .number from rfl]
    decide
  · rw [same]
    split_ifs
    · rw [kind_readRaw]
      decide
    · rw [kind_readQuoted]
      split_ifs
      · decide
      · decide
  · rw [same, readName]
    cases language.isKeyword (text.take
      (1 + ((text.drop 1).takeWhile Text.isIdentifierChar).length)) with
    | true => exact List.mem_cons_self
    | false => exact List.mem_of_mem_drop (i := 2) List.mem_cons_self
  · rw [same]
    exact List.mem_of_mem_drop (i := 1) List.mem_cons_self

/-- The last character of what is no punctuator. -/
def endsWord (c : Char) : Bool :=
  Text.isIdentifierChar c || isNumberChar c || c = '"' || c = '\''

/-- What is no punctuator ends with a character of names or numbers, or with a quote. -/
theorem endsWord_getLastD {rest : Text} (reads : read language (w ++ rest) = ⟨kind, w.length, none⟩) :
    kind = .punctuator ∨ endsWord (w.getLastD Text.nul) = true := by
  rcases read_cases language (w ++ rest) with
    ⟨number, same⟩ | ⟨opening, opens, -⟩ | ⟨-, starts, same⟩ | ⟨-, -, -, same⟩
  · rw [same] at reads
    obtain ⟨c, tail, rfl, whole, -, -⟩ := exists_numberTail reads
    have isOne : isNumberChar (tail.getLastD c) = true := by
      rcases List.mem_cons.mp (List.getLastD_mem_cons (l := tail) (a := c)) with same | inside
      · rw [same]
        rcases first_of_startsNumber number with digit | point
        · simp only [List.cons_append, Text.first_cons] at digit
          simp [isNumberChar, Char.isAlphanum, digit]
        · simp only [List.cons_append, Text.first_cons] at point
          rw [point]
          rfl
      · exact forall_isNumberChar whole _ inside
    right
    rw [List.getLastD_cons, endsWord, isOne, Bool.or_true]
    rfl
  · obtain ⟨closed, quote, suffix, isQuote, -, rfl, isSuffix, -⟩ := exists_literal opens reads
    have last : (closed ++ quote :: suffix).getLastD Text.nul = suffix.getLastD quote := by
      simp [List.getLast?_append, List.getLast?_cons]
    right
    rw [last]
    rcases List.mem_cons.mp (List.getLastD_mem_cons (l := suffix) (a := quote)) with same | inside
    · rw [same]
      rcases isQuote with rfl | rfl <;> rfl
    · have isName := (isSuffix (List.ne_nil_of_mem inside)).2.2 _ inside
      rw [endsWord, isName, Bool.true_or]
      rfl
  · rw [same] at reads
    obtain ⟨c, tail, rfl, isStart, all, -, -⟩ := exists_name starts reads
    have isName : Text.isIdentifierChar (tail.getLastD c) = true := by
      rcases List.mem_cons.mp (List.getLastD_mem_cons (l := tail) (a := c)) with same | inside
      · rw [same]
        exact Text.isIdentifierChar_of_isIdentifierStart isStart
      · exact all _ inside
    right
    rw [List.getLastD_cons, endsWord, isName, Bool.true_or]
    rfl
  · rw [same, Lexeme.mk.injEq] at reads
    exact .inl reads.1.symm

/-- A lexeme is no longer than its text. -/
theorem length_read_le (language : Language) {text : Text} (nonempty : text ≠ []) :
    (read language text).length ≤ text.length := by
  have positive := List.length_pos_iff.mpr nonempty
  rcases read_cases language text with ⟨-, same⟩ | ⟨opening, opens, same⟩ | ⟨-, -, same⟩ | ⟨-, -, -, same⟩
  · have tail := numberTail_le (text.drop 1)
    rw [List.length_drop] at tail
    rw [same, readNumber]
    simp only
    omega
  · rw [same]
    obtain ⟨word, inner, -, wordLength, rfl, -⟩ := Literal.opening?_eq_some.mp opens
    obtain ⟨prefixLength, raw, quote⟩ := opening
    subst wordLength
    split_ifs
    · exact length_readRaw_le
    · exact length_readQuoted_le
  · have tail := (List.takeWhile_sublist (l := text.drop 1) Text.isIdentifierChar).length_le
    rw [List.length_drop] at tail
    rw [same, readName]
    simp only
    omega
  · have longest : language.punctuatorLength text ≤ text.length :=
      Language.punctuatorLength_le.mpr fun p _ isPrefix => isPrefix.length_le
    rw [same]
    simp only
    omega

/-- A lexeme is what it is before every text where it ends, and it ends before every text where a
lexeme of its length is read. -/
theorem read_append {rest : Text} (reads : read language (w ++ rest) = ⟨kind, w.length, none⟩)
    (other : Text) :
    (Ends language kind w other → read language (w ++ other) = ⟨kind, w.length, none⟩) ∧
      ((read language (w ++ other)).length = w.length → Ends language kind w other) := by
  rcases read_cases language (w ++ rest) with
    ⟨number, same⟩ | ⟨opening, opens, same⟩ | ⟨-, starts, same⟩ | ⟨noNumber, noLiteral, noName, same⟩
  · rw [same] at reads
    obtain ⟨-, -, -, -, rfl, -⟩ := exists_numberTail reads
    exact number_append number reads other
  · have result := literal_append opens reads other
    rw [same] at reads
    have literal : kind = .string ∨ kind = .character := by
      cases raw : opening.raw with
      | true =>
          rw [raw, if_pos rfl] at reads
          have isString := kind_readRaw (w ++ rest) opening
          rw [reads] at isString
          exact .inl isString
      | false =>
          rw [raw, if_neg Bool.false_ne_true] at reads
          have isQuoted : kind = if opening.quote = '"' then .string else .character := by
            rw [← kind_readQuoted (w ++ rest) opening, reads]
          rw [isQuoted]
          split_ifs
          · exact .inl rfl
          · exact .inr rfl
    rcases literal with rfl | rfl
    · exact result
    · exact result
  · rw [same] at reads
    have result := name_append starts reads other
    obtain ⟨-, -, -, -, -, -, isName⟩ := exists_name starts reads
    split_ifs at isName
    · subst isName
      exact result
    · subst isName
      exact result
  · rw [same, Lexeme.mk.injEq] at reads
    obtain ⟨rfl, length, -⟩ := reads
    exact punctuator_append noNumber noLiteral noName length other

theorem read_append_of_ends {rest : Text} (reads : read language (w ++ rest) = ⟨kind, w.length, none⟩)
    (ends : Ends language kind w other) :
    read language (w ++ other) = ⟨kind, w.length, none⟩ :=
  (read_append reads other).1 ends

theorem ends_of_length_read {rest : Text}
    (reads : read language (w ++ rest) = ⟨kind, w.length, none⟩)
    (length : (read language (w ++ other)).length = w.length) : Ends language kind w other :=
  (read_append reads other).2 length

end Lexeme

end CPreprocessor
