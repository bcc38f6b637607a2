/-
# What stands between the quotes of a literal

A literal is a row of characters and escape sequences. `Sequence` and `Sequence.AreScanned` say
which rows there are, and how far each sequence reaches, without reference to how they are read. The
body of a literal is passed over one piece at a time; the pieces of a literal without errors are the
sequences of such a row (`Literal.exists_sequences`).
-/
import Mathlib.Data.Bool.AllAny
import CPreprocessor.Proofs.Lexing.Feeds

namespace CPreprocessor

/-! ## Sequences -/

/-- The characters that are escaped with a backslash alone, and what they stand for. -/
def simpleEscapes : List (Char × Nat) :=
  [('\'', 39), ('"', 34), ('?', 63), ('\\', 92), ('a', 7), ('b', 8), ('f', 12), ('n', 10), ('r', 13),
    ('t', 9), ('v', 11)]

/-- The marks of universal character names, with the number of digits after each. -/
def universalMarks : List (Char × Nat) :=
  [('u', 4), ('U', 8)]

/-- A character or an escape sequence. -/
inductive Sequence where
  | character (c : Char)
  | simple (c : Char)
  | octal (digits : Text)
  | hexadecimal (digits : Text)
  | universal (mark : Char) (digits : Text)
  deriving DecidableEq, Repr

namespace Sequence

/-- How a sequence is written. -/
def text : Sequence → Text
  | character c => [c]
  | simple c => ['\\', c]
  | octal digits => '\\' :: digits
  | hexadecimal digits => '\\' :: 'x' :: digits
  | universal mark digits => '\\' :: mark :: digits

/-- The sequences that may stand between two quotes. -/
def IsGrammatical (quote : Char) : Sequence → Prop
  | character c => c ≠ quote ∧ c ≠ '\n' ∧ c ≠ '\\'
  | simple c => c ∈ simpleEscapes.map Prod.fst
  | octal digits =>
      1 ≤ digits.length ∧ digits.length ≤ 3 ∧ ∀ d ∈ digits, Text.isOctalDigit d = true
  | hexadecimal digits => 1 ≤ digits.length ∧ ∀ d ∈ digits, Text.isHexDigit d = true
  | universal mark digits =>
      (mark, digits.length) ∈ universalMarks ∧ ∀ d ∈ digits, Text.isHexDigit d = true

/-- A sequence takes all digits that it can: an octal one up to three, a hexadecimal one any number.
The others have a length of their own. -/
def StopsBefore (rest : Text) : Sequence → Prop
  | octal digits => digits.length = 3 ∨ ∀ c ∈ rest.head?, Text.isOctalDigit c = false
  | hexadecimal _ => ∀ c ∈ rest.head?, Text.isHexDigit c = false
  | character _ | simple _ | universal _ _ => True

/-- How a row of sequences is written. -/
def texts (sequences : List Sequence) : Text :=
  sequences.flatMap text

@[simp] theorem texts_nil : texts [] = [] := rfl

@[simp] theorem texts_cons (s : Sequence) (sequences : List Sequence) :
    texts (s :: sequences) = s.text ++ texts sequences := rfl

theorem texts_append (first second : List Sequence) :
    texts (first ++ second) = texts first ++ texts second :=
  List.flatMap_append

/-- The row of sequences that a text is scanned as. -/
def AreScanned (quote : Char) : List Sequence → Prop
  | [] => True
  | s :: rest => s.IsGrammatical quote ∧ s.StopsBefore (texts rest) ∧ AreScanned quote rest

end Sequence

/-! ## Runs of digits -/

namespace Text

variable {p : Char → Bool}

/-- A run of at most `n` characters is that long, or a character that does not belong to it is next. -/
theorem takeWhile_take_ends (p : Char → Bool) (n : Nat) (text : Text) :
    ((text.take n).takeWhile p).length = n ∨
      ∀ c ∈ (text.drop ((text.take n).takeWhile p).length).head?, p c = false := by
  induction n generalizing text with
  | zero => exact .inl rfl
  | succ n ih =>
    cases text with
    | nil => exact .inr (by simp)
    | cons c text =>
      cases isOne : p c with
      | false => exact .inr (by simp [isOne])
      | true => simpa [isOne] using ih text

theorem takeWhile_ends (p : Char → Bool) (text : Text) :
    ∀ c ∈ (text.drop (text.takeWhile p).length).head?, p c = false := by
  have cut := takeWhile_take_ends p (text.length + 1) text
  rw [List.take_of_length_le (Nat.le_succ _)] at cut
  refine cut.resolve_left fun long => ?_
  have inside := (List.takeWhile_sublist (l := text) p).length_le
  omega

theorem take_length_takeWhile (p : Char → Bool) (text : Text) :
    text.take (text.takeWhile p).length = text.takeWhile p :=
  List.prefix_iff_eq_take.mp (List.takeWhile_prefix p) |>.symm

theorem take_length_takeWhile_take (p : Char → Bool) (n : Nat) (text : Text) :
    text.take ((text.take n).takeWhile p).length = (text.take n).takeWhile p :=
  (List.prefix_iff_eq_take.mp ((List.takeWhile_prefix p).trans (List.take_prefix n text))).symm

theorem length_takeWhile_take_le (p : Char → Bool) (n : Nat) (text : Text) :
    ((text.take n).takeWhile p).length ≤ n :=
  (List.takeWhile_sublist p).length_le.trans (List.length_take_le n text)

/-- A run that fills its room, or stands before a character that ends it, is taken. -/
theorem takeWhile_take_append {run rest : Text} {n : Nat}
    (all : ∀ c ∈ run, p c = true) (short : run.length ≤ n)
    (ends : run.length = n ∨ ∀ c ∈ rest.head?, p c = false) :
    ((run ++ rest).take n).takeWhile p = run := by
  induction run generalizing n with
  | nil =>
    cases n with
    | zero => rfl
    | succ n =>
      cases rest with
      | nil => rfl
      | cons c rest =>
        have stops : p c = false := ends.resolve_left (by simp) c rfl
        simp [stops]
  | cons c run ih =>
    cases n with
    | zero => cases short
    | succ n =>
      obtain ⟨isOne, others⟩ := List.forall_mem_cons.mp all
      simp only [List.length_cons, Nat.add_le_add_iff_right, Nat.add_right_cancel_iff] at short ends
      simp [isOne, ih others short ends]

theorem takeWhile_eq_nil {text : Text} (stops : ∀ c ∈ text.head?, p c = false) :
    text.takeWhile p = [] := by
  cases text with
  | nil => rfl
  | cons c text => exact List.takeWhile_cons_of_neg (by simp [stops c rfl])

end Text

/-! ## Pieces of a literal -/

namespace Literal

/-- The pieces that a body is passed over in. -/
def pieces (quote : Char) : Text → List Text
  | [] => []
  | c :: rest =>
    if c = quote then
      []
    else if c = '\n' then
      []
    else if c = '\\' then
      ('\\' :: rest.take (escape rest).length) :: pieces quote (rest.drop (escape rest).length)
    else
      [c] :: pieces quote rest
  termination_by text => text.length
  decreasing_by
    all_goals simp only [List.length_drop, List.length_cons]; omega

theorem pieces_cons (quote c : Char) (rest : Text) :
    pieces quote (c :: rest) =
      if c = quote then []
      else if c = '\n' then []
      else if c = '\\' then
        ('\\' :: rest.take (escape rest).length) :: pieces quote (rest.drop (escape rest).length)
      else [c] :: pieces quote rest := by
  rw [pieces]

/-- A valid escape sequence that ends before a quote is one of the grammar, and takes all the digits
that it can. -/
theorem exists_sequence {quote : Char} {content rest : Text} (noOctal : Text.isOctalDigit quote = false)
    (noHex : Text.isHexDigit quote = false) (valid : (escape (content ++ quote :: rest)).valid = true)
    (inside : (escape (content ++ quote :: rest)).length ≤ content.length) :
    ∃ s : Sequence, s.IsGrammatical quote ∧
      s.text = '\\' :: content.take (escape (content ++ quote :: rest)).length ∧
      s.StopsBefore (content.drop (escape (content ++ quote :: rest)).length) := by
  cases content with
  | nil =>
    simp only [List.nil_append, escape] at valid inside
    split_ifs at valid inside <;> simp at valid inside
  | cons d part =>
    -- The two marks of universal character names differ in the number of digits only.
    have universal {n : Nat} (known : ((part.take n).takeWhile Text.isHexDigit).length = n ∧
        (d, n) ∈ universalMarks) :
        ∃ s : Sequence, s.IsGrammatical quote ∧
          s.text = '\\' :: (d :: part).take (1 + ((part.take n).takeWhile Text.isHexDigit).length) ∧
          s.StopsBefore ((d :: part).drop (1 + ((part.take n).takeWhile Text.isHexDigit).length)) := by
      refine ⟨.universal d ((part.take n).takeWhile Text.isHexDigit), ⟨?_, ?_⟩, ?_, trivial⟩
      · rw [known.1]
        exact known.2
      · exact fun c there => List.mem_takeWhile_imp there
      · simp [Sequence.text, Nat.add_comm 1, Text.take_length_takeWhile_take]
    have octal := Text.takeWhile_take_stop noOctal 2 part rest
    have hex := Text.takeWhile_stop noHex part rest
    have four := Text.takeWhile_take_stop noHex 4 part rest
    have eight := Text.takeWhile_take_stop noHex 8 part rest
    simp only [List.cons_append, escape, octal, hex, four, eight] at valid inside ⊢
    split_ifs at valid inside ⊢ with isSimple isOctal isX isU isLong isEnd
    · have known : ∀ c ∈ "'\"?\\abfnrtv".toList, c ∈ simpleEscapes.map Prod.fst :=
        List.all_iff_forall_prop.mp (by decide)
      exact ⟨.simple d, known d (List.contains_iff_mem.mp isSimple), rfl, trivial⟩
    · have short := Text.length_takeWhile_take_le Text.isOctalDigit 2 part
      refine ⟨.octal (d :: (part.take 2).takeWhile Text.isOctalDigit), ⟨?_, ?_, ?_⟩, ?_, ?_⟩
      · simp
      · exact Nat.succ_le_succ short
      · simpa [isOctal] using fun c there => List.mem_takeWhile_imp there
      · simp [Sequence.text, Nat.add_comm 1, Text.take_length_takeWhile_take]
      · simpa [Sequence.StopsBefore, Nat.add_comm 1] using
          Text.takeWhile_take_ends Text.isOctalDigit 2 part
    · refine ⟨.hexadecimal (part.takeWhile Text.isHexDigit), ⟨?_, ?_⟩, ?_, ?_⟩
      · exact of_decide_eq_true valid
      · exact fun c there => List.mem_takeWhile_imp there
      · simp [Sequence.text, isX, Nat.add_comm 1, Text.take_length_takeWhile]
      · simpa [Sequence.StopsBefore, Nat.add_comm 1] using Text.takeWhile_ends Text.isHexDigit part
    · exact universal (by simpa [isU, universalMarks] using valid)
    · exact universal (by simpa [isLong, universalMarks] using valid)

/-- A body without errors is passed over as a row of sequences. -/
theorem exists_sequences {quote : Char} {content rest : Text}
    (noOctal : Text.isOctalDigit quote = false) (noHex : Text.isHexDigit quote = false)
    (closed : (body quote (content ++ quote :: rest)).closed = true)
    (length : (body quote (content ++ quote :: rest)).length = content.length)
    (valid : (body quote (content ++ quote :: rest)).badEscape = false) :
    ∃ sequences, content = Sequence.texts sequences ∧ Sequence.AreScanned quote sequences ∧
      ∀ other, pieces quote (content ++ quote :: other) = sequences.map Sequence.text := by
  induction size : content.length using Nat.strongRecOn generalizing content with
  | ind n ih =>
    subst size
    cases content with
    | nil => exact ⟨[], rfl, trivial, fun other => by simp [pieces_cons]⟩
    | cons c content =>
      simp only [List.cons_append, body_cons] at closed length valid
      split_ifs at closed length valid with isQuote isLineFeed isBackslash
      · simp only [List.length_cons, Bool.or_eq_false_iff, Bool.not_eq_false'] at length valid
        have inside : (escape (content ++ quote :: rest)).length ≤ content.length := by omega
        obtain ⟨s, grammatical, written, stops⟩ := exists_sequence noOctal noHex valid.1 inside
        rw [List.drop_append_of_le_length inside] at closed length valid
        obtain ⟨sequences, same, scanned, cut⟩ :=
          ih _ (by simp only [List.length_drop, List.length_cons]; omega) closed
            (by simp only [List.length_drop]; omega) valid.2 rfl
        have split : '\\' :: content = s.text ++ Sequence.texts sequences := by
          rw [written, List.cons_append, ← same, List.take_append_drop]
        refine ⟨s :: sequences, ?_, ⟨grammatical, same ▸ stops, scanned⟩, fun other => ?_⟩
        · rw [isBackslash, split, Sequence.texts_cons]
        · rw [List.cons_append, pieces_cons, if_neg isQuote, if_neg isLineFeed, if_pos isBackslash,
            escape_congr inside other, List.drop_append_of_le_length inside,
            List.take_append_of_le_length inside, cut other, ← written, List.map_cons]
      · simp only [List.length_cons] at length valid
        obtain ⟨sequences, same, scanned, cut⟩ :=
          ih _ (by simp) closed (by omega) valid rfl
        refine ⟨.character c :: sequences, by rw [same]; rfl,
          ⟨⟨isQuote, isLineFeed, isBackslash⟩, trivial, scanned⟩, fun other => ?_⟩
        rw [List.cons_append, pieces_cons, if_neg isQuote, if_neg isLineFeed, if_neg isBackslash,
          cut other]
        rfl

end Literal

/-! ## Character literals -/

/-- What may stand before the first quote of a character literal. -/
def characterPrefixes : List Text :=
  [[], ['u', '8'], ['u'], ['U'], ['L']]

/-- A text is a character literal: a prefix, a row of sequences between single quotes and a suffix.
The body is passed over one sequence at a time. -/
structure IsCharacterLiteral (lead : Text) (sequences : List Sequence) (suffix text : Text) :
    Prop where
  lead_mem : lead ∈ characterPrefixes
  text_eq : text = lead ++ '\'' :: (Sequence.texts sequences ++ '\'' :: suffix)
  areScanned : Sequence.AreScanned '\'' sequences
  pieces_eq : Literal.pieces '\'' (Sequence.texts sequences ++ '\'' :: suffix) =
    sequences.map Sequence.text
  isSuffix : Literal.IsSuffix suffix

namespace Lexeme

/-- A quoted literal without errors has a body that is closed and has no invalid escape sequence. -/
theorem body_of_readQuoted {word inner : Text} {quote : Char} {kind : TokenKind} {n : Nat}
    (reads : readQuoted (word ++ quote :: inner) ⟨word.length, false, quote⟩ = ⟨kind, n, none⟩) :
    (Literal.body quote inner).closed = true ∧ (Literal.body quote inner).badEscape = false ∧
      n = word.length + 1 + (Literal.body quote inner).length + 1 +
        Literal.suffixLength (inner.drop ((Literal.body quote inner).length + 1)) := by
  have after (k : Nat) : (word ++ quote :: inner).drop (word.length + 1 + k) = inner.drop k := by
    rw [← List.drop_drop, drop_opening]
  rw [readQuoted] at reads
  simp only [drop_opening, Nat.add_assoc _ _ 1, after] at reads
  cases closed : (Literal.body quote inner).closed with
  | false =>
    simp only [closed, Bool.false_eq_true, if_false, Lexeme.mk.injEq, reduceCtorEq, and_false] at reads
  | true =>
    simp only [closed, if_true, Lexeme.mk.injEq] at reads
    obtain ⟨-, length, noError⟩ := reads
    refine ⟨rfl, ?_, by omega⟩
    cases bad : (Literal.body quote inner).badEscape with
    | false => rfl
    | true =>
      rw [bad, if_pos rfl] at noError
      split_ifs at noError

/-- A character literal that is read without errors is one. -/
theorem exists_isCharacterLiteral {language : Language} {w rest : Text}
    (reads : read language (w ++ rest) = ⟨.character, w.length, none⟩) :
    ∃ lead sequences suffix, IsCharacterLiteral lead sequences suffix w := by
  have kind : (read language (w ++ rest)).kind = .character := by rw [reads]
  rcases read_cases language (w ++ rest) with ⟨-, same⟩ | ⟨opening, opens, same⟩ | ⟨-, -, same⟩ |
    ⟨-, -, -, same⟩
  · rw [same, show (readNumber (w ++ rest)).kind = .number from rfl] at kind
    cases kind
  · obtain ⟨word, inner, known, length, split, isQuote⟩ := Literal.opening?_eq_some.mp opens
    obtain ⟨prefixLength, raw, quote⟩ := opening
    simp only at length known split isQuote
    subst length
    cases raw with
    | true =>
      rw [same, if_pos rfl, kind_readRaw] at kind
      cases kind
    | false =>
      rw [if_neg Bool.false_ne_true] at same
      have single : quote = '\'' := by
        refine (isQuote.resolve_left fun double => ?_).1
        rw [same, kind_readQuoted, if_pos double] at kind
        cases kind
      subst single
      rw [same, split] at reads
      obtain ⟨closed, valid, total⟩ := body_of_readQuoted reads
      obtain ⟨content, more, rfl, contentLength⟩ := Literal.exists_append_of_closed closed
      obtain ⟨sequences, rfl, scanned, pieces⟩ :=
        Literal.exists_sequences (by decide) (by decide) closed contentLength valid
      obtain ⟨suffix, after, rfl, suffixLength⟩ := Literal.exists_suffix more
      rw [contentLength, drop_opening, suffixLength] at total
      have form : word ++ '\'' :: (Sequence.texts sequences ++ '\'' :: (suffix ++ after)) =
          (word ++ '\'' :: (Sequence.texts sequences ++ '\'' :: suffix)) ++ after := by simp
      obtain ⟨rfl, -⟩ := List.append_inj (split.trans form) (by
        simp only [List.length_append, List.length_cons]
        omega)
      refine ⟨word, sequences, suffix, ?_, rfl, scanned, pieces suffix,
        (Literal.suffixLength_append.mp suffixLength).1⟩
      simpa [Literal.prefixes, characterPrefixes] using known
  · rw [same, readName] at kind
    split_ifs at kind
  · rw [same] at kind
    cases kind

end Lexeme

end CPreprocessor
