/-
# Reading line markers

A line marker holds a line number and the name of a file between double quotes. The name is
not escaped when it is written, but it is unescaped when it is read, so only some names come
back as they are (`IsMarkable`). For these `item_marker` says that the marker is read as the
directive that it stands for.
-/
import CPreprocessor.Directive.Line
import CPreprocessor.Proofs.Lexing.Adjacency
import CPreprocessor.Proofs.Lexing.Standing
import CPreprocessor.Proofs.Reading.Items

namespace CPreprocessor

/-- A name that a line marker can carry: between double quotes it is one string literal without
anything that is unescaped, and it is on one line. -/
structure Text.IsMarkable (name : Text) : Prop where
  noQuote : '"' ∉ name
  noFeed : '\n' ∉ name
  noReturn : '\r' ∉ name
  noPair : ¬ ['\\', '\\'] <:+: name
  noLast : name.getLast? ≠ some '\\'

/-! ## Quoted names -/

namespace Literal

/-- A run that a quote ends is seen before it, also if not more than `n` bytes are looked at. -/
theorem length_takeWhile_take_quote_le {p : Char → Bool} (ends : p '"' = false) (n : Nat)
    (inner rest : Text) : (((inner ++ '"' :: rest).take n).takeWhile p).length ≤ inner.length := by
  induction inner generalizing n with
  | nil => cases n <;> simp [ends]
  | cons c inner ih =>
    cases n with
    | zero => simp
    | succ n =>
      simp only [List.cons_append, List.take_succ_cons, List.takeWhile_cons]
      split
      · exact Nat.succ_le_succ (ih n)
      · exact Nat.zero_le _

theorem length_takeWhile_quote_le {p : Char → Bool} (ends : p '"' = false) (inner rest : Text) :
    ((inner ++ '"' :: rest).takeWhile p).length ≤ inner.length := by
  have cut := length_takeWhile_take_quote_le ends (inner ++ '"' :: rest).length inner rest
  rwa [List.take_length] at cut

/-- An escape sequence whose backslash is not the last character of a name ends in the name. -/
theorem length_escape_le {inner : Text} (nonempty : inner ≠ []) (rest : Text) :
    (escape (inner ++ '"' :: rest)).length ≤ inner.length := by
  cases inner with
  | nil => exact absurd rfl nonempty
  | cons c inner =>
    have octal := length_takeWhile_take_quote_le (p := Text.isOctalDigit) rfl 2 inner rest
    have hex := length_takeWhile_quote_le (p := Text.isHexDigit) rfl inner rest
    have four := length_takeWhile_take_quote_le (p := Text.isHexDigit) rfl 4 inner rest
    have eight := length_takeWhile_take_quote_le (p := Text.isHexDigit) rfl 8 inner rest
    simp only [List.cons_append, escape, List.length_cons]
    split_ifs <;> simp only <;> omega

/-- The body of a quoted name is the name. -/
theorem body_quoted {name : Text} (noQuote : '"' ∉ name) (noFeed : '\n' ∉ name)
    (noLast : name.getLast? ≠ some '\\') (rest : Text) :
    (body '"' (name ++ '"' :: rest)).closed = true
      ∧ (body '"' (name ++ '"' :: rest)).length = name.length := by
  induction size : name.length using Nat.strongRecOn generalizing name with
  | ind n ih =>
    subst size
    cases name with
    | nil =>
      rw [List.nil_append, body_cons, if_pos rfl]
      exact ⟨rfl, rfl⟩
    | cons c name =>
      obtain ⟨isNoQuote, noQuote⟩ := List.ne_and_not_mem_of_not_mem_cons noQuote
      obtain ⟨isNoFeed, noFeed⟩ := List.ne_and_not_mem_of_not_mem_cons noFeed
      have later (k : Nat) (inside : k ≤ name.length) :
          (body '"' ((name ++ '"' :: rest).drop k)).closed = true
            ∧ (body '"' ((name ++ '"' :: rest).drop k)).length = name.length - k := by
        rw [List.drop_append_of_le_length inside, ← List.length_drop]
        refine ih _ (by rw [List.length_drop, List.length_cons]; omega)
          (fun present => noQuote (List.mem_of_mem_drop present))
          (fun present => noFeed (List.mem_of_mem_drop present)) (fun last => noLast ?_) rfl
        rw [List.getLast?_drop] at last
        split at last
        · cases last
        · rw [List.getLast?_cons, last]
          rfl
      rw [List.cons_append, body_cons, if_neg isNoQuote.symm, if_neg isNoFeed.symm]
      split_ifs with backslash
      · have nonempty : name ≠ [] := by
          rintro rfl
          exact noLast (by rw [backslash]; rfl)
        have inside := length_escape_le nonempty rest
        obtain ⟨closed, length⟩ := later _ inside
        refine ⟨closed, ?_⟩
        simp only [length, List.length_cons]
        omega
      · obtain ⟨closed, length⟩ := later 0 (Nat.zero_le _)
        rw [List.drop_zero] at closed length
        refine ⟨closed, ?_⟩
        simp only [length, List.length_cons]
        omega

end Literal

/-- A quoted name at the end of a line is a string literal. -/
theorem Lexeme.read_quoted {name : Text} (markable : name.IsMarkable) (after : Text) :
    (read .standard ('"' :: name ++ ['"'] ++ '\n' :: after)).kind = .string
      ∧ (read .standard ('"' :: name ++ ['"'] ++ '\n' :: after)).length
        = ('"' :: name ++ ['"']).length := by
  have whole : '"' :: name ++ ['"'] ++ '\n' :: after = '"' :: (name ++ '"' :: '\n' :: after) := by simp
  have opens : Literal.opening? ('"' :: (name ++ '"' :: '\n' :: after)) = some ⟨0, false, '"'⟩ :=
    Literal.opening?_eq_some.mpr ⟨[], _, by simp, rfl, rfl, .inl rfl⟩
  obtain ⟨closed, length⟩ :=
    Literal.body_quoted markable.noQuote markable.noFeed markable.noLast ('\n' :: after)
  rw [whole, read_literal .standard (startsNumber_of_opening? opens) opens, if_neg Bool.false_ne_true]
  refine ⟨kind_readQuoted _ _, ?_⟩
  have suffix :
      Literal.suffixLength ((name ++ '"' :: '\n' :: after).drop (1 + name.length)) = 0 := by
    rw [List.drop_append, List.drop_of_length_le (by omega), Nat.add_sub_cancel, List.nil_append]
    rfl
  simp only [readQuoted, Nat.zero_add, List.drop_succ_cons, List.drop_zero, closed, if_true, length,
    suffix, List.length_cons, List.length_append, List.length_nil]
  omega

namespace Spelling

theorem unescape_of_noPair {name : Text} (noQuote : '"' ∉ name)
    (noPair : ¬ ['\\', '\\'] <:+: name) : unescape name = name := by
  induction name with
  | nil => rfl
  | cons c name ih =>
    have later := ih (List.ne_and_not_mem_of_not_mem_cons noQuote).2
      fun inside => noPair (inside.trans (List.suffix_cons c name).isInfix)
    unfold unescape
    split
    · rename_i same
      rw [same] at noQuote
      simp at noQuote
    · rename_i rest same
      exact (noPair ⟨[], rest, same.symm⟩).elim
    · rename_i same
      cases same
      rw [later]
    · rename_i same
      cases same

theorem betweenQuotes?_quoted (name : Text) :
    betweenQuotes? ('"' :: name ++ ['"']) = some name := by
  have whole : ('"' :: name ++ ['"']).dropWhile (· ≠ '"') = '"' :: (name ++ ['"']) := by simp
  have back : ((name ++ ['"']).reverse.dropWhile (· ≠ '"')) = '"' :: name.reverse := by simp
  simp only [betweenQuotes?, whole, back, List.drop_succ_cons, List.drop_zero, List.reverse_reverse]
  rw [if_pos (by simp)]

/-- A quoted name has the name as its content. -/
theorem content?_quoted {name : Text} (markable : name.IsMarkable) :
    content? ('"' :: name ++ ['"']) = some name := by
  rw [content?, betweenQuotes?_quoted, Option.map_some,
    unescape_of_noPair markable.noQuote markable.noPair]

end Spelling

/-! ## Line numbers -/

theorem Lexeme.numberTail_digits {digits : Text} (areDigits : ∀ c ∈ digits, c.isDigit = true)
    (after : Text) : numberTail (digits ++ ' ' :: after) = digits.length := by
  induction digits with
  | nil =>
    rw [List.nil_append, numberTail_cons]
    rfl
  | cons c digits ih =>
    obtain ⟨isDigit, later⟩ := List.forall_mem_cons.mp areDigits
    have goesOn (next : Char) : continuesNumber c next = true := by
      simp [continuesNumber, Char.isAlphanum, isDigit]
    rw [List.cons_append, numberTail_cons, isExponent_eq_false (.inl isDigit), if_neg Bool.false_ne_true,
      if_pos (goesOn _), ih later, List.length_cons, Nat.add_comm]

/-- The digits of a number before a blank are a number. -/
theorem Lexeme.read_ofNat (n : Nat) (after : Text) :
    (read .standard (Text.ofNat n ++ ' ' :: after)).kind = .number
      ∧ (read .standard (Text.ofNat n ++ ' ' :: after)).length = (Text.ofNat n).length := by
  have areDigits := Text.isDigit_of_mem_ofNat (n := n)
  cases digits : Text.ofNat n with
  | nil => exact absurd digits (Text.ofNat_ne_nil n)
  | cons c rest =>
    rw [digits] at areDigits
    obtain ⟨isDigit, later⟩ := List.forall_mem_cons.mp areDigits
    have starts : startsNumber (c :: rest ++ ' ' :: after) = true := startsNumber_iff.mpr (.inl isDigit)
    rw [read_number .standard starts]
    refine ⟨rfl, ?_⟩
    simp only [readNumber, List.cons_append, List.drop_succ_cons, List.drop_zero,
      numberTail_digits later after, List.length_cons, Nat.add_comm]

namespace LineArguments

theorem le_ofDigitChars (digits : Text) (n : Nat) : n ≤ Nat.ofDigitChars 10 digits n := by
  induction digits generalizing n with
  | nil => rw [Nat.ofDigitChars_nil]
  | cons c digits ih =>
    rw [Nat.ofDigitChars_cons]
    have later := ih (10 * n + (c.toNat - '0'.toNat))
    omega

/-- Digits are read as the number that they write. -/
theorem readNumber_digits (token : Token) {digits : Text}
    (areDigits : ∀ c ∈ digits, c.isDigit = true) {n : Nat}
    (bound : Nat.ofDigitChars 10 digits n ≤ greatestLine) :
    readNumber token n digits = .ok (Nat.ofDigitChars 10 digits n) := by
  induction digits generalizing n with
  | nil => rw [readNumber, Nat.ofDigitChars_nil]
  | cons c digits ih =>
    obtain ⟨isDigit, later⟩ := List.forall_mem_cons.mp areDigits
    have value : n * 10 + Text.digitValue c = 10 * n + (c.toNat - '0'.toNat) := by
      rw [Text.digitValue, if_pos isDigit, Nat.mul_comm]
    rw [Nat.ofDigitChars_cons] at bound ⊢
    have below := le_ofDigitChars digits (10 * n + (c.toNat - '0'.toNat))
    rw [readNumber, if_neg (by simp [isDigit])]
    simp only [value]
    rw [if_neg (by omega), ih later bound]

theorem readNumber_ofNat (token : Token) {n : Nat} (bound : n ≤ greatestLine) :
    readNumber token 0 (Text.ofNat n) = .ok n := by
  have same : Nat.ofDigitChars 10 (Text.ofNat n) 0 = n := Nat.ofDigitChars_ten_toDigits
  rw [readNumber_digits token Text.isDigit_of_mem_ofNat (by rwa [same]), same]

end LineArguments

/-! ## Markers -/

/-- A hash before a blank. -/
theorem Lexeme.read_hash (after : Text) :
    read .standard (['#'] ++ ' ' :: after) = ⟨.punctuator, 1, none⟩ := by
  have lexeme : IsLexeme .punctuator ['#'] := ⟨by decide, [], rfl, by decide⟩
  obtain ⟨before, -, reads⟩ := lexeme.reads
  exact read_append_of_ends reads (lexeme.ends_of_isDetached rfl after)

/-- No gap starts with a digit. -/
theorem Gap.starts_of_isDigit {text : Text} (isDigit : (Text.first text).isDigit = true) :
    starts text = false := by
  rw [Bool.eq_false_iff]
  intro gap
  simp only [starts, Text.isBlank, Bool.or_eq_true, Bool.and_eq_true, decide_eq_true_eq] at gap
  rcases gap with (feed | ((blank | blank) | blank) | blank) | ⟨slash, -⟩
  · rw [feed] at isDigit
    cases isDigit
  · rw [blank] at isDigit
    cases isDigit
  · rw [blank] at isDigit
    cases isDigit
  · rw [blank] at isDigit
    cases isDigit
  · rw [blank] at isDigit
    cases isDigit
  · rw [slash] at isDigit
    cases isDigit

/-- The line of a marker, without its line feed. -/
def Spelling.Printer.markerLine (n : Nat) (name : Text) : Text :=
  ['#'] ++ ' ' :: (Text.ofNat n ++ ' ' :: ('"' :: name ++ ['"']))

theorem Spelling.Printer.marker_eq (token : Token) :
    marker token = markerLine token.line token.file.shown ++ ['\n'] := by
  simp [marker, markerLine]

namespace Lexer

variable {l : Lexer} {text part white after name : Text} {n : Nat}

/-- A marker at the start of a line is a line directive without macros, which gives the line and the
name. -/
theorem StandsAfter.item_marker (stands : l.StandsAfter text part)
    (rest : l.rest = white ++ (Spelling.Printer.markerLine n name ++ '\n' :: after))
    (isWhite : white.IsWhite) (starts : (l.atLineStart || white.contains '\n') = true)
    (markable : name.IsMarkable) (bound : n ≤ LineArguments.greatestLine) :
    ∃ d last, l.item = (.directive d, last)
      ∧ last.StandsAfter text (part ++ white ++ Spelling.Printer.markerLine n name)
      ∧ last.rest = '\n' :: after ∧ last.file = l.file ∧ d.kind = .lineMarker
      ∧ LineArguments.read d.nameToken (d.nameToken :: d.args) = .ok (n, some name) := by
  obtain ⟨numberKind, numberLength⟩ := Lexeme.read_ofNat n ('"' :: name ++ ['"'] ++ '\n' :: after)
  obtain ⟨nameKind, nameLength⟩ := Lexeme.read_quoted markable after
  have bare : Gap.starts (Text.ofNat n ++ ' ' :: ('"' :: name ++ ['"'] ++ '\n' :: after)) = false := by
    refine Gap.starts_of_isDigit ?_
    rw [Text.first_append (Text.ofNat_ne_nil n)]
    cases digits : Text.ofNat n with
    | nil => exact absurd digits (Text.ofNat_ne_nil n)
    | cons c tail => exact Text.isDigit_of_mem_ofNat c (digits ▸ List.mem_cons_self)
  -- The hash, the number and the name are taken one after the other.
  have atHash : l.rest = white ++ (['#'] ++ ' ' ::
      (Text.ofNat n ++ ' ' :: ('"' :: name ++ ['"'] ++ '\n' :: after))) := by
    rw [rest]
    simp [Spelling.Printer.markerLine]
  have hash := stands.takes_next atHash isWhite (by decide) rfl (Lexeme.read_hash _) rfl
  have atNumber : l.next.2.rest =
      [' '] ++ (Text.ofNat n ++ ' ' :: ('"' :: name ++ ['"'] ++ '\n' :: after)) := hash.rest
  obtain ⟨number, numberTaken, isNumber⟩ := hash.stands.takes_nextOnLine atNumber
    (List.forall_mem_singleton.mpr rfl) (Text.ofNat_ne_nil n) bare rfl numberLength
  have atName : number.2.rest = [' '] ++ ('"' :: name ++ ['"'] ++ '\n' :: after) := isNumber.rest
  obtain ⟨literal, literalTaken, isLiteral⟩ := isNumber.stands.takes_nextOnLine atName
    (List.forall_mem_singleton.mpr rfl) (by simp) rfl rfl nameLength
  have line : l.next.2.restOfLine = ([number.1, literal.1], literal.2) := by
    rw [restOfLine_of_some (by rw [numberTaken]), numberTaken,
      restOfLine_of_some (by rw [literalTaken]), literalTaken,
      restOfLine_of_none (by rw [isLiteral.stands.nextOnLine_of_feed isLiteral.rest]),
      isLiteral.stands.nextOnLine_of_feed isLiteral.rest]
  have kind : l.next.1.kind = .punctuator := congrArg Prod.fst hash.word
  have more : l.next.1.isEnd = false := by
    rw [Token.isEnd, kind]
    rfl
  have isHash : Reader.startsDirective l.next.1 = true := by
    have lexeme : l.next.1.lexeme = ['#'] := congrArg Prod.snd hash.word
    have atLineStart : l.next.1.atLineStart = true := hash.atLineStart.trans starts
    simp [Reader.startsDirective, Token.isHash, Token.isPunctuator, kind, lexeme, atLineStart, hash.calls]
  have numberWord : number.1.kind = .number ∧ number.1.lexeme = Text.ofNat n :=
    ⟨(congrArg Prod.fst isNumber.word).trans numberKind, congrArg Prod.snd isNumber.word⟩
  have nameWord : literal.1.kind = .string ∧ literal.1.lexeme = '"' :: name ++ ['"'] :=
    ⟨(congrArg Prod.fst isLiteral.word).trans nameKind, congrArg Prod.snd isLiteral.word⟩
  have found : l.item = (.directive ⟨l.next.1, some number.1, [literal.1]⟩, literal.2) := by
    rw [item_of_startsDirective more isHash, directive, line]
    rfl
  refine ⟨_, _, found, ?_, isLiteral.rest, ?_, ?_, ?_⟩
  · have whole := isLiteral.stands
    simpa [Spelling.Printer.markerLine] using whole
  · rw [isLiteral.file, isNumber.file, hash.file]
  · simp only [Directive.kind, DirectiveKind.ofName, numberWord.1, if_true]
  · have named : LineArguments.readName literal.1 = .ok name := by
      rw [LineArguments.readName, nameWord.1, nameWord.2, Spelling.content?_quoted markable]
      rfl
    simp only [Directive.nameToken, Option.getD_some, LineArguments.read, numberWord, ne_eq, not_true,
      if_false, LineArguments.readNumber_ofNat _ bound, named]
    rfl

end Lexer

end CPreprocessor
