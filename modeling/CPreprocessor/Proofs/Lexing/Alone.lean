/-
# Lexemes on their own

What a lexeme is does not depend on the text after it: the lexeme alone is read as the
same lexeme, with the same error. Most kinds end where the next character does not
continue them, and the end of the text does not continue anything. A literal that is not
closed ends with its line, and its line end is as good as the end of the text. So the
lexeme of every token, taken as a source of its own, holds that token and nothing else.
-/
import CPreprocessor.Proofs.Lexing.Feeds
import CPreprocessor.Proofs.Lexing.Trivia

namespace CPreprocessor

/-- A line is as long alone as it is before its line end. -/
theorem Text.lineLength_take (text : Text) :
    lineLength (text.take (lineLength text)) = lineLength text := by
  have start := List.prefix_iff_eq_take.mp (List.takeWhile_prefix (l := text) (· ≠ '\n'))
  rw [lineLength, lineLength, ← start, List.takeWhile_takeWhile]
  simp

namespace Literal

/-! ## Literals that end with their line -/

/-- A body that is not closed is the text up to a line end or up to its end. -/
theorem exists_append_of_open {quote : Char} {text : Text} (isOpen : (body quote text).closed = false) :
    ∃ content, (body quote text).length = content.length ∧
      (text = content ∨ ∃ tail, text = content ++ '\n' :: tail) := by
  induction size : text.length using Nat.strongRecOn generalizing text with
  | ind n ih =>
    subst size
    cases text with
    | nil => exact ⟨[], by rw [body]; rfl, .inl rfl⟩
    | cons c text =>
      rw [body_cons] at isOpen ⊢
      split_ifs at isOpen ⊢ with isQuote isLineFeed isBackslash
      · exact ⟨[], rfl, .inr ⟨text, by rw [isLineFeed]; rfl⟩⟩
      · obtain ⟨content, length, ending⟩ :=
          ih _ (by simp only [List.length_drop, List.length_cons]; omega) isOpen rfl
        have enough := escape_le text
        refine ⟨c :: (text.take (escape text).length ++ content), ?_, ?_⟩
        · simp only [length, List.length_cons, List.length_append, List.length_take]
          omega
        · have split := List.take_append_drop (escape text).length text
          rcases ending with whole | ⟨tail, whole⟩
          · exact .inl (by rw [← whole, split])
          · exact .inr ⟨tail, by rw [List.cons_append, List.append_assoc, ← whole, split]⟩
      · obtain ⟨content, length, ending⟩ := ih _ (by simp) isOpen rfl
        refine ⟨c :: content, by simp only [length, List.length_cons]; omega, ?_⟩
        rcases ending with whole | ⟨tail, whole⟩
        · exact .inl (by rw [whole])
        · exact .inr ⟨tail, by rw [whole]; rfl⟩

theorem suffixLength_alone (suffix rest : Text)
    (length : suffixLength (suffix ++ rest) = suffix.length) :
    suffixLength suffix = suffix.length := by
  have ends : SuffixEnds suffix [] := by
    unfold SuffixEnds
    split_ifs
    · exact .inr rfl
    · rfl
  have alone := suffixLength_append.mpr ⟨(suffixLength_append.mp length).1, ends⟩
  rwa [List.append_nil] at alone

end Literal

namespace Lexeme

variable {language : Language} {kind : TokenKind} {error : Option LexError} {w rest : Text}

/-! ## Each kind on its own -/

theorem readNumber_alone {c : Char} {tail : Text}
    (reads : readNumber (c :: tail ++ rest) = ⟨kind, tail.length + 1, error⟩) :
    readNumber (c :: tail) = ⟨kind, tail.length + 1, error⟩ := by
  simp only [readNumber, List.cons_append, List.drop_succ_cons, List.drop_zero, mk.injEq] at reads ⊢
  obtain ⟨isNumber, length, same⟩ := reads
  have whole : numberTail (tail ++ rest) = tail.length := by omega
  have ends : NumberEnds (tail.getLastD c) [] :=
    ⟨by simp [isExponent, Text.nul], rfl⟩
  have alone := numberTail_append_of_ends whole ends
  rw [List.append_nil] at alone
  rw [whole, Nat.add_comm, List.take_succ_cons, List.take_left] at same
  rw [alone, Nat.add_comm, List.take_succ_cons, List.take_length]
  exact ⟨isNumber, rfl, same⟩

theorem readQuoted_alone {word inner : Text} {quote : Char} {raw : Bool} (noFeed : quote ≠ '\n')
    (reads : readQuoted (word ++ quote :: (inner ++ rest)) ⟨word.length, raw, quote⟩ =
      ⟨kind, word.length + 1 + inner.length, error⟩) :
    readQuoted (word ++ quote :: inner) ⟨word.length, raw, quote⟩ =
      ⟨kind, word.length + 1 + inner.length, error⟩ := by
  have reading (inner : Text) := readQuoted.eq_1 (word ++ quote :: inner) ⟨word.length, raw, quote⟩
  simp only [drop_opening] at reading
  rw [reading] at reads ⊢
  cases closes : (Literal.body quote (inner ++ rest)).closed with
  | true =>
    obtain ⟨content, more, split, length⟩ := Literal.exists_append_of_closed closes
    have afterQuote (other : Text) : (word ++ quote :: (content ++ quote :: other)).drop
        (word.length + 1 + content.length + 1) = other := by
      rw [Nat.add_assoc _ _ 1, ← List.drop_drop, drop_opening, drop_opening]
    rw [split] at reads closes length
    simp only [closes, if_true, length, afterQuote, mk.injEq] at reads
    obtain ⟨sameKind, sameLength, sameError⟩ := reads
    obtain ⟨suffix, rfl, rfl⟩ := Text.exists_append_of_length_lt split (by omega)
    rw [List.length_append, List.length_cons] at sameLength
    have suffixLength := Literal.suffixLength_alone suffix rest (by omega)
    have same := Literal.body_congr closes length suffix
    simp only [same, closes, if_true, length, afterQuote, suffixLength, mk.injEq]
    refine ⟨sameKind, ?_, sameError⟩
    rw [List.length_append, List.length_cons]
    omega
  | false =>
    obtain ⟨content, length, ending⟩ := Literal.exists_append_of_open closes
    simp only [closes, Bool.false_eq_true, if_false, length, mk.injEq] at reads
    obtain ⟨sameKind, sameLength, sameError⟩ := reads
    have same : Literal.body quote inner = Literal.body quote (inner ++ rest) := by
      rcases ending with whole | ⟨tail, whole⟩
      · have nothing : rest = [] := by
          have lengths := congrArg List.length whole
          rw [List.length_append] at lengths
          exact List.eq_nil_of_length_eq_zero (by omega)
        rw [nothing, List.append_nil]
      · obtain ⟨rfl, rfl⟩ := List.append_inj whole (by omega)
        rw [Literal.body_feed noFeed]
    simp only [same, closes, Bool.false_eq_true, if_false, length, mk.injEq]
    exact ⟨sameKind, sameLength, sameError⟩

theorem max_lineLength_alone (length : max 1 (Text.lineLength (w ++ rest)) = w.length) :
    max 1 (Text.lineLength w) = w.length := by
  by_cases empty : Text.lineLength (w ++ rest) = 0
  · have atMost := Text.lineLength_le w
    omega
  · have alone := Text.lineLength_take (w ++ rest)
    rw [show Text.lineLength (w ++ rest) = w.length by omega, List.take_left] at alone
    omega

theorem readRaw_alone {word inner : Text}
    (reads : readRaw (word ++ '"' :: (inner ++ rest)) ⟨word.length, true, '"'⟩ =
      ⟨kind, word.length + 1 + inner.length, error⟩) :
    readRaw (word ++ '"' :: inner) ⟨word.length, true, '"'⟩ =
      ⟨kind, word.length + 1 + inner.length, error⟩ := by
  simp only [readRaw, drop_opening] at reads ⊢
  cases closes : Literal.rawLength? (inner ++ rest) with
  | some n =>
    simp only [closes, mk.injEq] at reads
    obtain ⟨closed, more, split, length, readsAll⟩ := Literal.exists_append_of_rawLength? closes
    obtain ⟨suffix, rfl, rfl⟩ := Text.exists_append_of_length_lt split (by omega)
    rw [List.length_append, List.length_cons] at reads
    have suffixLength := Literal.suffixLength_alone suffix rest (by omega)
    simp only [readsAll, suffixLength, List.length_append, List.length_cons, mk.injEq]
    exact ⟨reads.1, by omega, reads.2.2⟩
  | none =>
    have isOpen := Literal.rawLength?_of_prefix (List.prefix_append inner rest) closes
    have whole : word ++ '"' :: (inner ++ rest) = word ++ '"' :: inner ++ rest := by simp
    have size : (word ++ '"' :: inner).length = word.length + 1 + inner.length := by
      rw [List.length_append, List.length_cons]
      omega
    simp only [closes, whole, mk.injEq] at reads
    simp only [isOpen, mk.injEq]
    rw [← size] at reads ⊢
    exact ⟨reads.1, max_lineLength_alone reads.2.1, reads.2.2⟩

theorem literal_alone {opening : Literal.Opening} (opens : Literal.opening? (w ++ rest) = some opening)
    (reads : read language (w ++ rest) = ⟨kind, w.length, error⟩) :
    read language w = ⟨kind, w.length, error⟩ := by
  have longer : opening.prefixLength < w.length := by
    have inside : opening.prefixLength < (read language (w ++ rest)).length :=
      prefixLength_lt_length opens
    rwa [reads] at inside
  obtain ⟨word, after, known, wordLength, split, isQuote⟩ := Literal.opening?_eq_some.mp opens
  obtain ⟨inner, rfl, rfl⟩ := Text.exists_append_of_length_lt split (by omega)
  have opensAlone : Literal.opening? (word ++ opening.quote :: inner) = some opening :=
    Literal.opening?_eq_some.mpr ⟨word, inner, known, wordLength, rfl, isQuote⟩
  have size : (word ++ opening.quote :: inner).length = word.length + 1 + inner.length := by
    rw [List.length_append, List.length_cons]
    omega
  rw [read_literal language (startsNumber_of_opening? opens) opens, split, size] at reads
  rw [read_literal language (startsNumber_of_opening? opensAlone) opensAlone, size]
  obtain ⟨prefixLength, raw, quote⟩ := opening
  subst wordLength
  cases raw with
  | true =>
    obtain rfl : quote = '"' := by simpa using isQuote
    rw [if_pos rfl] at reads ⊢
    exact readRaw_alone reads
  | false =>
    have noFeed : quote ≠ '\n' := by
      rintro rfl
      simp at isQuote
    rw [if_neg Bool.false_ne_true] at reads ⊢
    exact readQuoted_alone noFeed reads

/-- No name is the prefix of a literal at the end of a text. -/
theorem nameEnds_nil (all : ∀ c ∈ w, Text.isIdentifierChar c = true) : NameEnds w [] := by
  refine ⟨?_, by decide⟩
  rw [Option.eq_none_iff_forall_ne_some]
  intro opening opens
  obtain ⟨-, -, isNul, isQuote⟩ := opening?_append_eq_some all (by decide) opens
  rw [← isNul] at isQuote
  rcases isQuote with quote | ⟨quote, -⟩ <;> cases quote

/-- A lexeme is read alone as it is read before any text. -/
theorem read_alone (reads : read language (w ++ rest) = ⟨kind, w.length, error⟩) :
    read language w = ⟨kind, w.length, error⟩ := by
  have positive : 0 < w.length := by
    have positive := length_read_pos language (w ++ rest)
    rwa [reads] at positive
  rcases read_cases language (w ++ rest) with
    ⟨number, same⟩ | ⟨opening, opens, -⟩ | ⟨-, starts, same⟩ | ⟨noNumber, noLiteral, noName, same⟩
  · rw [same] at reads
    cases w with
    | nil => cases positive
    | cons c tail =>
      have length := congrArg Lexeme.length reads
      simp only [readNumber, List.cons_append, List.drop_succ_cons, List.drop_zero,
        List.length_cons] at length
      have startsAlone := startsNumber_append number (by omega) []
      rw [List.append_nil] at startsAlone
      rw [read_number language startsAlone]
      exact readNumber_alone reads
  · exact literal_alone opens reads
  · rw [same] at reads
    obtain rfl : none = error := congrArg Lexeme.error reads
    obtain ⟨c, tail, rfl, isStart, all, -⟩ := exists_name starts reads
    have allName : ∀ d ∈ c :: tail, Text.isIdentifierChar d = true :=
      List.forall_mem_cons.mpr ⟨Text.isIdentifierChar_of_isIdentifierStart isStart, all⟩
    have alone := (name_append starts reads []).1 (nameEnds_nil allName)
    rwa [List.append_nil] at alone
  · rw [same, mk.injEq] at reads
    obtain ⟨rfl, length, rfl⟩ := reads
    have ends : PunctuatorEnds language w [] := by
      refine ⟨fun p _ isPrefix => ?_, fun _ => rfl⟩
      rw [List.append_nil] at isPrefix
      exact isPrefix.length_le
    have alone := (punctuator_append noNumber noLiteral noName length []).1 ends
    rwa [List.append_nil] at alone

end Lexeme

/-! ## Pieces of gaps on their own -/

namespace Gap

/-- No gap starts with a part of a lexeme. -/
theorem starts_alone {w rest : Text} (nonempty : w ≠ []) (bare : starts (w ++ rest) = false) :
    starts w = false := by
  cases w with
  | nil => exact absurd rfl nonempty
  | cons c w =>
    cases w with
    | nil =>
      rw [starts, Bool.or_eq_false_iff] at bare ⊢
      exact ⟨bare.1, Bool.and_false _⟩
    | cons d w => exact bare

theorem first?_of_not_starts {text : Text} (bare : starts text = false) : first? text = none := by
  rw [Option.eq_none_iff_forall_ne_some]
  intro piece found
  obtain ⟨white, rest, rfl, nonempty, isWhite, -⟩ | ⟨rest, rfl⟩ | ⟨rest, rfl⟩ :=
    exists_of_first? found
  · cases white with
    | nil => exact nonempty rfl
    | cons c white =>
      rcases isWhite c List.mem_cons_self with feed | blank
      · simp [starts, feed] at bare
      · simp [starts, blank] at bare
  · cases bare
  · cases bare

theorem blockComment_alone (rest : Text) :
    blockComment (rest.take (blockComment rest).1) = blockComment rest := by
  cases found : Text.find? ['*', '/'] rest with
  | none =>
    have whole : (blockComment rest).1 = rest.length := by
      rw [blockComment, found]
    rw [whole, List.take_length]
  | some inside =>
    obtain ⟨before, after, rfl, rfl⟩ := Text.exists_append_of_find? found
    have closes := Text.find?_append found []
    have length : (blockComment (before ++ (['*', '/'] ++ after))).1 = before.length + 2 := by
      rw [blockComment, found]
    have part : (before ++ (['*', '/'] ++ after)).take (before.length + 2) =
        before ++ (['*', '/'] ++ []) := by
      rw [List.take_length_add_append]
      rfl
    rw [length, part, blockComment, closes, blockComment, found]

/-- A piece of a gap is the same piece alone. -/
theorem first?_alone {text : Text} {kind : TokenKind} {gap : Gap}
    (found : first? text = some (kind, gap)) : first? (text.take gap.length) = some (kind, gap) := by
  obtain ⟨white, rest, rfl, nonempty, isWhite, ends⟩ | ⟨rest, rfl⟩ | ⟨rest, rfl⟩ :=
    exists_of_first? found
  · rw [first?_white nonempty isWhite ends] at found
    cases found
    have alone : first? (white ++ []) = _ := first?_white nonempty isWhite rfl
    rw [List.append_nil] at alone
    rw [List.take_left, alone]
  · rw [first?_line] at found
    cases found
    rw [Nat.add_comm, List.take_succ_cons, List.take_succ_cons, first?_line, Text.lineLength_take,
      Nat.add_comm]
  · rw [first?_block] at found
    cases found
    rw [Nat.add_comm, List.take_succ_cons, List.take_succ_cons, first?_block, blockComment_alone,
      Nat.add_comm]

end Gap

/-! ## Tokens on their own -/

namespace Token

/-- The lexeme of the token, taken alone, is that token: a whole lexeme or, where white space is
kept, a whole piece of a gap. -/
def ReadsAlone (language : Language) (keepsTrivia : Bool) (token : Token) : Prop :=
  (token.lexeme ≠ [] ∧ Gap.starts token.lexeme = false ∧
      Lexeme.read language token.lexeme = ⟨token.kind, token.lexeme.length, token.error⟩) ∨
    (keepsTrivia = true ∧ token.error = none ∧
      ∃ gap, Gap.first? token.lexeme = some (token.kind, gap) ∧ gap.length = token.lexeme.length)

end Token

namespace Lexer

variable {l : Lexer}

theorem readsAlone_of_readsIn {language : Language} {text : Text} {token : Token} (keepsTrivia : Bool)
    (reads : ReadsIn language text token) : token.ReadsAlone language keepsTrivia := by
  obtain ⟨rest, -, nonempty, bare, lexeme⟩ := reads
  exact .inl ⟨nonempty, Gap.starts_alone nonempty bare, Lexeme.read_alone lexeme⟩

theorem keepsTrivia_takeLexeme (l : Lexer) : l.takeLexeme.2.keepsTrivia = l.keepsTrivia := by
  unfold takeLexeme
  split
  · rfl
  · rfl

/-- White space or a comment is taken by a lexer that keeps it, and as a whole. -/
theorem readsAlone_of_isTrivia (fresh : l.peeked = none) (isTrivia : l.next.1.isTrivia = true) :
    l.next.1.ReadsAlone l.language l.keepsTrivia ∧ l.next.1.lexeme <:+: l.rest := by
  cases keeps : l.keepsTrivia with
  | false =>
    have reading : l.next = (l.skipGap true).takeLexeme := by
      simp only [next, fresh, read, keeps, Bool.false_eq_true, if_false]
    rw [reading, isTrivia_takeLexeme] at isTrivia
    cases isTrivia
  | true =>
    have reading : l.next = l.takeTrivia?.getD l.takeLexeme := by
      rw [next, fresh, read, if_pos keeps]
    rw [takeTrivia?_eq] at reading
    cases found : Gap.first? l.rest with
    | none =>
      rw [found] at reading
      have noTrivia := isTrivia_takeLexeme l
      rw [reading] at isTrivia
      exact absurd (noTrivia.symm.trans isTrivia) Bool.false_ne_true
    | some piece =>
      obtain ⟨kind, gap⟩ := piece
      have inside := (Gap.length_first? found).2
      rw [reading, found]
      refine ⟨.inr ⟨rfl, rfl, gap, Gap.first?_alone found, ?_⟩, (List.take_prefix _ _).isInfix⟩
      exact (List.length_take_of_le inside).symm

/-- What a lexer takes next ends the file or is the same token alone. It is a part of the text, and
the lexer goes on in the same way in what is left. -/
theorem readsAlone_next (fresh : l.peeked = none) :
    (l.next.1.isEnd = true ∨
        l.next.1.ReadsAlone l.language l.keepsTrivia ∧ l.next.1.lexeme <:+: l.rest) ∧
      l.next.2.rest <:+ l.rest ∧ l.next.2.language = l.language ∧
      l.next.2.keepsTrivia = l.keepsTrivia ∧ l.next.2.peeked = none := by
  obtain ⟨taken, suffix, language, fresh'⟩ := next_cases fresh
  have keeps : l.next.2.keepsTrivia = l.keepsTrivia := by
    cases keeps : l.keepsTrivia with
    | true => exact (takesPiece_next keeps fresh).keeps.trans keeps
    | false =>
      simp only [next, fresh, read, keeps, Bool.false_eq_true, if_false]
      exact (keepsTrivia_takeLexeme _).trans keeps
  refine ⟨?_, suffix, language, keeps, fresh'⟩
  rcases taken with comment | whitespace | ends | reads
  · exact .inr (readsAlone_of_isTrivia fresh (by rw [Token.isTrivia, comment]; rfl))
  · exact .inr (readsAlone_of_isTrivia fresh (by rw [Token.isTrivia, whitespace]; rfl))
  · exact .inl (by rw [Token.isEnd, ends]; rfl)
  · obtain ⟨rest, inside, -⟩ := id reads
    exact .inr ⟨readsAlone_of_readsIn _ reads, (List.prefix_append _ _).isInfix.trans inside.isInfix⟩

/-- Every token of a lexer is the same token alone. -/
theorem readsAlone_of_mem_drain (fresh : l.peeked = none) {token : Token} (produced : token ∈ l.drain.1)
    (noEnd : token.isEnd = false) :
    token.ReadsAlone l.language l.keepsTrivia ∧ token.lexeme <:+: l.rest := by
  induction size : l.size using Nat.strongRecOn generalizing l with
  | ind n ih =>
    subst size
    obtain ⟨taken, suffix, language, keeps, fresh'⟩ := readsAlone_next fresh
    have here (same : token = l.next.1) :
        token.ReadsAlone l.language l.keepsTrivia ∧ token.lexeme <:+: l.rest := by
      subst same
      exact taken.resolve_left (by simp [noEnd])
    rw [drain_eq] at produced
    cases isEnd : l.next.1.isEnd with
    | true =>
      rw [isEnd, if_pos rfl, List.mem_singleton] at produced
      exact here produced
    | false =>
      rw [isEnd, if_neg Bool.false_ne_true, List.mem_cons] at produced
      rcases produced with same | later
      · exact here same
      · obtain ⟨alone, inside⟩ := ih _ (size_next_lt isEnd) fresh' later rfl
        rw [language, keeps] at alone
        exact ⟨alone, inside.trans suffix.isInfix⟩

/-- Where no gap starts, a lexer takes a lexeme at once. -/
theorem next_of_not_starts (fresh : l.peeked = none) (bare : Gap.starts l.rest = false) :
    l.next = l.takeLexeme := by
  cases keeps : l.keepsTrivia with
  | true =>
    rw [next, fresh, read, if_pos keeps, takeTrivia?_eq, Gap.first?_of_not_starts bare]
    rfl
  | false =>
    have same : l.skipGap true = l := by
      simp [skipGap, Gap.read_of_not_starts bare]
    simp only [next, fresh, read, keeps, Bool.false_eq_true, if_false, same]

/-- Where nothing is left, the file ends. -/
theorem isEnd_next_of_nil (fresh : l.peeked = none) (nothing : l.rest = []) :
    l.next.1.isEnd = true := by
  have bare : Gap.starts l.rest = false := by
    rw [nothing]
    rfl
  rw [next_of_not_starts fresh bare, takeLexeme, if_pos nothing]
  rfl

/-- A lexer in front of a text that is one token takes it and leaves nothing. -/
theorem next_of_readsAlone {token : Token} (fresh : l.peeked = none) (same : l.rest = token.lexeme)
    (alone : token.ReadsAlone l.language l.keepsTrivia) :
    l.next.1.kind = token.kind ∧ l.next.1.lexeme = token.lexeme ∧ l.next.1.error = token.error ∧
      l.next.2.rest = [] ∧ l.next.2.peeked = none := by
  rcases alone with ⟨nonempty, bare, reads⟩ | ⟨keeps, noError, gap, found, length⟩
  · have taken : l.next = l.take token.kind token.lexeme.length token.error := by
      rw [next_of_not_starts fresh (by rw [same]; exact bare), takeLexeme,
        if_neg (by rw [same]; exact nonempty)]
      simp only [same, reads]
    rw [taken]
    refine ⟨rfl, ?_, rfl, ?_, fresh⟩
    · simp only [take, same, List.take_length]
    · simp only [take, same, List.drop_length]
  · rw [next, fresh, read, if_pos keeps, takeTrivia?_eq, same, found]
    refine ⟨rfl, ?_, noError.symm, ?_, fresh⟩
    · simp only [take, same, length, Option.map_some, Option.getD_some, List.take_length]
    · simp only [take, same, length, Option.map_some, Option.getD_some, List.drop_length]

end Lexer

/-- Lexemes are read again as they were read: unless it holds a line join or starts with a byte-order
mark, the lexeme of a token is a source of one token, of the same kind, lexeme and error. -/
theorem Lexer.tokenize_lexeme {raw name : Text} {trigraphs : Bool} {source : Source}
    (made : Source.ofBytes raw name trigraphs = .ok source) {file : FileRef} {language : Language}
    {keepsTrivia : Bool} {token : Token}
    (produced : token ∈ (ofSource source file language keepsTrivia).tokenize.1)
    (noEnd : token.isEnd = false) (noJoin : ¬ ['\\', '\n'] <:+: token.lexeme)
    (noMark : ¬ Encoding.HasMark token.lexeme) (name' : Text) (file' : FileRef) :
    ∃ source', Source.ofBytes token.lexeme name' false = .ok source' ∧
      ∃ alone final, (ofSource source' file' language keepsTrivia).tokenize.1 = [alone, final] ∧
        final.isEnd = true ∧ alone.kind = token.kind ∧ alone.lexeme = token.lexeme ∧
        alone.error = token.error := by
  obtain ⟨alone, inside⟩ := readsAlone_of_mem_drain (l := ofSource source file language keepsTrivia)
    rfl produced noEnd
  have plain : token.lexeme.IsPlain :=
    ⟨fun present => Source.return_notMem_text made (inside.subset present), noJoin⟩
  refine ⟨Source.ofDecoded false token.lexeme, ?_, ?_⟩
  · rw [Source.ofBytes, Encoding.decode_of_not_hasMark noMark]
  · generalize start : ofSource (Source.ofDecoded false token.lexeme) file' language keepsTrivia = l
    have fresh : l.peeked = none := by rw [← start]; rfl
    have rest : l.rest = token.lexeme := by
      rw [← start]
      exact Source.text_ofDecoded_plain plain
    have alone' : token.ReadsAlone l.language l.keepsTrivia := by
      rw [← start]
      exact alone
    obtain ⟨kind, lexeme, error, nothing, fresh'⟩ := next_of_readsAlone fresh rest alone'
    have more : l.next.1.isEnd = false := by
      rw [Token.isEnd, kind]
      exact noEnd
    have ends := isEnd_next_of_nil fresh' nothing
    have reset : l.reset = l := by
      rw [← start]
      rfl
    refine ⟨l.next.1, l.next.2.next.1, ?_, ends, kind, lexeme, error⟩
    rw [tokenize, reset, drain_eq, more, if_neg Bool.false_ne_true, drain_eq l.next.2, if_pos ends]

/-- A literal that a line end breaks off, with an escape sequence that is none. -/
def brokenLiteral : Token where
  kind := .character
  lexeme := "'a\\q".toList
  atLineStart := true
  error := some .unterminatedChar

/-- A literal that a line end breaks off is the same literal alone. -/
theorem Lexer.tokenize_lexeme_brokenLiteral :
    ∃ source', Source.ofBytes brokenLiteral.lexeme [] false = .ok source' ∧
      ∃ alone final, (ofSource source' .unknown .standard true).tokenize.1 = [alone, final] ∧
        final.isEnd = true ∧ alone.kind = .character ∧ alone.lexeme = "'a\\q".toList ∧
        alone.error = some .unterminatedChar := by
  have made : Source.ofBytes "'a\\q\nx".toList [] false =
      .ok (Source.ofDecoded false "'a\\q\nx".toList) := rfl
  have produced : brokenLiteral ∈
      (ofSource (Source.ofDecoded false "'a\\q\nx".toList) .unknown .standard true).tokenize.1 := by
    decide +kernel
  have noMark : ¬ Encoding.HasMark brokenLiteral.lexeme := by
    unfold Encoding.HasMark
    decide
  exact tokenize_lexeme made produced rfl (by decide) noMark [] .unknown

end CPreprocessor
