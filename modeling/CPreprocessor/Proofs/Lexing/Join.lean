/-
# Joined tokens

Tokens that a lexer can give are written as one line of text and read again. The
writer looks at two neighbours at a time, and for two neighbours its judgement is
exact (`needSeparator_eq_false_iff`). Two neighbours are not enough for points: three
of them are one punctuator although two are not. `tokenize_join_iff` says that this is
the only way in which the text does not read as the tokens.
-/
import CPreprocessor.Proofs.Lexing.Adjacency
import CPreprocessor.Proofs.Source.Plain

namespace CPreprocessor

open Lexeme

/-- A lexer for the default language gives the word for some bytes and finds nothing wrong with its
spelling. -/
def IsProducible (word : TokenKind × Text) : Prop :=
  ∃ raw name trigraphs source file keepsTrivia token, Text.IsBytes raw ∧
    Source.ofBytes raw name trigraphs = .ok source ∧
    token ∈ (Lexer.ofSource source file .standard keepsTrivia).tokenize.1 ∧
    token.error = none ∧ token.word = word

/-- A token that can be written as text: a lexer can give it, it is neither white space nor an end
of file, and as a source of its own its lexeme would not be changed. -/
structure Token.IsWritable (token : Token) : Prop where
  producible : IsProducible token.word
  noComment : token.kind ≠ .comment
  noWhitespace : token.kind ≠ .whitespace
  noEnd : token.kind ≠ .endOfFile
  noLineJoin : ¬ ['\\', '\n'] <:+: token.lexeme
  noMark : ¬ Encoding.HasMark token.lexeme

/-- A list starts with two points and what starts with a third one, without white space between
them. Only `...` is told apart from a third point. -/
def PointsStart : List Token → Prop
  | first :: second :: third :: _ =>
    first.lexeme = ['.'] ∧ second.lexeme = ['.'] ∧ Text.first third.lexeme = '.' ∧
      third.lexeme ≠ ['.', '.', '.'] ∧ second.afterSpace = false ∧ third.afterSpace = false
  | _ => False

/-- Somewhere in a list three points meet. -/
def PointsMeet : List Token → Prop
  | [] => False
  | token :: tokens => PointsStart (token :: tokens) ∨ PointsMeet tokens

/-! ## Writable tokens -/

namespace Token.IsWritable

variable {token : Token}

/-- A writable token is read somewhere in the logical characters of some bytes. -/
theorem exists_source (writable : token.IsWritable) :
    IsLexeme token.kind token.lexeme ∧ Text.IsBytes token.lexeme ∧ '\r' ∉ token.lexeme := by
  obtain ⟨⟨raw, name, trigraphs, source, file, keepsTrivia, produced, areBytes, made, given, noError,
    word⟩, noComment, noWhitespace, noEnd, -, -⟩ := writable
  have sameKind : produced.kind = token.kind := congrArg Prod.fst word
  have sameLexeme : produced.lexeme = token.lexeme := congrArg Prod.snd word
  rw [← sameKind] at noComment noWhitespace noEnd
  rw [← sameKind, ← sameLexeme]
  obtain ⟨rest, inside, nonempty, bare, reads⟩ :=
    Lexer.readsIn_of_mem_drain (l := (Lexer.ofSource source file .standard keepsTrivia).reset) rfl
      given noComment noWhitespace noEnd
  rw [noError] at reads
  obtain ⟨sourceBytes, noReturn⟩ := Source.mem_text_ofBytes areBytes made
  have part : ∀ c ∈ produced.lexeme, c ∈ source.text := fun c present =>
    inside.subset (List.mem_append_left _ present)
  exact ⟨⟨nonempty, rest, bare, reads⟩, fun c present => sourceBytes c (part c present),
    fun present => noReturn (part _ present)⟩

theorem isLexeme (writable : token.IsWritable) : IsLexeme token.kind token.lexeme :=
  writable.exists_source.1

theorem nonempty (writable : token.IsWritable) : token.lexeme ≠ [] :=
  writable.isLexeme.nonempty

theorem isEnd (writable : token.IsWritable) : token.isEnd = false :=
  beq_false_of_ne writable.noEnd

/-- No lexeme starts with a line feed. -/
theorem first_ne (writable : token.IsWritable) : Text.first token.lexeme ≠ '\n' := by
  intro lineFeed
  obtain ⟨nonempty, rest, bare, -⟩ := writable.isLexeme
  rw [Gap.starts, Text.first_append nonempty, lineFeed] at bare
  cases bare

end Token.IsWritable

/-! ## Texts that are their own sources -/

theorem not_lineJoin_append {a b : Text} (left : ¬ ['\\', '\n'] <:+: a) (right : ¬ ['\\', '\n'] <:+: b)
    (boundary : a.getLast? ≠ some '\\' ∨ Text.first b ≠ '\n') : ¬ ['\\', '\n'] <:+: a ++ b := by
  induction a with
  | nil => exact right
  | cons c a ih =>
      rw [List.cons_append, List.infix_cons_iff]
      rintro (start | later)
      · obtain ⟨rest, same⟩ := start
        rw [List.cons_append, List.cons.injEq] at same
        obtain ⟨rfl, same⟩ := same
        cases a with
        | nil =>
            rw [List.nil_append] at same
            exact boundary.elim (fun last => last rfl) fun first => first (by rw [← same]; rfl)
        | cons d a =>
            rw [List.cons_append, List.cons_append, List.cons.injEq] at same
            exact left ⟨[], a, by rw [← same.1]; rfl⟩
      · refine ih (fun inside => left (inside.trans (List.suffix_cons c a).isInfix)) ?_ later
        refine boundary.imp_left fun last same => last ?_
        rw [List.getLast?_cons, same]
        rfl

/-- A text is read as the words of its source. -/
theorem words_of_tokenize {raw : Text} {file : Option FileRef} {language : Language}
    {tokens : List Token} (read : tokenize raw file language = .ok tokens) :
    ∃ decoded, Encoding.decode raw = .ok decoded ∧
      tokens.map Token.word =
        words language ((Normalization.characters false {} decoded).1.map Prod.fst) ++
          [(.endOfFile, [])] := by
  rw [tokenize, Source.ofBytes] at read
  cases decoded : Encoding.decode raw with
  | error cause =>
      rw [decoded] at read
      cases read
  | ok text =>
      rw [decoded] at read
      cases read
      exact ⟨text, rfl, Lexer.map_word_drain rfl rfl⟩

/-- A text without carriage returns, line joins and byte-order marks is read as its words. -/
theorem exists_tokenize {text : Text} (noReturn : '\r' ∉ text) (noLineJoin : ¬ ['\\', '\n'] <:+: text)
    (noMark : ¬ Encoding.HasMark text) (file : Option FileRef) (language : Language) :
    ∃ tokens, tokenize text file language = .ok tokens ∧
      tokens.map Token.word = words language text ++ [(.endOfFile, [])] := by
  have decoded := Encoding.decode_of_not_hasMark noMark
  have made : ∃ tokens, tokenize text file language = .ok tokens := by
    simp only [tokenize, Source.ofBytes, decoded]
    exact ⟨_, rfl⟩
  obtain ⟨tokens, read⟩ := made
  obtain ⟨same, decodedAgain, isWords⟩ := words_of_tokenize read
  rw [decoded] at decodedAgain
  cases decodedAgain
  rw [Normalization.characters_plain noReturn noLineJoin] at isWords
  exact ⟨tokens, read, isWords⟩

/-- What is read without errors at the start of such a text is producible. -/
theorem isProducible_of_read {text : Text} (areBytes : text.IsBytes) (noReturn : '\r' ∉ text)
    (noLineJoin : ¬ ['\\', '\n'] <:+: text) (noMark : ¬ Encoding.HasMark text) (nonempty : text ≠ [])
    (bare : Gap.starts text = false) (noError : (read .standard text).error = none) :
    IsProducible ((read .standard text).kind, text.take (read .standard text).length) := by
  have same : (Source.ofDecoded false text).text = text :=
    Normalization.characters_plain noReturn noLineJoin
  have made : Source.ofBytes text [] false = .ok (Source.ofDecoded false text) := by
    rw [Source.ofBytes, Encoding.decode_of_not_hasMark noMark]
  have noGap : text = (Source.ofDecoded false text).text.drop
      (Gap.read true (Source.ofDecoded false text).text).length := by
    rw [same, Gap.read_of_not_starts bare]
    rfl
  let lexer := Lexer.ofSource (Source.ofDecoded false text) .unknown .standard false
  obtain ⟨word, error, -⟩ := Lexer.next_of_more (l := lexer) rfl rfl noGap nonempty
  refine ⟨text, [], false, _, .unknown, false, lexer.next.1, areBytes, made, ?_, ?_, word⟩
  · show lexer.next.1 ∈ lexer.drain.1
    rw [Lexer.drain_eq]
    split_ifs
    · exact List.mem_singleton_self _
    · exact List.mem_cons_self
  · rw [error]
    exact noError

/-- A mark that a lexeme does not have is completed by the text after it only if that text goes on
with a name. -/
theorem isIdentifierChar_of_hasMark {kind : TokenKind} {w rest : Text} (lexeme : IsLexeme kind w)
    (noMark : ¬ Encoding.HasMark w) (mark : Encoding.HasMark (w ++ rest)) :
    (kind = .keyword ∨ kind = .identifier) ∧ Text.isIdentifierChar (Text.first rest) = true := by
  have completes {m : Text} (areHigh : m.all (fun c => 128 ≤ c.toNat) = true) (isPrefix : m <+: w ++ rest)
      (missing : ¬ m <+: w) : 128 ≤ (Text.first w).toNat ∧ 128 ≤ (Text.first rest).toNat := by
    by_cases short : m.length ≤ w.length
    · exact (missing (List.prefix_of_prefix_length_le isPrefix (List.prefix_append _ _) short)).elim
    · obtain ⟨more, rfl⟩ : w <+: m :=
        List.prefix_of_prefix_length_le (List.prefix_append _ _) isPrefix (by omega)
      obtain ⟨after, rfl⟩ := (List.prefix_append_right_inj _).mp isPrefix
      cases w with
      | nil => exact (lexeme.nonempty rfl).elim
      | cons c w =>
          cases more with
          | nil => simp at short
          | cons d more =>
              have high := List.all_eq_true.mp areHigh
              exact ⟨of_decide_eq_true (high c (by simp)), of_decide_eq_true (high d (by simp))⟩
  have high : 128 ≤ (Text.first w).toNat ∧ 128 ≤ (Text.first rest).toNat := by
    rcases mark with utf8 | little | big
    · exact completes (by decide) utf8 fun inside => noMark (.inl inside)
    · exact completes (by decide) little fun inside => noMark (.inr (.inl inside))
    · exact completes (by decide) big fun inside => noMark (.inr (.inr inside))
  refine ⟨?_, Text.isIdentifierChar_of_isIdentifierStart
    (Text.isIdentifierStart_iff.mpr (.inr (.inr (.inr high.2))))⟩
  obtain ⟨nonempty, before, -, reads⟩ := lexeme
  have start : 128 ≤ (Text.first (w ++ before)).toNat := by
    rw [Text.first_append nonempty]
    exact high.1
  rcases read_cases .standard (w ++ before) with
    ⟨number, -⟩ | ⟨opening, opens, -⟩ | ⟨-, starts, same⟩ | ⟨-, -, noName, -⟩
  · rcases first_of_startsNumber number with digit | point
    · have range := Text.isDigit_iff.mp digit
      omega
    · rw [point] at start
      exact absurd start (by decide)
  · have low : ['u', 'U', 'L', 'R', '"', '\''].all (fun c => c.toNat < 128) = true := by decide
    have below := of_decide_eq_true (List.all_eq_true.mp low _ (first_mem_of_opening? opens))
    omega
  · rw [same] at reads
    obtain ⟨-, -, -, -, -, -, isName⟩ := exists_name starts reads
    split_ifs at isName
    · exact .inl isName
    · exact .inr isName
  · rw [Text.isIdentifierStart_iff.mpr (.inr (.inr (.inr start)))] at noName
    cases noName

/-! ## Two neighbours -/

/-- The lexemes of tokens that read as some words and the end of the file. -/
theorem dropLast_map_lexeme {tokens : List Token} {others : List (TokenKind × Text)}
    (same : tokens.map Token.word = others ++ [(.endOfFile, [])]) :
    (tokens.map Token.lexeme).dropLast = others.map Prod.snd := by
  have lexemes : tokens.map Token.lexeme = (tokens.map Token.word).map Prod.snd := by
    rw [List.map_map]
    rfl
  rw [lexemes, same, List.map_append, List.map_cons, List.map_nil, List.dropLast_concat]

section Neighbours

variable {left right : Token}

theorem not_hasMark_append (leftWritable : left.IsWritable) {rest : Text}
    (ends : Ends .standard left.kind left.lexeme rest) :
    ¬ Encoding.HasMark (left.lexeme ++ rest) := by
  intro mark
  obtain ⟨isName, goesOn⟩ :=
    isIdentifierChar_of_hasMark leftWritable.isLexeme leftWritable.noMark mark
  have nameEnds : NameEnds left.lexeme rest := by
    rcases isName with same | same <;> rw [same] at ends <;> exact ends
  rw [nameEnds.2] at goesOn
  cases goesOn

variable (leftWritable : left.IsWritable) (rightWritable : right.IsWritable)

include leftWritable rightWritable

/-- Two lexemes that form a mark are not read as themselves. -/
theorem lexemes_ne_of_hasMark (mark : Encoding.HasMark (left.lexeme ++ right.lexeme))
    {tokens : List Token}
    (read : tokenize (left.lexeme ++ right.lexeme) none .standard = .ok tokens) :
    (tokens.map Token.lexeme).dropLast ≠ [left.lexeme, right.lexeme] := by
  obtain ⟨decoded, isDecoded, same⟩ := words_of_tokenize read
  rw [dropLast_map_lexeme same]
  intro lexemes
  have areBytes : Text.IsBytes (left.lexeme ++ right.lexeme) := fun c present =>
    (List.mem_append.mp present).elim (leftWritable.exists_source.2.1 c)
      (rightWritable.exists_source.2.1 c)
  rcases mark with utf8 | utf16
  · -- Without the mark there are not enough characters left for both lexemes.
    rw [Encoding.decode_of_utf8_mark utf8, Except.ok.injEq] at isDecoded
    have room := length_flatMap_words_le .standard
      ((Normalization.characters false {} decoded).1.map Prod.fst)
    have short := Normalization.length_characters_le false {} decoded
    have three := utf8.length_le
    subst isDecoded
    rw [List.flatMap_def, lexemes, List.length_map] at room
    rw [List.length_drop] at short
    simp only [List.flatten_cons, List.flatten_nil, List.append_nil, List.length_append,
      List.length_cons, List.length_nil] at room short three
    omega
  · -- A text that was UTF-16 does not hold the first byte of the mark.
    have first : Text.first left.lexeme = '\xff' ∨ Text.first left.lexeme = '\xfe' := by
      rw [← Text.first_append leftWritable.nonempty right.lexeme]
      rcases utf16 with ⟨rest, whole⟩ | ⟨rest, whole⟩
      · exact .inl (by rw [← whole]; rfl)
      · exact .inr (by rw [← whole]; rfl)
    obtain ⟨word, isWord, isLeft⟩ := List.mem_map.mp
      (show left.lexeme ∈ (words .standard _).map Prod.snd by rw [lexemes]; exact List.mem_cons_self)
    have inside : Text.first left.lexeme ∈ word.2 := by
      rw [isLeft]
      cases whole : left.lexeme with
      | nil => exact (leftWritable.nonempty whole).elim
      | cons c rest => exact List.mem_cons_self
    have present := (Normalization.mem_characters _ (mem_of_mem_words isWord inside)).2
    have below : (Text.first left.lexeme).toNat < 0xf8 := by
      rcases present with decodedByte | lineFeed | ⟨on, -⟩
      · exact Encoding.decode_lt areBytes utf16 isDecoded _ decodedByte
      · rw [lineFeed]
        decide
      · cases on
    rcases first with same | same <;> rw [same] at below <;> exact absurd below (by decide)

/-- The words of two lexemes are the lexemes exactly if the left one ends before the right one. -/
theorem lexemes_words_append :
    (words .standard (left.lexeme ++ right.lexeme)).map Prod.snd = [left.lexeme, right.lexeme] ↔
      Gap.starts (left.lexeme ++ right.lexeme) = false ∧
        Ends .standard left.kind left.lexeme right.lexeme := by
  constructor
  · intro lexemes
    cases start : words .standard (left.lexeme ++ right.lexeme) with
    | nil => rw [start] at lexemes; cases lexemes
    | cons word others =>
        rw [start, List.map_cons, List.cons.injEq] at lexemes
        obtain ⟨isLeft, areOthers⟩ := lexemes
        obtain ⟨bare, afterGap, more, rfl, rest⟩ := words_eq_cons start
        simp only at isLeft
        have room := length_flatMap_words_le .standard
          (bare.drop (read .standard bare).length)
        have leftLength := congrArg List.length isLeft
        have rightPositive := List.length_pos_iff.mpr rightWritable.nonempty
        have gapLength := congrArg List.length afterGap
        rw [rest, List.flatMap_def, areOthers, List.length_drop] at room
        rw [List.length_take] at leftLength
        rw [List.length_drop, List.length_append] at gapLength
        rw [List.flatten_cons, List.flatten_nil, List.append_nil] at room
        have noGap : (Gap.read true (left.lexeme ++ right.lexeme)).length = 0 := by omega
        rw [noGap, List.drop_zero] at afterGap
        subst afterGap
        obtain ⟨-, before, -, reads⟩ := leftWritable.isLexeme
        exact ⟨Gap.not_starts_of_length noGap, ends_of_length_read reads (by omega)⟩
  · rintro ⟨bare, ends⟩
    have rightWords : words .standard right.lexeme = [(right.kind, right.lexeme)] := by
      have bareRight : Gap.starts (right.lexeme ++ []) = false := by
        rw [Bool.eq_false_iff]
        intro gap
        rcases (rightWritable.isLexeme.starts_append gap).2 with same | same <;> cases same
      have single := (rightWritable.isLexeme.words_append bareRight).mpr
        ⟨rightWritable.isLexeme.ends_nil, words_nil .standard⟩
      rw [List.append_nil] at single
      exact single
    rw [(leftWritable.isLexeme.words_append bare).mpr ⟨ends, rightWords⟩]
    rfl

/-- A bracket, a semicolon or a comma on either side of the boundary keeps two lexemes apart. -/
theorem ends_of_isDetached_neighbour
    (detached : Text.isDetached (left.lexeme.getLastD Text.nul) = true ∨
      Text.isDetached (Text.first right.lexeme) = true) :
    Gap.starts (left.lexeme ++ right.lexeme) = false ∧
      Ends .standard left.kind left.lexeme right.lexeme := by
  constructor
  · rw [Bool.eq_false_iff]
    intro gap
    obtain ⟨slash, second⟩ := leftWritable.isLexeme.starts_append gap
    rcases detached with last | first
    · rw [slash] at last
      cases last
    · rcases second with same | same <;> rw [same] at first <;> cases first
  · rcases detached with last | first
    · exact leftWritable.isLexeme.ends_of_isDetached_getLastD last _
    · cases whole : right.lexeme with
      | nil => exact (rightWritable.nonempty whole).elim
      | cons c rest =>
          rw [whole] at first
          exact leftWritable.isLexeme.ends_of_isDetached first rest

/-- Two lexemes are written without a separator exactly if the left one ends before the right one
and both do not start a comment. -/
theorem needSeparator_eq_false_iff :
    Spelling.needSeparator left.lexeme right.lexeme = false ↔
      Gap.starts (left.lexeme ++ right.lexeme) = false ∧
        Ends .standard left.kind left.lexeme right.lexeme := by
  rw [Spelling.needSeparator, if_neg (by simp [leftWritable.nonempty, rightWritable.nonempty])]
  split_ifs with closed
  · have detached := closed
    rw [Bool.or_eq_true] at detached
    have both := ends_of_isDetached_neighbour leftWritable rightWritable
      (detached.imp (by intro last; rw [Text.isDetached, last, Bool.or_true])
        (by intro first; rw [Text.isDetached, first, Bool.or_true]))
    exact ⟨fun _ => both, fun _ => rfl⟩
  · by_cases mark : Encoding.HasMark (left.lexeme ++ right.lexeme)
    · have merges : ¬ Ends .standard left.kind left.lexeme right.lexeme :=
        fun ends => not_hasMark_append leftWritable ends mark
      cases read : tokenize (left.lexeme ++ right.lexeme) none .standard with
      | error cause =>
          exact ⟨fun joined => (by cases joined), fun both => (merges both.2).elim⟩
      | ok tokens =>
          have different := lexemes_ne_of_hasMark leftWritable rightWritable mark read
          simp only [decide_eq_false_iff_not, not_not]
          exact ⟨fun same => (different same).elim, fun both => (merges both.2).elim⟩
    · have noReturn : '\r' ∉ left.lexeme ++ right.lexeme := by
        rw [List.mem_append, not_or]
        exact ⟨leftWritable.exists_source.2.2, rightWritable.exists_source.2.2⟩
      have noLineJoin := not_lineJoin_append leftWritable.noLineJoin rightWritable.noLineJoin
        (.inr rightWritable.first_ne)
      obtain ⟨tokens, read, same⟩ := exists_tokenize noReturn noLineJoin mark none .standard
      simp only [read, decide_eq_false_iff_not, not_not]
      rw [dropLast_map_lexeme same]
      exact lexemes_words_append leftWritable rightWritable

end Neighbours

/-! ## Points -/

/-- The only punctuator that starts with two points is three points. -/
theorem eq_points_of_mem {rest : Text} (known : '.' :: '.' :: rest ∈ Language.standard.punctuators) :
    rest = ['.'] := by
  have all : Language.standard.punctuators.all (fun p =>
      !(['.', '.'].isPrefixOf p) || p == ['.', '.', '.']) = true := by
    decide
  have one := List.all_eq_true.mp all _ known
  simpa using one

theorem opening?_point (rest : Text) : Literal.opening? ('.' :: rest) = none :=
  Option.eq_none_iff_forall_ne_some.mpr fun _ opens =>
    absurd (first_mem_of_opening? opens) (by simp)

/-- A lexeme that starts with two points is three points. -/
theorem eq_points_of_isLexeme {kind : TokenKind} {rest : Text}
    (lexeme : IsLexeme kind ('.' :: '.' :: rest)) : rest = ['.'] := by
  obtain ⟨-, before, -, reads⟩ := lexeme
  rw [List.cons_append, read_punctuator .standard rfl (opening?_point _) rfl,
    ← List.cons_append, Lexeme.mk.injEq] at reads
  rcases exists_punctuator reads.2.1 with known | ⟨c, single⟩
  · exact eq_points_of_mem known
  · simp at single

/-- A point is read as a punctuator. -/
theorem kind_point {kind : TokenKind} (lexeme : IsLexeme kind ['.']) : kind = .punctuator := by
  obtain ⟨-, before, -, reads⟩ := lexeme
  rcases read_cases .standard (['.'] ++ before) with
    ⟨number, same⟩ | ⟨opening, opens, -⟩ | ⟨-, starts, -⟩ | ⟨-, -, -, same⟩
  · rw [same] at reads
    obtain ⟨c, tail, whole, ends, -, -⟩ := exists_numberTail reads
    rw [whole] at number
    have alone := startsNumber_append number ends []
    rw [← whole] at alone
    cases alone
  · rw [List.singleton_append, opening?_point] at opens
    cases opens
  · cases starts
  · rw [same, Lexeme.mk.injEq] at reads
    exact reads.1.symm

/-- A point is written before a lexeme that starts with one without a separator, unless that is
`...`. -/
theorem needSeparator_point {point token : Token} (pointWritable : point.IsWritable)
    (isPoint : point.lexeme = ['.']) (writable : token.IsWritable)
    (starts : Text.first token.lexeme = '.') :
    Spelling.needSeparator point.lexeme token.lexeme = false ↔ token.lexeme ≠ ['.', '.', '.'] := by
  have lexeme := writable.isLexeme
  have pointLexeme := pointWritable.isLexeme
  rw [needSeparator_eq_false_iff pointWritable writable]
  rw [isPoint] at pointLexeme ⊢
  cases whole : token.lexeme with
  | nil => exact (lexeme.nonempty whole).elim
  | cons c rest =>
      rw [whole] at lexeme starts
      obtain rfl : c = '.' := starts
      constructor
      · rintro ⟨-, ends⟩ points
        rw [points] at ends
        exact pointLexeme.not_ends_points ['.'] ends
      · intro noPoints
        refine ⟨rfl, ?_⟩
        rw [kind_point pointLexeme]
        refine ⟨fun p known isPrefix => ?_, fun _ => rfl⟩
        by_contra longer
        match p, isPrefix with
        | [], _ => simp at longer
        | [_], _ => simp at longer
        | first :: second :: more, isPrefix =>
            simp only [List.singleton_append, List.cons_prefix_cons] at isPrefix
            obtain ⟨rfl, rfl, inside⟩ := isPrefix
            obtain rfl := eq_points_of_mem known
            obtain ⟨after, rfl⟩ := inside
            obtain rfl : after = ['.'] := eq_points_of_isLexeme lexeme
            exact noPoints rfl

/-! ## The text of joined tokens -/

/-- What is written between a token and the next one. -/
def gapAfter (token : Token) : List Token → Text
  | [] => []
  | next :: _ =>
    if next.afterSpace || Spelling.needSeparator token.lexeme next.lexeme then [' '] else []

theorem join_cons {token : Token} {tokens : List Token} (writable : ∀ t ∈ token :: tokens, t.IsWritable) :
    Spelling.join (token :: tokens) = token.lexeme ++ (gapAfter token tokens ++ Spelling.join tokens) := by
  have after (token next : Token) (rest : List Token) (noEnd : next.isEnd = false) :
      Spelling.joinAfter token (next :: rest) =
        gapAfter token (next :: rest) ++ (next.lexeme ++ Spelling.joinAfter next rest) := by
    rw [Spelling.joinAfter, noEnd, if_neg Bool.false_ne_true, gapAfter, List.append_assoc]
  rw [Spelling.join, (writable token List.mem_cons_self).isEnd, if_neg Bool.false_ne_true]
  cases tokens with
  | nil => rfl
  | cons next rest =>
      have noEnd := (writable next (by simp)).isEnd
      rw [after token next rest noEnd, Spelling.join, noEnd, if_neg Bool.false_ne_true]

theorem words_gapAfter (token : Token) (tokens : List Token) (text : Text) :
    words .standard (gapAfter token tokens ++ text) = words .standard text := by
  cases tokens with
  | nil => rfl
  | cons next rest =>
      rw [gapAfter]
      split_ifs
      · exact words_blank .standard text
      · rfl

section Line

variable {token : Token} {tokens : List Token} (writable : ∀ t ∈ token :: tokens, t.IsWritable)

include writable

/-- A gap stands before the next token, or the token ends before it. -/
theorem gapAfter_cases {next : Token} {rest : List Token} (same : tokens = next :: rest) :
    gapAfter token tokens = [' '] ∨
      gapAfter token tokens = [] ∧ next.afterSpace = false ∧
        Spelling.needSeparator token.lexeme next.lexeme = false ∧
        Gap.starts (token.lexeme ++ next.lexeme) = false ∧
        Ends .standard token.kind token.lexeme next.lexeme := by
  subst same
  cases space : next.afterSpace || Spelling.needSeparator token.lexeme next.lexeme with
  | true => exact .inl (by rw [gapAfter, space, if_pos rfl])
  | false =>
      rw [Bool.or_eq_false_iff] at space
      have apart := (needSeparator_eq_false_iff (writable token (by simp))
        (writable next (by simp))).mp space.2
      exact .inr ⟨by rw [gapAfter, space.1, space.2]; rfl, space.1, space.2, apart⟩

/-- No comment starts with a token on the line. -/
theorem starts_append_join :
    Gap.starts (token.lexeme ++ (gapAfter token tokens ++ Spelling.join tokens)) = false := by
  have lexeme := (writable token List.mem_cons_self).isLexeme
  rw [Bool.eq_false_iff]
  intro gap
  obtain ⟨slash, second⟩ := lexeme.starts_append gap
  cases same : tokens with
  | nil =>
      rw [same] at second
      rcases second with same | same <;> cases same
  | cons next rest =>
      have nextNonempty := (writable next (by simp [same])).nonempty
      rcases gapAfter_cases writable same with blank | ⟨none, -, -, bare, -⟩
      · rw [blank] at second
        rcases second with same | same <;> cases same
      · have others : ∀ t ∈ next :: rest, t.IsWritable := fun t present =>
          writable t (List.mem_cons_of_mem _ (same ▸ present))
        rw [none, List.nil_append, same, join_cons others, Text.first_append nextNonempty] at second
        rw [slash] at bare
        rcases second with same | same <;> simp [Gap.starts, same] at bare

/-- Three points that meet are written without anything between them. -/
theorem gapAfter_eq_nil {next : Token} {rest : List Token} (same : tokens = next :: rest)
    (point : token.lexeme = ['.']) (starts : Text.first next.lexeme = '.')
    (noPoints : next.lexeme ≠ ['.', '.', '.']) (noSpace : next.afterSpace = false) :
    gapAfter token tokens = [] := by
  subst same
  have noSeparator := (needSeparator_point (writable token (by simp)) point (writable next (by simp))
    starts).mpr noPoints
  rw [gapAfter, noSpace, noSeparator]
  rfl

/-- A token ends before the rest of the line exactly if no three points start with it, provided that
the rest of the line is read as its tokens. -/
theorem ends_join_iff (rest : words .standard (Spelling.join tokens) = tokens.map Token.word) :
    Ends .standard token.kind token.lexeme (gapAfter token tokens ++ Spelling.join tokens) ↔
      ¬ PointsStart (token :: tokens) := by
  have lexeme := (writable token List.mem_cons_self).isLexeme
  match tokens with
  | [] => exact ⟨fun _ => id, fun _ => lexeme.ends_nil⟩
  | next :: others =>
      have nextLexeme := (writable next (by simp)).isLexeme
      have othersWritable : ∀ t ∈ next :: others, t.IsWritable := fun t present =>
        writable t (List.mem_cons_of_mem _ present)
      constructor
      · intro ends points
        match others, points with
        | third :: last, ⟨isPoint, nextPoint, thirdStarts, noPoints, nextSpace, thirdSpace⟩ =>
            have thirdWritable := othersWritable third (by simp)
            have lastWritable : ∀ t ∈ third :: last, t.IsWritable := fun t present =>
              othersWritable t (List.mem_cons_of_mem _ present)
            rw [gapAfter_eq_nil writable rfl isPoint (by rw [nextPoint]; rfl)
                (by rw [nextPoint]; decide) nextSpace,
              List.nil_append, join_cons othersWritable,
              gapAfter_eq_nil othersWritable rfl nextPoint thirdStarts noPoints thirdSpace,
              List.nil_append, join_cons lastWritable, nextPoint, isPoint] at ends
            rw [isPoint] at lexeme
            cases whole : third.lexeme with
            | nil => exact thirdWritable.nonempty whole
            | cons c tail =>
                rw [whole] at thirdStarts ends
                obtain rfl : c = '.' := thirdStarts
                exact lexeme.not_ends_points _ ends
      · intro noPoints
        rcases gapAfter_cases writable rfl with blank | ⟨none, noSpace, -, -, ends⟩
        · rw [blank]
          exact lexeme.ends_of_isDetached rfl _
        · rw [none, List.nil_append, join_cons othersWritable]
          rw [join_cons othersWritable, List.map_cons] at rest
          have after := ((nextLexeme.words_append (starts_append_join othersWritable)).mp rest).1
          rcases lexeme.ends_append nextLexeme ends after with ⟨isPoint, nextPoint, third⟩ | endsAll
          · exfalso
            match others with
            | [] => cases third
            | third' :: last =>
                have thirdWritable := othersWritable third' (by simp)
                have lastWritable : ∀ t ∈ third' :: last, t.IsWritable := fun t present =>
                  othersWritable t (List.mem_cons_of_mem _ present)
                rcases gapAfter_cases othersWritable rfl with
                  blank | ⟨nothing, thirdSpace, noSeparator, -, -⟩
                · rw [blank] at third
                  cases third
                · rw [nothing, List.nil_append, join_cons lastWritable,
                    Text.first_append thirdWritable.nonempty] at third
                  have different := (needSeparator_point (othersWritable next (by simp)) nextPoint
                    thirdWritable third).mp noSeparator
                  exact noPoints ⟨isPoint, nextPoint, third, different, noSpace, thirdSpace⟩
          · exact endsAll

end Line

/-- The words of joined tokens are the tokens exactly if no points meet. -/
theorem words_join_iff {tokens : List Token} (writable : ∀ t ∈ tokens, t.IsWritable) :
    words .standard (Spelling.join tokens) = tokens.map Token.word ↔ ¬ PointsMeet tokens := by
  induction tokens with
  | nil => simp [Spelling.join, words_nil, PointsMeet]
  | cons token tokens ih =>
      have others : ∀ t ∈ tokens, t.IsWritable := fun t present =>
        writable t (List.mem_cons_of_mem _ present)
      have lexeme := (writable token List.mem_cons_self).isLexeme
      rw [join_cons writable, List.map_cons, Token.word,
        lexeme.words_append (starts_append_join writable), words_gapAfter, PointsMeet, not_or,
        ← ih others]
      constructor
      · rintro ⟨ends, rest⟩
        exact ⟨(ends_join_iff writable rest).mp ends, rest⟩
      · rintro ⟨noPoints, rest⟩
        exact ⟨(ends_join_iff writable rest).mpr noPoints, rest⟩

/-! ## Reading joined tokens again -/

/-- Joined tokens hold no carriage return and no line join. -/
theorem join_plain {tokens : List Token} (writable : ∀ t ∈ tokens, t.IsWritable) :
    '\r' ∉ Spelling.join tokens ∧ ¬ ['\\', '\n'] <:+: Spelling.join tokens ∧
      Text.first (Spelling.join tokens) ≠ '\n' := by
  induction tokens with
  | nil => exact ⟨nofun, by simp [Spelling.join], by decide⟩
  | cons token tokens ih =>
      have tokenWritable := writable token List.mem_cons_self
      obtain ⟨noReturn, noLineJoin, noLineFeed⟩ := ih fun t present =>
        writable t (List.mem_cons_of_mem _ present)
      have gap : gapAfter token tokens = [] ∨ gapAfter token tokens = [' '] := by
        cases tokens with
        | nil => exact .inl rfl
        | cons next rest =>
            rw [gapAfter]
            split_ifs
            · exact .inr rfl
            · exact .inl rfl
      have rest : '\r' ∉ gapAfter token tokens ++ Spelling.join tokens ∧
          ¬ ['\\', '\n'] <:+: gapAfter token tokens ++ Spelling.join tokens ∧
          Text.first (gapAfter token tokens ++ Spelling.join tokens) ≠ '\n' := by
        rcases gap with none | blank
        · rw [none, List.nil_append]
          exact ⟨noReturn, noLineJoin, noLineFeed⟩
        · rw [blank]
          refine ⟨by simp [noReturn], ?_, by simp⟩
          exact not_lineJoin_append (by decide) noLineJoin (.inr noLineFeed)
      rw [join_cons writable]
      refine ⟨?_, not_lineJoin_append tokenWritable.noLineJoin rest.2.1 (.inr rest.2.2), ?_⟩
      · rw [List.mem_append, not_or]
        exact ⟨tokenWritable.exists_source.2.2, rest.1⟩
      · rw [Text.first_append tokenWritable.nonempty]
        exact tokenWritable.first_ne

/-- Joined tokens do not start with a byte-order mark. -/
theorem not_hasMark_join {tokens : List Token} (writable : ∀ t ∈ tokens, t.IsWritable) :
    ¬ Encoding.HasMark (Spelling.join tokens) := by
  cases tokens with
  | nil => simp [Spelling.join, Encoding.HasMark]
  | cons token tokens =>
      have tokenWritable := writable token List.mem_cons_self
      rw [join_cons writable]
      intro mark
      have goesOn := (isIdentifierChar_of_hasMark tokenWritable.isLexeme tokenWritable.noMark mark)
      cases tokens with
      | nil => cases goesOn.2
      | cons next rest =>
          have nextWritable := writable next (by simp)
          have others : ∀ t ∈ next :: rest, t.IsWritable := fun t present =>
            writable t (List.mem_cons_of_mem _ present)
          rcases gapAfter_cases writable rfl with blank | ⟨none, -, -, -, ends⟩
          · rw [blank] at goesOn
            cases goesOn.2
          · -- Where no gap is written, the first name ends before the next lexeme.
            rw [none, List.nil_append, join_cons others, Text.first_append nextWritable.nonempty] at goesOn
            have nameEnds : NameEnds token.lexeme next.lexeme := by
              rcases goesOn.1 with same | same <;> rw [same] at ends <;> exact ends
            rw [nameEnds.2] at goesOn
            cases goesOn.2

/-- Joined tokens are read again as tokens of the same kinds and lexemes, followed by the end of the
file, exactly if no three points meet. -/
theorem tokenize_join_iff {tokens : List Token} (writable : ∀ t ∈ tokens, t.IsWritable)
    (file : Option FileRef) :
    (∃ read, tokenize (Spelling.join tokens) file .standard = .ok read ∧
        read.map Token.word = tokens.map Token.word ++ [(.endOfFile, [])]) ↔
      ¬ PointsMeet tokens := by
  obtain ⟨noReturn, noLineJoin, -⟩ := join_plain writable
  obtain ⟨again, reads, same⟩ :=
    exists_tokenize noReturn noLineJoin (not_hasMark_join writable) file .standard
  rw [← words_join_iff writable]
  constructor
  · rintro ⟨read, reads', same'⟩
    rw [reads] at reads'
    cases reads'
    rw [same] at same'
    exact List.append_cancel_right same'
  · intro isWords
    exact ⟨again, reads, by rw [same, isWords]⟩

/-- Three points without white space between them are not read again. -/
theorem points_not_read_again :
    let point : Token := { kind := .punctuator, lexeme := ['.'] }
    (∀ t ∈ [point, point, point], t.IsWritable) ∧
      ¬ ∃ read, tokenize (Spelling.join [point, point, point]) none .standard = .ok read ∧
        read.map Token.word = [point, point, point].map Token.word ++ [(.endOfFile, [])] := by
  intro point
  have noMark : ¬ Encoding.HasMark ['.'] := by simp [Encoding.HasMark]
  have areBytes : Text.IsBytes ['.'] := List.forall_mem_cons.mpr ⟨by decide, nofun⟩
  have producible : IsProducible (.punctuator, ['.']) :=
    isProducible_of_read areBytes (by decide) (by decide) noMark (by decide) rfl rfl
  have writable : ∀ t ∈ [point, point, point], t.IsWritable := by
    have one : point.IsWritable := ⟨producible, nofun, nofun, nofun, by decide, noMark⟩
    intro t present
    simp only [List.mem_cons, List.not_mem_nil, or_false, or_self] at present
    rw [present]
    exact one
  have meet : PointsMeet [point, point, point] := .inl ⟨rfl, rfl, rfl, by decide, rfl, rfl⟩
  exact ⟨writable, fun read => (tokenize_join_iff writable none).mp read meet⟩

end CPreprocessor
