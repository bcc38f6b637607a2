/-
# Strings that are read back

The operator `#` makes a string of an argument: the lexemes of string and character literals
are escaped, the others are not. Where nothing but literals has quotes and backslashes in it,
and no line ends in the argument, what comes of it is one string literal, and to read its
content gives back the spelling of the argument (`tokenize_stringize`).
-/
import CPreprocessor.Proofs.Expansion.Ends
import CPreprocessor.Proofs.Lexing.Alone
import CPreprocessor.Proofs.Lexing.Marker

namespace CPreprocessor

namespace Spelling

/-- Whatever follows, a text that is written in this way in a string literal does not end the literal,
has no bad escape sequence in it and is read back. -/
structure Encodes (written text : Text) : Prop where
  unescape : ∀ rest, unescape (written ++ rest) = text ++ unescape rest
  body : ∀ rest, Literal.body '"' (written ++ rest)
    = { Literal.body '"' rest with length := written.length + (Literal.body '"' rest).length }

theorem unescape_cons {c : Char} (noBackslash : c ≠ '\\') (rest : Text) :
    unescape (c :: rest) = c :: unescape rest := by
  rw [unescape]
  · rintro after rfl
    exact absurd rfl noBackslash
  · rintro after rfl
    exact absurd rfl noBackslash

/-- An escaped text is read back. -/
theorem unescape_escape_append (text rest : Text) :
    unescape (escape text ++ rest) = text ++ unescape rest := by
  induction text with
  | nil => rfl
  | cons c text ih =>
    simp only [escape, List.flatMap_cons, List.append_assoc, List.cons_append] at ih ⊢
    split
    · rename_i escaped
      simp only [Bool.or_eq_true, decide_eq_true_eq] at escaped
      obtain rfl | rfl := escaped <;> simp only [List.cons_append, List.nil_append, unescape, ih]
    · rename_i plain
      simp only [Bool.or_eq_true, decide_eq_true_eq, not_or] at plain
      rw [List.singleton_append, unescape_cons plain.2, ih]

/-- What stands between the quotes is read back. -/
theorem content?_of_unescape {written text : Text} (back : unescape written = text) :
    content? ('"' :: written ++ ['"']) = some text := by
  rw [content?, betweenQuotes?_quoted, Option.map_some, back]

theorem content?_quote (text : Text) : content? (quote text) = some text := by
  refine content?_of_unescape ?_
  have back := unescape_escape_append text []
  rwa [List.append_nil, unescape, List.append_nil] at back

namespace Encodes

theorem nil : Encodes [] [] where
  unescape _ := rfl
  body rest := by simp only [List.nil_append, List.length_nil, Nat.zero_add]

theorem append {first second text text' : Text} (one : Encodes first text)
    (two : Encodes second text') : Encodes (first ++ second) (text ++ text') where
  unescape rest := by rw [List.append_assoc, one.unescape, two.unescape, List.append_assoc]
  body rest := by
    rw [List.append_assoc, one.body, two.body]
    simp only [List.length_append, Nat.add_assoc]

/-- A character that means nothing in a literal. -/
theorem singleton {c : Char} (noQuote : c ≠ '"') (noBackslash : c ≠ '\\') (noFeed : c ≠ '\n') :
    Encodes [c] [c] where
  unescape := unescape_cons noBackslash
  body rest := by
    rw [List.singleton_append, Literal.body_cons, if_neg noQuote, if_neg noFeed, if_neg noBackslash]
    rfl

/-- A character after a backslash. -/
theorem escaped {c : Char} (special : c = '"' ∨ c = '\\') : Encodes ['\\', c] [c] where
  unescape rest := by obtain rfl | rfl := special <;> rfl
  body rest := by
    have escape : Literal.escape (c :: rest) = ⟨1, true⟩ := by obtain rfl | rfl := special <;> rfl
    rw [List.cons_append, List.singleton_append, Literal.body_cons, if_neg (by decide),
      if_neg (by decide), if_pos rfl, escape]
    simp only [List.drop_succ_cons, List.drop_zero, Bool.not_true, Bool.false_or, List.length_cons,
      List.length_nil]

/-- A text in which nothing means anything in a literal. -/
theorem plain {text : Text} (noQuote : '"' ∉ text) (noBackslash : '\\' ∉ text) (noFeed : '\n' ∉ text) :
    Encodes text text := by
  induction text with
  | nil => exact nil
  | cons c text ih =>
    rw [List.mem_cons, not_or] at noQuote noBackslash noFeed
    exact (singleton (Ne.symm noQuote.1) (Ne.symm noBackslash.1) (Ne.symm noFeed.1)).append
      (ih noQuote.2 noBackslash.2 noFeed.2)

theorem escape {text : Text} (noFeed : '\n' ∉ text) : Encodes (escape text) text := by
  induction text with
  | nil => exact nil
  | cons c text ih =>
    rw [List.mem_cons, not_or] at noFeed
    have later := ih noFeed.2
    by_cases special : c = '"' ∨ c = '\\'
    · have here : Spelling.escape (c :: text) = ['\\', c] ++ Spelling.escape text := by
        simp only [Spelling.escape, List.flatMap_cons, Bool.or_eq_true, decide_eq_true_eq, special,
          if_true]
      rw [here]
      exact (escaped special).append later
    · have here : Spelling.escape (c :: text) = [c] ++ Spelling.escape text := by
        simp only [Spelling.escape, List.flatMap_cons, Bool.or_eq_true, decide_eq_true_eq, special,
          if_false]
      rw [not_or] at special
      rw [here]
      exact (singleton special.1 special.2 (Ne.symm noFeed.1)).append later

/-- Tokens that are encoded one by one are encoded with the blanks between them. -/
theorem spelling {spell : Token → Text} {tokens : List Token}
    (encodes : ∀ token ∈ tokens, Encodes (spell token) token.lexeme) :
    Encodes (Substitution.spelling spell tokens) (Substitution.spelling Token.lexeme tokens) := by
  have others (rest : List Token) (encodes : ∀ token ∈ rest, Encodes (spell token) token.lexeme) :
      Encodes (rest.flatMap fun t => (if t.afterSpace then [' '] else []) ++ spell t)
        (rest.flatMap fun t => (if t.afterSpace then [' '] else []) ++ t.lexeme) := by
    induction rest with
    | nil => exact nil
    | cons token rest ih =>
      obtain ⟨here, later⟩ := List.forall_mem_cons.mp encodes
      refine Encodes.append (Encodes.append ?_ here) (ih later)
      split
      · exact singleton (by decide) (by decide) (by decide)
      · exact nil
  cases tokens with
  | nil => exact nil
  | cons token rest =>
    obtain ⟨here, later⟩ := List.forall_mem_cons.mp encodes
    exact here.append (others rest later)

end Encodes

end Spelling

/-! ## One literal -/

/-- A text with one lexeme in it is one token. -/
theorem exists_tokenize_of_read {language : Language} {text : Text} {kind : TokenKind}
    {error : Option LexError} (plain : text.IsPlain) (noMark : ¬Encoding.HasMark text)
    (nonempty : text ≠ []) (bare : Gap.starts text = false)
    (reads : Lexeme.read language text = ⟨kind, text.length, error⟩) (file : Option FileRef) :
    ∃ token final, tokenize text file language = .ok [token, final] ∧ final.isEnd = true
      ∧ token.kind = kind ∧ token.lexeme = text ∧ token.error = error := by
  let l := Lexer.ofSource (Source.ofDecoded false text) (file.getD .unknown) language false
  have rest : l.rest = text := Source.text_ofDecoded_plain plain
  obtain ⟨kinds, lexemes, errors, nothing, fresh⟩ :=
    @Lexer.next_of_readsAlone l { kind, lexeme := text, error } rfl rest
      (.inl ⟨nonempty, bare, reads⟩)
  have more : l.next.1.isEnd = false := by
    have noEnd := (Lexeme.kind_read_ne language text).2.2
    rw [reads] at noEnd
    rw [Token.isEnd, kinds]
    simpa using noEnd
  have ends := Lexer.isEnd_next_of_nil fresh nothing
  have drained : l.drain.1 = [l.next.1, l.next.2.next.1] := by
    rw [Lexer.drain_eq, more, if_neg Bool.false_ne_true, Lexer.drain_eq l.next.2, if_pos ends]
  refine ⟨l.next.1, l.next.2.next.1, ?_, ends, kinds, lexemes, errors⟩
  rw [tokenize, Source.ofBytes, Encoding.decode_of_not_hasMark noMark]
  exact congrArg Except.ok drained

namespace Spelling.Encodes

variable {written text : Text} (encodes : Encodes written text)
include encodes

theorem read_quoted (language : Language) :
    Lexeme.read language ('"' :: written ++ ['"'])
      = ⟨.string, ('"' :: written ++ ['"']).length, none⟩ := by
  have opens : Literal.opening? ('"' :: written ++ ['"']) = some ⟨0, false, '"'⟩ :=
    Literal.opening?_eq_some.mpr ⟨[], _, by simp, rfl, rfl, .inl rfl⟩
  have closes : Literal.body '"' ['"'] = { closed := true } := by
    rw [Literal.body_cons, if_pos rfl]
  have whole : Literal.body '"' (('"' :: written ++ ['"']).drop 1)
      = { length := written.length, closed := true } := by
    rw [List.cons_append, List.drop_succ_cons, List.drop_zero, encodes.body, closes]
    rfl
  have nothing : ('"' :: written ++ ['"']).drop (1 + written.length + 1) = [] :=
    List.drop_of_length_le (by
      rw [List.length_append, List.length_cons, List.length_singleton]
      omega)
  rw [Lexeme.read_literal language (Lexeme.startsNumber_of_opening? opens) opens,
    if_neg Bool.false_ne_true]
  simp only [Lexeme.readQuoted, Nat.zero_add, whole, if_true, nothing]
  simp [Literal.suffixLength, Text.first, Text.nul, Text.isIdentifierStart]
  omega

/-- Between quotes such a text is one string literal without an error. -/
theorem tokenize_quoted (noFeed : '\n' ∉ written) (noReturn : '\r' ∉ written) (file : Option FileRef)
    (language : Language) :
    ∃ token final, tokenize ('"' :: written ++ ['"']) file language = .ok [token, final]
      ∧ final.isEnd = true ∧ token.kind = .string ∧ token.lexeme = '"' :: written ++ ['"']
      ∧ token.error = none := by
  have noFeed : '\n' ∉ '"' :: written ++ ['"'] := by simp [noFeed]
  have plain : Text.IsPlain ('"' :: written ++ ['"']) :=
    ⟨by simp [noReturn], fun inside => noFeed (inside.subset (by simp))⟩
  have noMark : ¬Encoding.HasMark ('"' :: written ++ ['"']) := by
    simp [Encoding.HasMark]
  exact exists_tokenize_of_read plain noMark (by simp) rfl (encodes.read_quoted language) file

end Spelling.Encodes

/-! ## Lexemes without quotes -/

/-- No quote and no backslash stands in the text. -/
def Text.IsQuoteless (text : Text) : Prop :=
  '"' ∉ text ∧ '\\' ∉ text

theorem Text.isQuoteless_of_forall {text : Text} {p : Char → Bool} (noQuote : p '"' = false)
    (noBackslash : p '\\' = false) (all : ∀ c ∈ text, p c = true) : text.IsQuoteless :=
  ⟨fun present => absurd (all _ present) (by rw [noQuote]; exact Bool.false_ne_true),
    fun present => absurd (all _ present) (by rw [noBackslash]; exact Bool.false_ne_true)⟩

instance (text : Text) : Decidable text.IsQuoteless :=
  inferInstanceAs (Decidable (_ ∧ _))

/-- Besides literals, only a punctuator that the language has and the backslash alone can have quotes or
backslashes in them. -/
theorem Lexeme.isQuoteless_of_read {language : Language} {kind : TokenKind} {w rest : Text}
    (reads : read language (w ++ rest) = ⟨kind, w.length, none⟩) (noString : kind ≠ .string)
    (noCharacter : kind ≠ .character) :
    w.IsQuoteless ∨ kind = .punctuator ∧ (w ∈ language.punctuators ∨ w = ['\\']) := by
  obtain ⟨number, same⟩ | ⟨opening, -, same⟩ | ⟨-, starts, same⟩ | ⟨-, noLiteral, -, same⟩ :=
    read_cases language (w ++ rest)
  · rw [same] at reads
    obtain ⟨c, tail, rfl, whole, -, -⟩ := exists_numberTail reads
    have first : isNumberChar c = true := by
      obtain digit | point := first_of_startsNumber number
      · rw [List.cons_append, Text.first_cons] at digit
        simp [isNumberChar, Char.isAlphanum, digit]
      · rw [List.cons_append, Text.first_cons] at point
        rw [point]
        rfl
    exact .inl (Text.isQuoteless_of_forall rfl rfl
      (List.forall_mem_cons.mpr ⟨first, forall_isNumberChar whole⟩))
  · have literal : kind = .string ∨ kind = .character := by
      have kinds := congrArg Lexeme.kind reads
      rw [same] at kinds
      split at kinds
      · exact .inl (kinds.symm.trans (kind_readRaw _ _))
      · rw [kind_readQuoted] at kinds
        split at kinds
        · exact .inl kinds.symm
        · exact .inr kinds.symm
    exact absurd literal (by simp [noString, noCharacter])
  · rw [same] at reads
    obtain ⟨c, tail, rfl, isStart, all, -, -⟩ := exists_name starts reads
    exact .inl (Text.isQuoteless_of_forall rfl rfl
      (List.forall_mem_cons.mpr ⟨Text.isIdentifierChar_of_isIdentifierStart isStart, all⟩))
  · rw [same, Lexeme.mk.injEq] at reads
    obtain ⟨rfl, length, -⟩ := reads
    obtain known | ⟨c, rfl⟩ := exists_punctuator length
    · exact .inr ⟨rfl, .inl known⟩
    · by_cases lone : c = '\\'
      · exact .inr ⟨rfl, .inr (by rw [lone])⟩
      -- A quote would open a literal.
      refine .inl ⟨fun quote => ?_, fun backslash => lone (List.mem_singleton.mp backslash).symm⟩
      obtain rfl := List.mem_singleton.mp quote
      have opens : Literal.opening? (['"'] ++ rest) = some ⟨0, false, '"'⟩ :=
        Literal.opening?_eq_some.mpr ⟨[], rest, by simp, rfl, rfl, .inl rfl⟩
      rw [opens] at noLiteral
      cases noLiteral

/-! ## Tokens of arguments -/

/-- The tokens that the arguments of calls are made of: a lexer of the language reads them, or an
operator or a builtin macro makes a string or a number of its own. Where a token stands and what its
expansion has hidden does not matter. -/
inductive Token.IsMade (language : Language) (token : Token) : Prop where
  | read (rest : Text) (reads : Lexeme.read language (token.lexeme ++ rest)
      = ⟨token.kind, token.lexeme.length, token.error⟩)
  | string ( isString : token.kind = .string)
  | number (n : Nat) (digits : token.lexeme = Text.ofNat n)

namespace Token.IsMade

variable {language : Language} {token : Token}

theorem congr (made : token.IsMade language) {other : Token} (kind : other.kind = token.kind)
    (lexeme : other.lexeme = token.lexeme) (error : other.error = token.error) :
    other.IsMade language := by
  cases made with
  | read rest reads => exact .read rest (by rw [kind, lexeme, error, reads])
  | string isString => exact .string (kind.trans isString)
  | number n digits => exact .number n (lexeme.trans digits)

/-- The tokens of a text are such tokens, but for its end. -/
theorem of_tokenize {text : Text} {file : FileRef} {tokens : List Token}
    (lexed : tokenize text (some file) language = .ok tokens) (member : token ∈ tokens)
    (more : token.isEnd = false) : token.IsMade language := by
  obtain ⟨source, -, rfl⟩ := exists_source_of_tokenize lexed
  obtain ⟨alone | ⟨keeps, -⟩, -⟩ := Lexer.readsAlone_of_mem_drain rfl member more
  · exact .read [] (by rw [List.append_nil]; exact alone.2.2)
  · cases keeps

theorem pasted {left right : Token}
    (made : Substitution.pasted? language left right = some token) : token.IsMade language := by
  unfold Substitution.pasted? at made
  simp only [] at made
  split at made
  · rename_i first last lexed
    split at made
    · rename_i good
      simp only [Bool.and_eq_true, Option.isNone_iff_eq_none, beq_iff_eq] at good
      cases made
      obtain ⟨source, -, drained⟩ := exists_source_of_tokenize lexed
      have more : first.isEnd = false := isEnd_of_drain drained
      exact (of_tokenize lexed List.mem_cons_self more).congr rfl good.2.symm good.1.symm
    · cases made
  · cases made

theorem builtin (ctx : Expansion.Context) (kind : Builtin) (site : Token) (state : Expansion.State) :
    (Expansion.expandBuiltin ctx kind site state).1.IsMade language := by
  cases kind
  case line => exact .number _ rfl
  case counter => exact .number _ rfl
  case includeLevel => exact .number _ rfl
  all_goals exact .string rfl

theorem kept : Substitution.Kept language True (IsMade language) where
  spaced _ made := made.congr rfl rfl rfl
  pasted _ _ _ made := pasted made
  string _ _ := .string rfl

theorem preserves {ctx : Expansion.Context}
    (bodies : ∀ m ∈ ctx.table.macros, ∀ token ∈ m.body, token.IsMade ctx.language) :
    Expansion.Preserves ctx True (IsMade ctx.language) where
  kept := kept
  moved _ _ kind lexeme error made := made.congr kind lexeme error
  builtin := builtin ctx
  macros m member := ⟨bodies m member, fun _ => trivial⟩

end Token.IsMade

/-- What is expanded from such tokens, with replacement lists of such tokens, is made of such tokens. -/
theorem Expansion.isMade_expandAll {ctx : Context}
    (bodies : ∀ m ∈ ctx.table.macros, ∀ token ∈ m.body, token.IsMade ctx.language)
    {tokens : List Token} (made : ∀ token ∈ tokens, token.IsMade ctx.language) (s : State) :
    ∀ token ∈ (expandAll ctx tokens s).1, token.IsMade ctx.language :=
  (Token.IsMade.preserves bodies).expandAll made s

namespace Token.IsMade

variable {language : Language} {token : Token}

/-- In a literal such a token stands for its lexeme. -/
theorem encodes (made : token.IsMade language) (correct : token.error = none)
    (noFeed : '\n' ∉ token.lexeme)
    (quoteless : token.kind = .punctuator → token.lexeme.IsQuoteless) :
    Spelling.Encodes (Substitution.stringLexeme token) token.lexeme := by
  unfold Substitution.stringLexeme
  split
  · exact .escape noFeed
  · rename_i plain
    simp only [Bool.or_eq_true, decide_eq_true_eq, not_or] at plain
    have bare : token.lexeme.IsQuoteless := by
      cases made with
      | read rest reads =>
        rw [correct] at reads
        exact (Lexeme.isQuoteless_of_read reads plain.1 plain.2).elim id fun mark => quoteless mark.1
      | string isString => exact absurd isString plain.1
      | number n digits =>
        rw [digits]
        exact Text.isQuoteless_of_forall (p := Char.isDigit) rfl rfl Text.isDigit_of_mem_ofNat
    exact .plain bare.1 bare.2 noFeed

/-- In the standard language a punctuator has quotes or backslashes in it only if it is a backslash that
stands alone. -/
theorem isQuoteless_standard (made : token.IsMade .standard) (correct : token.error = none)
    (notLone : token.isPunctuator ['\\'] = false) (isPunctuator : token.kind = .punctuator) :
    token.lexeme.IsQuoteless := by
  have spares : ∀ p ∈ Language.standard.punctuators, Text.IsQuoteless p := by
    decide +kernel
  cases made with
  | read rest reads =>
    rw [correct] at reads
    obtain bare | ⟨-, known | lone⟩ :=
      Lexeme.isQuoteless_of_read reads (by simp [isPunctuator]) (by simp [isPunctuator])
    · exact bare
    · exact spares _ known
    · rw [Token.isPunctuator_iff.mpr ⟨isPunctuator, lone⟩] at notLone
      cases notLone
  | string isString => simp [isString] at isPunctuator
  | number n digits =>
    rw [digits]
    exact Text.isQuoteless_of_forall (p := Char.isDigit) rfl rfl Text.isDigit_of_mem_ofNat

end Token.IsMade

namespace Substitution

variable {tokens : List Token}

/-- A spelling is made of the characters of what is spelt, and of blanks. -/
theorem forall_mem_spelling {p : Char → Prop} {spell : Token → Text} (blank : p ' ')
    (all : ∀ token ∈ tokens, ∀ c ∈ spell token, p c) : ∀ c ∈ spelling spell tokens, p c := by
  cases tokens with
  | nil => exact List.forall_mem_nil _
  | cons token rest =>
    obtain ⟨here, later⟩ := List.forall_mem_cons.mp all
    refine List.forall_mem_append.mpr ⟨here, fun c member => ?_⟩
    obtain ⟨other, inRest, inside⟩ := List.mem_flatMap.mp member
    obtain gap | spelt := List.mem_append.mp inside
    · split at gap
      · exact List.mem_singleton.mp gap ▸ blank
      · cases gap
    · exact later other inRest c spelt

theorem forall_mem_stringLexeme {p : Char → Prop} (backslash : p '\\') {token : Token}
    (all : ∀ c ∈ token.lexeme, p c) : ∀ c ∈ stringLexeme token, p c := by
  unfold stringLexeme
  split
  · intro c member
    obtain ⟨original, inside, written⟩ := List.mem_flatMap.mp member
    split at written
    · obtain rfl | later := List.mem_cons.mp written
      · exact backslash
      · exact List.mem_singleton.mp later ▸ all original inside
    · exact List.mem_singleton.mp written ▸ all original inside
  · exact all

/-- What `#` makes of an argument is one string literal, and its content is the spelling of the argument.
It takes an argument without errors, without line ends in its tokens and without quotes or backslashes in
its punctuators. In the standard language that excludes just the backslash that stands alone
(`Token.IsMade.isQuoteless_standard`). A text that is quoted as a whole is the content of what it is
quoted as. -/
theorem tokenize_stringize {language : Language} {argument : List Token}
    (made : ∀ token ∈ argument, token.IsMade language)
    (correct : ∀ token ∈ argument, token.error = none)
    (oneLine : ∀ token ∈ argument, '\n' ∉ token.lexeme ∧ '\r' ∉ token.lexeme)
    (quoteless : ∀ token ∈ argument, token.kind = .punctuator → token.lexeme.IsQuoteless)
    (hash : Token) (file : Option FileRef) (language' : Language) :
    (∃ token final, tokenize (stringize hash argument).lexeme file language' = .ok [token, final]
      ∧ final.isEnd = true ∧ token.kind = .string ∧ token.lexeme = (stringize hash argument).lexeme
      ∧ token.error = none)
      ∧ Spelling.content? (stringize hash argument).lexeme = some (spelling Token.lexeme argument)
      ∧ ∀ text, Spelling.content? (Spelling.quote text) = some text := by
  have encodes : Spelling.Encodes (spelling stringLexeme argument) (spelling Token.lexeme argument) :=
    .spelling fun token member => (made token member).encodes (correct token member)
      (oneLine token member).1 (quoteless token member)
  have without {lineEnd : Char} (blank : ' ' ≠ lineEnd) (backslash : '\\' ≠ lineEnd)
      (all : ∀ token ∈ argument, lineEnd ∉ token.lexeme) : lineEnd ∉ spelling stringLexeme argument :=
    fun present => forall_mem_spelling (p := (· ≠ lineEnd)) blank (fun token member =>
      forall_mem_stringLexeme backslash fun c inside same => all token member (same ▸ inside))
      lineEnd present rfl
  refine ⟨encodes.tokenize_quoted ?_ ?_ file language', Spelling.content?_of_unescape ?_,
    Spelling.content?_quote⟩
  · exact without (by decide) (by decide) fun token member => (oneLine token member).1
  · exact without (by decide) (by decide) fun token member => (oneLine token member).2
  · have back := encodes.unescape []
    rwa [List.append_nil, Spelling.unescape, List.append_nil] at back

/-- A character literal with a quote in it, a raw string, a punctuator and a name. -/
def quotingArgument : List Token :=
  [{ kind := .character, lexeme := "'\"'".toList },
    { kind := .string, lexeme := "R\"(\\)\"".toList, afterSpace := true },
    { kind := .punctuator, lexeme := "->".toList },
    { kind := .identifier, lexeme := ['x'] }]

/-- The argument is read back from the string that is made of it. -/
theorem tokenize_stringize_quoting :
    Spelling.content? (stringize default quotingArgument).lexeme
      = some "'\"' R\"(\\)\"->x".toList := by
  have read : ∀ token ∈ quotingArgument, Lexeme.read .standard token.lexeme
      = ⟨token.kind, token.lexeme.length, token.error⟩ := by
    decide +kernel
  have made (token : Token) (member : token ∈ quotingArgument) : token.IsMade .standard :=
    .read [] (by rw [List.append_nil]; exact read token member)
  have correct : ∀ token ∈ quotingArgument, token.error = none := by
    decide
  have noneAlone : ∀ token ∈ quotingArgument, token.isPunctuator ['\\'] = false := by
    decide
  have quoteless (token : Token) (member : token ∈ quotingArgument) :=
    (made token member).isQuoteless_standard (correct token member) (noneAlone token member)
  exact (tokenize_stringize made correct (by decide) quoteless default none .standard).2.1

/-- A language with a punctuator that has a quote in it. -/
def quotedLanguage : Language :=
  .ofWords [] ["@\"".toList]

/-- The punctuator. -/
def quotedPunctuator : Token where
  kind := .punctuator
  lexeme := "@\"".toList

/-- The name of a file with a carriage return in it, as a string. -/
def returnedName : Token where
  kind := .string
  lexeme := Spelling.quote "a\rb".toList

/-- A quote that is no part of a literal ends the string too early, and so does a carriage return, which
ends the line. -/
theorem not_tokenize_stringize :
    (quotedPunctuator.IsMade quotedLanguage ∧ quotedPunctuator.error = none
      ∧ '\n' ∉ quotedPunctuator.lexeme ∧ quotedPunctuator.isPunctuator ['\\'] = false
      ∧ ¬∃ token final, tokenize (stringize default [quotedPunctuator]).lexeme none quotedLanguage
        = .ok [token, final])
    ∧ returnedName.IsMade .standard ∧ returnedName.error = none ∧ '\n' ∉ returnedName.lexeme
      ∧ returnedName.isPunctuator ['\\'] = false
      ∧ ¬∃ token final, tokenize (stringize default [returnedName]).lexeme none .standard
        = .ok [token, final] := by
  have more {text : Text} {language : Language}
      (length : ((tokenize text none language).toOption.map List.length == some 2) = false) :
      ¬∃ token final, tokenize text none language = .ok [token, final] := by
    rintro ⟨token, final, lexed⟩
    rw [lexed] at length
    cases length
  exact ⟨⟨.read [] (by decide +kernel), rfl, by decide, rfl, more (by decide +kernel)⟩,
    .string rfl, rfl, by decide, rfl, more (by decide +kernel)⟩

end Substitution

end CPreprocessor
