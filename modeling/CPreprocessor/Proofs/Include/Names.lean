/-
# Names between angle brackets

A name between `<` and `>` is put together from the tokens that stand there. A path of letters,
digits and `_`, `.`, `-`, `/` comes back as it is written (`IncludeName.read?_angled`), but for two
kinds: where two slashes stand in it, a comment starts there and hides the rest, and a `-` at
its end that is a token of its own makes one token `->` with the `>`.
-/
import CPreprocessor.Include.Name
import CPreprocessor.Proofs.Lexing.Boundary

namespace CPreprocessor

namespace Text

/-- A character of the paths that headers are named by. -/
def isPathChar (c : Char) : Bool :=
  c.isAlphanum || ['_', '.', '-', '/'].contains c

/-- All characters are those of paths. -/
def IsPath (text : Text) : Prop :=
  ∀ c ∈ text, isPathChar c = true

variable {part : Text}

theorem IsPath.not_mem (path : part.IsPath) {c : Char} (other : isPathChar c = false) :
    c ∉ part := by
  intro inside
  rw [path c inside] at other
  cases other

theorem IsPath.drop (path : part.IsPath) (n : Nat) : IsPath (part.drop n) :=
  fun c inside => path c (List.mem_of_mem_drop inside)

end Text

variable {part : Text}

namespace Gap

/-- A line comment takes all of a text without line feeds. -/
theorem drop_read_of_comment {text : Text} (comment : ['/', '/'] <+: text) (noFeed : '\n' ∉ text) :
    text.drop (read true text).length = [] := by
  obtain ⟨rest, rfl⟩ := comment
  have line : Text.lineLength ('/' :: rest) = ('/' :: rest).length := by
    rw [Text.lineLength, List.takeWhile_eq_self_iff.mpr]
    intro c inside
    refine decide_eq_true ?_
    rintro rfl
    exact noFeed (List.mem_cons_of_mem _ inside)
  rw [List.drop_eq_nil_iff, List.cons_append, List.singleton_append, read_cons, if_neg (by decide),
    if_neg (by decide), if_pos (by rw [Text.first_cons]; rfl), after, line]
  simp only [List.length_cons]
  omega

end Gap

/-! ## The lexemes of a path -/

namespace Literal

theorem opening?_eq_none {text : Text} (noDouble : '"' ∉ text) (noSingle : '\'' ∉ text) :
    opening? text = none := by
  rw [Option.eq_none_iff_forall_ne_some]
  intro opening opens
  obtain ⟨word, rest, -, -, rfl, isDouble | ⟨isSingle, -⟩⟩ := opening?_eq_some.mp opens
  · exact noDouble (by simp [isDouble])
  · exact noSingle (by simp [isSingle])

end Literal

namespace Language

/-- A punctuator that `>` ends is `>` itself, `->`, or not of the characters of paths before its
end. -/
theorem punctuator_before_close {p : Text} (path : p.IsPath)
    (known : p ++ ['>'] ∈ Language.standard.punctuators) : p = [] ∨ p = ['-'] := by
  have all : ∀ q ∈ Language.standard.punctuators, q.getLast? = some '>' →
      q.dropLast.all Text.isPathChar = true → q.dropLast = [] ∨ q.dropLast = ['-'] := by
    decide
  have one := all _ known List.getLast?_concat
  rw [List.dropLast_concat] at one
  exact one (List.all_eq_true.mpr path)

theorem eq_slash_of_mem {p : Text} (path : p.IsPath) (known : p ∈ Language.standard.punctuators)
    (slash : '/' ∈ p) : p = ['/'] := by
  have all : ∀ q ∈ Language.standard.punctuators, q.all Text.isPathChar = true → '/' ∈ q →
      q = ['/'] := by
    decide
  exact all p known (List.all_eq_true.mpr path) slash

/-- No punctuator goes on from `<` into a path. -/
theorem length_le_of_open {p : Text} {c : Char} (isPath : Text.isPathChar c = true)
    (known : p ∈ Language.standard.punctuators) {rest : Text} (starts : p <+: '<' :: c :: rest) :
    p.length ≤ 1 := by
  have all : ∀ q ∈ Language.standard.punctuators, q.head? = some '<' →
      q.tail.head?.all (!Text.isPathChar ·) = true := by
    decide
  have one := all p known
  cases p with
  | nil => exact Nat.zero_le 1
  | cons b p =>
    obtain ⟨rfl, later⟩ := List.cons_prefix_cons.mp starts
    cases p with
    | nil => exact Nat.le_refl 1
    | cons d p =>
      obtain ⟨rfl, -⟩ := List.cons_prefix_cons.mp later
      simp [isPath] at one

end Language

namespace Lexeme

/-- Behind its first lexeme a text is shorter. -/
theorem length_drop_read_lt (language : Language) {text : Text} (nonempty : text ≠ []) :
    (text.drop (read language text).length).length < text.length := by
  have positive := length_read_pos language text
  have more := List.length_pos_iff.mpr nonempty
  rw [List.length_drop]
  omega

theorem punctuatorLength_close (path : part.IsPath) (nonempty : part ≠ []) (minus : part ≠ ['-']) :
    Language.standard.punctuatorLength (part ++ ['>']) =
      Language.standard.punctuatorLength part := by
  have longest (text : Text) := Language.punctuatorLength_le.mp
    (Nat.le_refl (Language.standard.punctuatorLength text))
  apply Nat.le_antisymm
  · rw [Language.punctuatorLength_le]
    intro p known starts
    by_cases closes : '>' ∈ p
    · -- A punctuator with the `>` in it is all that is left.
      have long : part.length < p.length := by
        by_contra short
        have inside := List.prefix_of_prefix_length_le starts (List.prefix_append _ _)
          (Nat.le_of_not_lt short)
        exact path.not_mem rfl (inside.subset closes)
      have whole : p = part ++ ['>'] := starts.eq_of_length_le (by
        rw [List.length_append, List.length_singleton]
        exact long)
      rw [whole] at known
      obtain none | minus' := Language.punctuator_before_close path known
      · exact absurd none nonempty
      · exact absurd minus' minus
    · exact longest _ p known (Text.prefix_of_stop closes starts)
  · rw [Language.punctuatorLength_le]
    exact fun p known starts => longest _ p known (starts.trans (List.prefix_append _ _))

/-- Before a `>` a path starts with the same lexeme as without it, unless it is `-`. -/
theorem read_close (path : part.IsPath) (nonempty : part ≠ []) (minus : part ≠ ['-']) :
    read .standard (part ++ ['>']) = read .standard part := by
  have first : Text.first (part ++ ['>']) = Text.first part := Text.first_append nonempty _
  have noLiteral : Literal.opening? part = none :=
    Literal.opening?_eq_none (path.not_mem rfl) (path.not_mem rfl)
  have noLiteral' : Literal.opening? (part ++ ['>']) = none :=
    Literal.opening?_eq_none (by simpa using path.not_mem rfl) (by simpa using path.not_mem rfl)
  have sameStart : startsNumber (part ++ ['>']) = startsNumber part :=
    startsNumber_stop rfl nonempty []
  have sameNumber : readNumber (part ++ ['>']) = readNumber part := readNumber_stop rfl nonempty []
  have sameName : readName .standard (part ++ ['>']) = readName .standard part :=
    readName_stop rfl nonempty []
  simp only [read, sameStart, sameNumber, sameName, noLiteral, noLiteral', first,
    punctuatorLength_close path nonempty minus]

/-- No slash is in a number. -/
theorem not_slash_mem_readNumber {c : Char} {tail : Text}
    (number : startsNumber (c :: tail) = true) :
    '/' ∉ (c :: tail).take (readNumber (c :: tail)).length := by
  intro slash
  rw [readNumber, List.drop_one, List.tail_cons, Nat.add_comm, List.take_succ_cons,
    List.mem_cons] at slash
  obtain rfl | inside := slash
  · obtain digit | point := first_of_startsNumber number
    · cases digit
    · cases point
  · have whole : numberTail (tail.take (numberTail tail) ++ tail.drop (numberTail tail)) =
        (tail.take (numberTail tail)).length := by
      rw [List.take_append_drop, List.length_take, Nat.min_eq_left (numberTail_le tail)]
    cases forall_isNumberChar whole '/' inside

/-- No slash is in a name. -/
theorem not_slash_mem_readName {c : Char} {tail : Text} (starts : Text.isIdentifierStart c = true) :
    '/' ∉ (c :: tail).take (readName .standard (c :: tail)).length := by
  intro slash
  rw [readName, List.drop_one, List.tail_cons, Nat.add_comm, List.take_succ_cons,
    List.mem_cons] at slash
  obtain rfl | inside := slash
  · cases starts
  · rw [← List.prefix_iff_eq_take.mp (List.takeWhile_prefix _)] at inside
    cases List.mem_takeWhile_imp inside

/-- A slash is a lexeme of its own in a path. -/
theorem take_read_of_slash (path : part.IsPath)
    (slash : '/' ∈ part.take (read .standard part).length) :
    part.take (read .standard part).length = ['/'] := by
  cases part with
  | nil => cases slash
  | cons c tail =>
    obtain ⟨number, same⟩ | ⟨opening, opens, -⟩ | ⟨-, starts, same⟩ | ⟨-, -, -, same⟩ :=
      read_cases .standard (c :: tail)
    · rw [same] at slash
      exact absurd slash (not_slash_mem_readNumber number)
    · have noLiteral := Literal.opening?_eq_none (path.not_mem rfl) (path.not_mem rfl)
      rw [opens] at noLiteral
      cases noLiteral
    · rw [same] at slash
      exact absurd slash (not_slash_mem_readName starts)
    · have inside := length_read_le .standard (List.cons_ne_nil c tail)
      generalize taken : (c :: tail).take (read .standard (c :: tail)).length = w at slash ⊢
      have split := List.take_append_drop (read .standard (c :: tail)).length (c :: tail)
      rw [taken] at split
      have length : max 1 (Language.standard.punctuatorLength (w ++ (c :: tail).drop
          (read .standard (c :: tail)).length)) = w.length := by
        rw [split, ← taken, List.length_take, Nat.min_eq_left inside, same]
      obtain known | ⟨d, rfl⟩ := exists_punctuator length
      · refine Language.eq_slash_of_mem (fun d there => path d ?_) known slash
        exact List.mem_of_mem_take (taken ▸ there)
      · rw [List.mem_singleton.mp slash]

/-- An opening bracket is a lexeme of its own before a path. -/
theorem read_open (path : part.IsPath) (nonempty : part ≠ []) :
    read .standard ('<' :: (part ++ ['>'])) = ⟨.punctuator, 1, none⟩ := by
  have noLiteral : Literal.opening? ('<' :: (part ++ ['>'])) = none :=
    Literal.opening?_eq_none (by simpa using path.not_mem rfl) (by simpa using path.not_mem rfl)
  have short : Language.standard.punctuatorLength ('<' :: (part ++ ['>'])) ≤ 1 := by
    rw [Language.punctuatorLength_le]
    cases part with
    | nil => exact absurd rfl nonempty
    | cons c part =>
      exact fun p known => Language.length_le_of_open (path c List.mem_cons_self) known
  rw [read_punctuator .standard rfl noLiteral rfl, Nat.max_eq_left short]

end Lexeme

/-! ## The tokens of a path -/

namespace Lexer

variable {l : Lexer}

/-- A lexer takes a lexeme before which no gap stands. -/
structure TakesWord (l : Lexer) (kind : TokenKind) (w after : Text) : Prop where
  kind : l.next.1.kind = kind
  lexeme : l.next.1.lexeme = w
  space : l.next.1.afterSpace = l.afterSpace
  rest : l.next.2.rest = after
  language : l.next.2.language = l.language
  adjacent : l.next.2.afterSpace = false
  bare : l.next.2.IsBare
  drain : l.drain.1 = l.next.1 :: l.next.2.drain.1

theorem IsBare.takes (bare : l.IsBare) (w after : Text) (rest : l.rest = w ++ after)
    (nonempty : w ≠ []) (noGap : Gap.starts (w ++ after) = false) {lexeme : Lexeme}
    (reads : Lexeme.read l.language (w ++ after) = lexeme) (length : lexeme.length = w.length) :
    l.TakesWord lexeme.kind w after := by
  have more : l.rest ≠ [] := by simp [rest, nonempty]
  have taken : l.next = l.take lexeme.kind w.length lexeme.error := by
    rw [bare.next_eq, skipGap_of_read_eq (Gap.read_of_not_starts (rest ▸ noGap)), Lexer.takeLexeme,
      if_neg more, rest, reads, ← length]
  have noEnd : l.next.1.isEnd = false := by
    rw [taken, ← reads]
    exact beq_false_of_ne (Lexeme.kind_read_ne _ _).2.2
  refine ⟨?_, ?_, ?_, ?_, ?_, ?_, bare.next.1, ?_⟩
  · rw [taken]
    rfl
  · rw [taken]
    simp only [take, rest, List.take_left]
  · rw [taken]
    rfl
  · rw [taken]
    simp only [take, rest, List.drop_left]
  · rw [taken]
    rfl
  · rw [taken]
    rfl
  · rw [drain_eq, noEnd, if_neg Bool.false_ne_true]

/-- Where only a gap is left there is one more token, the end of the file. -/
theorem IsBare.drain_of_end (bare : l.IsBare)
    (ends : l.rest.drop (Gap.read true l.rest).length = []) :
    ∃ last : Token, last.isEnd = true ∧ l.drain.1 = [last] := by
  have isEnd : l.next.1.isEnd = true := by
    have kind : l.next.1.kind = .endOfFile :=
      congrArg Prod.fst (next_of_end bare.skips bare.fresh ends)
    rw [Token.isEnd, kind]
    rfl
  refine ⟨l.next.1, isEnd, ?_⟩
  rw [drain_eq, isEnd, if_pos rfl]

end Lexer

namespace Text

/-- A `>` that follows the path is not read as one: a comment starts in the path, or its last
token makes another one with the `>`. -/
def HidesClose (part : Text) : Prop :=
  ['/', '/'] <:+: part ∨ (words .standard part).getLast? = some (.punctuator, ['-'])

/-- In a path only two slashes start a gap. -/
theorem IsPath.starts_iff (path : part.IsPath) {tail : Text} (stop : tail = [] ∨ tail = ['>']) :
    Gap.starts (part ++ tail) = true ↔ ['/', '/'] <+: part := by
  cases part with
  | nil =>
    obtain rfl | rfl := stop
    · decide
    · decide
  | cons c part =>
    have isPath := path c List.mem_cons_self
    have other {d : Char} (noPath : isPathChar d = false) : c ≠ d := by
      rintro rfl
      rw [isPath] at noPath
      cases noPath
    have noBlank : isBlank c = false := by
      simp [isBlank, other (d := ' ') rfl, other (d := '\t') rfl, other (d := '\x0c') rfl,
        other (d := '\x0b') rfl]
    have second : first (part ++ tail) = '/' ∨ first (part ++ tail) = '*' ↔ ['/'] <+: part := by
      cases part with
      | nil =>
        obtain rfl | rfl := stop
        · decide
        · decide
      | cons d part =>
        have noStar : d ≠ '*' := by
          rintro rfl
          cases path '*' (by simp)
        simp [noStar, eq_comm]
    have noFeed : c ≠ '\n' := other rfl
    simp only [Gap.starts, List.cons_append, first_cons, List.drop_succ_cons, List.drop_zero,
      noBlank, noFeed, decide_false, Bool.or_false, Bool.false_or, Bool.and_eq_true,
      Bool.or_eq_true, decide_eq_true_eq, second, List.cons_prefix_cons, eq_comm (a := '/')]
    exact and_congr_left' decide_eq_true_iff

/-- Two slashes in a path stand in front of it or behind its first lexeme. -/
theorem IsPath.comment_drop_iff (path : part.IsPath) (noComment : ¬['/', '/'] <+: part) :
    ['/', '/'] <:+: part.drop (Lexeme.read .standard part).length ↔ ['/', '/'] <:+: part := by
  constructor
  · exact fun inside => inside.trans (List.drop_suffix _ _).isInfix
  · rintro ⟨before, after, split⟩
    by_cases behind : (Lexeme.read .standard part).length ≤ before.length
    · refine ⟨before.drop (Lexeme.read .standard part).length, after, ?_⟩
      rw [List.append_assoc, ← List.drop_append_of_le_length behind, ← List.append_assoc, split]
    · -- The first slash would be in the lexeme, which would be this slash.
      have nonempty : part ≠ [] := by
        rintro rfl
        simp at split
      have inside := Lexeme.length_read_le .standard nonempty
      have start : before ++ ['/'] <+: part.take (Lexeme.read .standard part).length := by
        refine List.prefix_of_prefix_length_le ⟨'/' :: after, ?_⟩ (List.take_prefix _ _) ?_
        · rw [← split]
          simp
        · rw [List.length_take, Nat.min_eq_left inside, List.length_append, List.length_singleton]
          omega
      have slash : '/' ∈ part.take (Lexeme.read .standard part).length := start.subset (by simp)
      rw [Lexeme.take_read_of_slash path slash] at start
      have first : before = [] := by
        have short := start.length_le
        rw [List.length_append] at short
        exact List.length_eq_zero_iff.mp (by omega)
      rw [first] at split
      exact absurd ⟨after, split⟩ noComment

/-- Behind a lexeme of a path the `>` is hidden if it is hidden before. -/
theorem IsPath.hidesClose_drop (path : part.IsPath) (nonempty : part ≠ []) (minus : part ≠ ['-'])
    (noComment : ¬['/', '/'] <+: part) :
    HidesClose (part.drop (Lexeme.read .standard part).length) ↔ HidesClose part := by
  have noGap {text : Text} (path : text.IsPath) (noComment : ¬['/', '/'] <+: text) :
      Gap.starts text = false := by
    rw [← Bool.not_eq_true, ← List.append_nil text, path.starts_iff (.inl rfl)]
    exact noComment
  by_cases comment : ['/', '/'] <:+: part
  · exact iff_of_true (.inl ((path.comment_drop_iff noComment).mpr comment)) (.inl comment)
  · have noComment' := mt (path.comment_drop_iff noComment).mp comment
    have split := List.take_append_drop (Lexeme.read .standard part).length part
    rw [HidesClose, HidesClose, or_iff_right noComment', or_iff_right comment,
      words_of_not_starts nonempty (noGap path noComment)]
    have path' := path.drop (Lexeme.read .standard part).length
    generalize part.drop (Lexeme.read .standard part).length = behind at noComment' split path' ⊢
    cases behind with
    | nil =>
      rw [List.append_nil] at split
      rw [split, words_nil]
      simp [minus]
    | cons c behind =>
      have more := noGap path' fun first => noComment' first.isInfix
      rw [words_of_not_starts (List.cons_ne_nil c behind) more, List.getLast?_cons_cons]

theorem not_hidesClose_nil : ¬HidesClose [] := by
  rintro (comment | minus)
  · simp at comment
  · rw [words_nil] at minus
    cases minus

theorem hidesClose_minus : HidesClose ['-'] := by
  have read : Lexeme.read .standard ['-'] = ⟨.punctuator, 1, none⟩ := by decide
  refine .inr ?_
  rw [words_of_not_starts (List.cons_ne_nil _ _) rfl, read]
  simp [words_nil]

/-- Without two slashes it is a `-` at the end that hides the `>`. -/
theorem IsPath.getLast?_of_hidesClose (path : part.IsPath) (noComment : ¬['/', '/'] <:+: part)
    (hides : part.HidesClose) : part.getLast? = some '-' := by
  induction size : part.length using Nat.strongRecOn generalizing part with
  | ind n ih =>
    subst size
    by_cases nonempty : part = []
    · rw [nonempty] at hides
      exact absurd hides not_hidesClose_nil
    by_cases minus : part = ['-']
    · rw [minus]
      rfl
    have noStart : ¬['/', '/'] <+: part := fun start => noComment start.isInfix
    have later := ih (part.drop (Lexeme.read .standard part).length).length
      (Lexeme.length_drop_read_lt _ nonempty) (path.drop _)
      (mt (path.comment_drop_iff noStart).mp noComment)
      ((path.hidesClose_drop nonempty minus noStart).mpr hides) rfl
    rw [← List.take_append_drop (Lexeme.read .standard part).length part, List.getLast?_append,
      later]
    rfl

end Text

namespace IncludeName

/-- Without a `>` there is no name. -/
theorem upToClose?_of_isEnd {last : Token} (isEnd : last.isEnd = true) (isFirst : Bool) :
    upToClose? isFirst [last] = none := by
  have kind : last.kind = .endOfFile := by simpa [Token.isEnd] using isEnd
  simp [upToClose?, Token.isPunctuator, kind]

theorem upToClose?_cons {token : Token} (other : token.isPunctuator ['>'] = false) {isFirst : Bool}
    (adjacent : token.afterSpace = false ∨ isFirst = true) (tokens : List Token) :
    upToClose? isFirst (token :: tokens) =
      (upToClose? false tokens).map fun found => (token.lexeme ++ found.1, found.2 + 1) := by
  have noSpace : (token.afterSpace && !isFirst) = false := by
    obtain same | same := adjacent
    · rw [same, Bool.false_and]
    · rw [same, Bool.not_true, Bool.and_false]
  simp only [upToClose?, other, noSpace, Bool.false_eq_true, if_false, List.nil_append]

section Close

variable {l : Lexer}

/-- A comment at the start takes the `>` away. -/
theorem upToClose?_of_comment (bare : l.IsBare) (rest : l.rest = part ++ ['>']) (path : part.IsPath)
    (comment : ['/', '/'] <+: part) (isFirst : Bool) : upToClose? isFirst l.drain.1 = none := by
  have start : ['/', '/'] <+: l.rest := comment.trans (rest ▸ List.prefix_append _ _)
  have noFeed : '\n' ∉ l.rest := by
    rw [rest]
    simpa using path.not_mem rfl
  obtain ⟨last, isEnd, all⟩ := bare.drain_of_end (Gap.drop_read_of_comment start noFeed)
  rw [all]
  exact upToClose?_of_isEnd isEnd isFirst

/-- Right at the `>` the name has ended. -/
theorem upToClose?_close (bare : l.IsBare) (standard : l.language = .standard)
    (rest : l.rest = ['>']) (isFirst : Bool) :
    upToClose? isFirst l.drain.1 = some ([], l.drain.1.length - 1) := by
  have read : Lexeme.read .standard ['>'] = ⟨.punctuator, 1, none⟩ := by decide
  have takes := bare.takes ['>'] [] rest (List.cons_ne_nil _ _) rfl (standard ▸ read) rfl
  obtain ⟨last, -, all⟩ := takes.bare.drain_of_end (by rw [takes.rest, List.drop_nil])
  have closes : l.next.1.isPunctuator ['>'] = true :=
    Token.isPunctuator_iff.mpr ⟨takes.kind, takes.lexeme⟩
  rw [takes.drain, all, upToClose?, if_pos closes]
  rfl

/-- A `-` makes one token `->` with the `>`, and no other `>` follows. -/
theorem upToClose?_minus (bare : l.IsBare) (standard : l.language = .standard)
    (rest : l.rest = ['-', '>']) {isFirst : Bool} (adjacent : l.afterSpace = false ∨ isFirst = true) :
    upToClose? isFirst l.drain.1 = none := by
  have read : Lexeme.read .standard ['-', '>'] = ⟨.punctuator, 2, none⟩ := by decide
  have takes := bare.takes ['-', '>'] [] rest (List.cons_ne_nil _ _) rfl (standard ▸ read) rfl
  obtain ⟨last, isEnd, all⟩ := takes.bare.drain_of_end (by rw [takes.rest, List.drop_nil])
  have other : l.next.1.isPunctuator ['>'] = false :=
    Token.isPunctuator_of_isPunctuator (Token.isPunctuator_iff.mpr ⟨takes.kind, takes.lexeme⟩) _
  rw [takes.drain, all, upToClose?_cons other (takes.space ▸ adjacent), upToClose?_of_isEnd isEnd,
    Option.map_none]

/-- Anywhere else the next token is the one that the path alone starts with. -/
theorem takesWord_of_path (bare : l.IsBare) (standard : l.language = .standard)
    (rest : l.rest = part ++ ['>']) (path : part.IsPath) (comment : ¬['/', '/'] <+: part)
    (nonempty : part ≠ []) (minus : part ≠ ['-']) :
    l.TakesWord (Lexeme.read .standard part).kind (part.take (Lexeme.read .standard part).length)
      (part.drop (Lexeme.read .standard part).length ++ ['>']) := by
  have inside := Lexeme.length_read_le .standard nonempty
  have positive := Lexeme.length_read_pos .standard part
  have noGap : Gap.starts (part ++ ['>']) = false := by
    rw [← Bool.not_eq_true, path.starts_iff (.inr rfl)]
    exact comment
  have split : part.take (Lexeme.read .standard part).length ++
      (part.drop (Lexeme.read .standard part).length ++ ['>']) = part ++ ['>'] := by
    rw [← List.append_assoc, List.take_append_drop]
  refine bare.takes _ _ (rest.trans split.symm) ?_ (split ▸ noGap) ?_ ?_
  · rw [Ne, List.take_eq_nil_iff, not_or]
    exact ⟨Nat.ne_of_gt positive, nonempty⟩
  · rw [split, standard, Lexeme.read_close path nonempty minus]
  · rw [List.length_take, Nat.min_eq_left inside]

/-- The name up to `>` that a lexer reads from a path and the `>` behind it. -/
theorem upToClose?_drain (bare : l.IsBare) (standard : l.language = .standard)
    (rest : l.rest = part ++ ['>']) (path : part.IsPath) {isFirst : Bool}
    (adjacent : l.afterSpace = false ∨ isFirst = true) :
    (part.HidesClose → upToClose? isFirst l.drain.1 = none) ∧
      (¬part.HidesClose → upToClose? isFirst l.drain.1 = some (part, l.drain.1.length - 1)) := by
  induction size : part.length using Nat.strongRecOn generalizing part l isFirst with
  | ind n ih =>
    subst size
    by_cases comment : ['/', '/'] <+: part
    · exact ⟨fun _ => upToClose?_of_comment bare rest path comment isFirst,
        fun shown => absurd (.inl comment.isInfix) shown⟩
    by_cases nonempty : part = []
    · subst nonempty
      exact ⟨fun hidden => absurd hidden Text.not_hidesClose_nil,
        fun _ => upToClose?_close bare standard rest isFirst⟩
    by_cases minus : part = ['-']
    · subst minus
      exact ⟨fun _ => upToClose?_minus bare standard rest adjacent,
        fun shown => absurd Text.hidesClose_minus shown⟩
    have takes := takesWord_of_path bare standard rest path comment nonempty minus
    have other : l.next.1.isPunctuator ['>'] = false := by
      rw [Token.isPunctuator, takes.lexeme, Bool.and_eq_false_iff]
      refine .inr (beq_false_of_ne fun same => path.not_mem (c := '>') rfl ?_)
      exact List.mem_of_mem_take (same ▸ List.mem_singleton_self _)
    obtain ⟨hidden, shown⟩ := @ih _ (Lexeme.length_drop_read_lt _ nonempty) _ _ takes.bare
      (takes.language.trans standard) takes.rest (path.drop _) false (.inl takes.adjacent) rfl
    rw [path.hidesClose_drop nonempty minus comment] at hidden shown
    rw [takes.drain, upToClose?_cons other (takes.space ▸ adjacent), takes.lexeme]
    refine ⟨fun hides => by rw [hidden hides, Option.map_none], fun shows => ?_⟩
    have more := List.length_pos_iff.mpr l.next.2.drain_ne_nil
    rw [shown shows, Option.map_some, List.take_append_drop, List.length_cons,
      Nat.sub_add_cancel more, Nat.add_sub_cancel]

end Close

theorem read?_of_open {token : Token} (opens : token.isPunctuator ['<'] = true)
    (tokens : List Token) :
    read? (token :: tokens) = (upToClose? true tokens).bind fun found =>
      if found.1 = [] then none else some ⟨found.1, .angled, found.2 + 1⟩ := by
  have kind : token.kind = .punctuator := (Token.isPunctuator_iff.mp opens).1
  rw [read?, kind]
  simp only [reduceCtorEq, decide_false, Bool.false_and, Bool.false_eq_true, if_false, opens,
    if_true]
  cases upToClose? true tokens with
  | none => rfl
  | some found => rfl

/-- The name that a lexer reads from a path between angle brackets. -/
theorem read?_drain {l : Lexer} (bare : l.IsBare) (standard : l.language = .standard)
    (rest : l.rest = '<' :: (part ++ ['>'])) (nonempty : part ≠ []) (path : part.IsPath) :
    (part.HidesClose → read? l.drain.1 = none) ∧
      (¬part.HidesClose → read? l.drain.1 = some ⟨part, .angled, l.drain.1.length - 1⟩) := by
  have takes := bare.takes ['<'] (part ++ ['>']) rest (List.cons_ne_nil _ _) rfl
    (standard ▸ Lexeme.read_open path nonempty) rfl
  have opens := Token.isPunctuator_iff.mpr ⟨takes.kind, takes.lexeme⟩
  obtain ⟨hidden, shown⟩ :=
    upToClose?_drain takes.bare (takes.language.trans standard) takes.rest path (.inr rfl)
  rw [takes.drain, read?_of_open opens]
  refine ⟨fun hides => by rw [hidden hides, Option.bind_none], fun shows => ?_⟩
  have more := List.length_pos_iff.mpr l.next.2.drain_ne_nil
  rw [shown shows, Option.bind_some, if_neg nonempty, List.length_cons, Nat.sub_add_cancel more,
    Nat.add_sub_cancel]

/-- A path, with angle brackets or without them, is read as its words and the end of the file. -/
theorem exists_tokens {text : Text}
    (plain : ∀ c ∈ text, Text.isPathChar c = true ∨ c ∈ ['<', '>']) :
    ∃ tokens last, tokenize text none .standard = .ok (tokens ++ [last]) ∧ last.isEnd = true ∧
      tokens.map Token.word = words .standard text ∧
      (Lexer.ofSource (Source.ofDecoded false text) .unknown .standard false).drain.1 =
        tokens ++ [last] ∧
      (Source.ofDecoded false text).text = text := by
  have absent {c : Char} (other : Text.isPathChar c = false) (noBracket : c ∉ ['<', '>']) :
      c ∉ text := by
    intro inside
    obtain isPath | bracket := plain c inside
    · rw [isPath] at other
      cases other
    · exact noBracket bracket
  have isPlain : text.IsPlain :=
    ⟨absent rfl (by decide), fun join => absent (c := '\\') rfl (by decide) (join.subset (by simp))⟩
  have noMark : ¬Encoding.HasMark text := by
    rintro (mark | mark | mark)
    · exact absent (c := '\xef') rfl (by decide) (mark.subset (by simp))
    · exact absent (c := '\xff') rfl (by decide) (mark.subset (by simp))
    · exact absent (c := '\xfe') rfl (by decide) (mark.subset (by simp))
  have same := Source.text_ofDecoded_plain isPlain
  have all : _ = words .standard (Source.ofDecoded false text).text ++ [(.endOfFile, [])] :=
    Lexer.map_word_drain
      (l := Lexer.ofSource (Source.ofDecoded false text) .unknown .standard false) rfl rfl
  obtain ⟨tokens, lasts, drained, isWords, isLast⟩ := List.map_eq_append_iff.mp all
  obtain ⟨last, rfl, isEnd⟩ := List.map_eq_singleton_iff.mp isLast
  refine ⟨tokens, last, ?_, ?_, same ▸ isWords, drained, same⟩
  · rw [tokenize_of_not_hasMark noMark]
    exact congrArg _ drained
  · have kind : last.kind = .endOfFile := congrArg Prod.fst isEnd
    rw [Token.isEnd, kind]
    rfl

/-- A path between angle brackets is read as it is written, and all tokens are taken for it, unless
two slashes stand in it or its last token is `-`; with these there is no name. -/
theorem read?_angled {name : Text} (nonempty : name ≠ []) (path : name.IsPath) :
    ∃ tokens last own final,
      tokenize ('<' :: (name ++ ['>'])) none .standard = .ok (tokens ++ [last]) ∧
      last.isEnd = true ∧
      tokenize name none .standard = .ok (own ++ [final]) ∧ final.isEnd = true ∧
      (['/', '/'] <:+: name ∨ own.getLast?.any (·.isPunctuator ['-']) = true →
        read? (tokens ++ [last]) = none) ∧
      (¬(['/', '/'] <:+: name ∨ own.getLast?.any (·.isPunctuator ['-']) = true) →
        read? (tokens ++ [last]) = some ⟨name, .angled, tokens.length⟩) ∧
      (['/', '/'] <:+: name ∨ name.getLast? = some '-' ∨
        read? (tokens ++ [last]) = some ⟨name, .angled, tokens.length⟩) := by
  have bracketed : ∀ c ∈ '<' :: (name ++ ['>']), Text.isPathChar c = true ∨ c ∈ ['<', '>'] := by
    intro c inside
    obtain rfl | inside := List.mem_cons.mp inside
    · exact .inr List.mem_cons_self
    · obtain inside | inside := List.mem_append.mp inside
      · exact .inl (path c inside)
      · exact .inr (List.mem_cons_of_mem _ inside)
  obtain ⟨tokens, last, read, isEnd, -, drained, text⟩ := exists_tokens bracketed
  obtain ⟨own, final, ownRead, ownEnd, ownWords, -, -⟩ :=
    exists_tokens fun c inside => .inl (path c inside)
  have hides : name.HidesClose ↔
      ['/', '/'] <:+: name ∨ own.getLast?.any (·.isPunctuator ['-']) = true := by
    rw [Text.HidesClose, ← ownWords, List.getLast?_map]
    refine or_congr_right ?_
    cases own.getLast? with
    | none => simp
    | some token => simp [Token.word, Token.isPunctuator]
  obtain ⟨hidden, shown⟩ := read?_drain (l := Lexer.ofSource (Source.ofDecoded false
    ('<' :: (name ++ ['>']))) .unknown .standard false) ⟨rfl, rfl⟩ rfl text nonempty path
  rw [drained, List.length_append, List.length_singleton, Nat.add_sub_cancel] at shown
  rw [drained] at hidden
  refine ⟨tokens, last, own, final, read, isEnd, ownRead, ownEnd, ?_, ?_, ?_⟩
  · exact fun written => hidden (hides.mpr written)
  · exact fun written => shown (mt hides.mp written)
  · by_cases comment : ['/', '/'] <:+: name
    · exact .inl comment
    · by_cases hides : name.HidesClose
      · exact .inr (.inl (path.getLast?_of_hidesClose comment hides))
      · exact .inr (.inr (shown hides))

/-- In `<a//b>` a comment hides the end of the name. -/
theorem read?_angled_comment :
    ∃ tokens, tokenize "<a//b>".toList none .standard = .ok tokens ∧ read? tokens = none := by
  have path : Text.IsPath "a//b".toList := by
    intro c inside
    have all : "a//b".toList.all Text.isPathChar = true := by decide
    exact List.all_eq_true.mp all c inside
  obtain ⟨tokens, last, _, _, read, _, _, _, hidden, _⟩ :=
    @read?_angled "a//b".toList (by decide) path
  exact ⟨tokens ++ [last], read, hidden (.inl ⟨['a'], ['b'], rfl⟩)⟩

end IncludeName

end CPreprocessor
