/-
# The words of a text

Apart from their places, the tokens of a text are its words: the kinds and lexemes
that stand between its gaps. A lexer that skips white space reads exactly them, and
every token of any lexer was read as a lexeme somewhere in the text.
-/
import CPreprocessor.Token.Lexer
import CPreprocessor.Proofs.Lexing.Gap
import CPreprocessor.Proofs.Lexing.Lexeme

namespace CPreprocessor

/-- What is written of a token. -/
def Token.word (token : Token) : TokenKind × Text :=
  (token.kind, token.lexeme)

/-- The words of a text in logical characters. -/
def words (language : Language) (text : Text) : List (TokenKind × Text) :=
  let bare := text.drop (Gap.read true text).length
  if _more : bare = [] then
    []
  else
    let lexeme := Lexeme.read language bare
    (lexeme.kind, bare.take lexeme.length) :: words language (bare.drop lexeme.length)
  termination_by text.length
  decreasing_by
    have positive := Lexeme.length_read_pos language (text.drop (Gap.read true text).length)
    have nonempty := List.length_pos_iff.mpr _more
    simp only [bare, List.length_drop] at nonempty ⊢
    omega

variable {language : Language}

theorem words_nil (language : Language) : words language [] = [] := by
  rw [words]
  simp

/-- A blank before a text changes nothing. -/
theorem words_blank (language : Language) (text : Text) :
    words language (' ' :: text) = words language text := by
  have same : (' ' :: text).drop (Gap.read true (' ' :: text)).length =
      text.drop (Gap.read true text).length := by
    rw [Gap.read_blank, Gap.after, Nat.add_comm, List.drop_succ_cons]
  rw [words, words]
  simp only [same]

/-- The words of a text that starts with a lexeme. -/
theorem words_of_not_starts {text : Text} (nonempty : text ≠ []) (bare : Gap.starts text = false) :
    words language text =
      ((Lexeme.read language text).kind, text.take (Lexeme.read language text).length) ::
        words language (text.drop (Lexeme.read language text).length) := by
  rw [words]
  simp only [Gap.read_of_not_starts bare, List.drop_zero, nonempty, dite_false]

/-- The first word of a text is read after its gap. -/
theorem words_eq_cons {text : Text} {word : TokenKind × Text} {others : List (TokenKind × Text)}
    (start : words language text = word :: others) :
    ∃ bare, bare = text.drop (Gap.read true text).length ∧ bare ≠ [] ∧
      word = ((Lexeme.read language bare).kind, bare.take (Lexeme.read language bare).length) ∧
      words language (bare.drop (Lexeme.read language bare).length) = others := by
  rw [words] at start
  simp only at start
  split_ifs at start with more
  rw [List.cons.injEq] at start
  exact ⟨_, rfl, more, start.1.symm, start.2⟩

/-- Words fit into their text. -/
theorem length_flatMap_words_le (language : Language) (text : Text) :
    ((words language text).flatMap Prod.snd).length ≤ text.length := by
  induction size : text.length using Nat.strongRecOn generalizing text with
  | ind n ih =>
      subst size
      cases start : words language text with
      | nil => exact Nat.zero_le _
      | cons word others =>
          obtain ⟨bare, same, more, rfl, rest⟩ := words_eq_cons start
          have positive := Lexeme.length_read_pos language bare
          have nonempty := List.length_pos_iff.mpr more
          have shorter : bare.length ≤ text.length := by
            rw [same, List.length_drop]
            omega
          have later := ih (bare.drop (Lexeme.read language bare).length).length
            (by rw [List.length_drop]; omega) _ rfl
          rw [rest, List.length_drop] at later
          rw [List.flatMap_cons, List.length_append, List.length_take]
          omega

/-- Words are made of the characters of their text. -/
theorem mem_of_mem_words {text : Text} {word : TokenKind × Text} {c : Char}
    (isWord : word ∈ words language text) (present : c ∈ word.2) : c ∈ text := by
  induction size : text.length using Nat.strongRecOn generalizing text with
  | ind n ih =>
      subst size
      cases start : words language text with
      | nil =>
          rw [start] at isWord
          cases isWord
      | cons first others =>
          obtain ⟨bare, same, more, rfl, rest⟩ := words_eq_cons start
          have inside : ∀ d ∈ bare, d ∈ text := fun d there => List.mem_of_mem_drop (same ▸ there)
          rw [start, List.mem_cons] at isWord
          rcases isWord with rfl | later
          · exact inside c (List.mem_of_mem_take present)
          · have positive := Lexeme.length_read_pos language bare
            have nonempty := List.length_pos_iff.mpr more
            have shorter : bare.length ≤ text.length := by
              rw [same, List.length_drop]
              omega
            have found := ih (bare.drop (Lexeme.read language bare).length).length
              (by rw [List.length_drop]; omega) (rest ▸ later) rfl
            exact inside c (List.mem_of_mem_drop found)

namespace Lexer

theorem drain_eq (l : Lexer) :
    l.drain =
      if l.next.1.isEnd then ([l.next.1], l.next.2)
      else (l.next.1 :: l.next.2.drain.1, l.next.2.drain.2) := by
  rw [drain]
  split
  rename_i token after taken
  rw [taken]
  cases token.isEnd with
  | true => rfl
  | false => rfl

theorem drain_ne_nil (l : Lexer) : l.drain.1 ≠ [] := by
  rw [drain_eq]
  split <;> exact List.cons_ne_nil _ _

/-- A lexer that skips white space ends where only a gap is left. -/
theorem next_of_end {l : Lexer} (skips : l.keepsTrivia = false) (fresh : l.peeked = none)
    (ends : l.rest.drop (Gap.read true l.rest).length = []) :
    l.next.1.word = (.endOfFile, []) := by
  have same : (l.skipGap true).rest = [] := ends
  simp only [next, fresh, read, skips, Bool.false_eq_true, if_false, takeLexeme, same, if_true,
    takeEnd, take, Token.word, List.take_nil]

/-- A lexer that skips white space takes the lexeme after the gap. -/
theorem next_of_more {l : Lexer} (skips : l.keepsTrivia = false) (fresh : l.peeked = none) {bare : Text}
    (gap : bare = l.rest.drop (Gap.read true l.rest).length) (more : bare ≠ []) :
    l.next.1.word =
        ((Lexeme.read l.language bare).kind, bare.take (Lexeme.read l.language bare).length) ∧
      l.next.1.error = (Lexeme.read l.language bare).error ∧
      l.next.2.rest = bare.drop (Lexeme.read l.language bare).length ∧
      l.next.2.language = l.language ∧ l.next.2.keepsTrivia = false ∧ l.next.2.peeked = none := by
  have same : (l.skipGap true).rest = bare := gap.symm
  have taken : l.next = (l.skipGap true).take (Lexeme.read l.language bare).kind
      (Lexeme.read l.language bare).length (Lexeme.read l.language bare).error := by
    simp only [next, fresh, read, skips, Bool.false_eq_true, if_false, takeLexeme, same, more]
    rfl
  rw [taken, ← same]
  exact ⟨rfl, rfl, rfl, rfl, skips, fresh⟩

/-- A lexer that skips white space reads the words of its text and the end of the file. -/
theorem map_word_drain {l : Lexer} (skips : l.keepsTrivia = false) (fresh : l.peeked = none) :
    l.drain.1.map Token.word = words l.language l.rest ++ [(.endOfFile, [])] := by
  induction size : l.rest.length using Nat.strongRecOn generalizing l with
  | ind n ih =>
      subst size
      by_cases more : l.rest.drop (Gap.read true l.rest).length = []
      · have ends := next_of_end skips fresh more
        have isEnd : l.next.1.isEnd = true := by
          have kind : l.next.1.kind = .endOfFile := congrArg Prod.fst ends
          rw [Token.isEnd, kind]
          rfl
        rw [drain_eq, isEnd, if_pos rfl, words]
        simp only [more, dite_true, List.map_cons, List.map_nil, List.nil_append, ends]
      · obtain ⟨word, -, rest, language, skips', fresh'⟩ := next_of_more skips fresh rfl more
        have noEnd : l.next.1.isEnd = false := by
          have kind : l.next.1.kind = _ := congrArg Prod.fst word
          rw [Token.isEnd, kind]
          exact beq_false_of_ne (Lexeme.kind_read_ne _ _).2.2
        have shorter : l.next.2.rest.length < l.rest.length := by
          have positive := Lexeme.length_read_pos l.language (l.rest.drop (Gap.read true l.rest).length)
          have nonempty := List.length_pos_iff.mpr more
          rw [rest, List.length_drop]
          rw [List.length_drop] at nonempty ⊢
          omega
        rw [drain_eq, noEnd, if_neg Bool.false_ne_true, words]
        simp only [more, dite_false, List.map_cons, List.cons_append, word]
        rw [ih _ shorter skips' fresh' rfl, language, rest]

/-! ## Where tokens stand -/

/-- A token is read as a lexeme somewhere in a text, where no gap stands. -/
def ReadsIn (language : Language) (text : Text) (token : Token) : Prop :=
  ∃ rest, token.lexeme ++ rest <:+ text ∧ token.lexeme ≠ [] ∧
    Gap.starts (token.lexeme ++ rest) = false ∧
    Lexeme.read language (token.lexeme ++ rest) =
      ⟨token.kind, token.lexeme.length, token.error⟩

theorem ReadsIn.of_suffix {text part : Text} {token : Token} (reads : ReadsIn language part token)
    (suffix : part <:+ text) : ReadsIn language text token := by
  obtain ⟨rest, inside, others⟩ := reads
  exact ⟨rest, inside.trans suffix, others⟩

/-- The lexeme taken where no gap stands. -/
theorem readsIn_takeLexeme {l : Lexer} (more : l.rest ≠ []) (bare : Gap.starts l.rest = false) :
    ReadsIn l.language l.rest l.takeLexeme.1 := by
  have positive := Lexeme.length_read_pos l.language l.rest
  have inside := Lexeme.length_read_le l.language more
  have lexeme : l.takeLexeme.1.lexeme = l.rest.take (Lexeme.read l.language l.rest).length := by
    rw [takeLexeme, if_neg more]
    rfl
  have split : l.takeLexeme.1.lexeme ++ l.rest.drop (Lexeme.read l.language l.rest).length = l.rest := by
    rw [lexeme, List.take_append_drop]
  refine ⟨l.rest.drop (Lexeme.read l.language l.rest).length, ?_, ?_, ?_, ?_⟩
  · exact ⟨[], split⟩
  · intro empty
    have none := congrArg List.length (lexeme.symm.trans empty)
    rw [List.length_take, List.length_nil] at none
    omega
  · rw [split, bare]
  · rw [split, lexeme, List.length_take, Nat.min_eq_left inside, takeLexeme, if_neg more]
    rfl

/-- Taking a lexeme where no gap stands. -/
theorem takeLexeme_cases {l : Lexer} (bare : Gap.starts l.rest = false) :
    (l.takeLexeme.1.kind = .endOfFile ∨ ReadsIn l.language l.rest l.takeLexeme.1) ∧
      l.takeLexeme.2.rest <:+ l.rest ∧ l.takeLexeme.2.language = l.language ∧
      l.takeLexeme.2.peeked = l.peeked := by
  by_cases more : l.rest = []
  · rw [takeLexeme, if_pos more]
    exact ⟨.inl rfl, List.drop_suffix _ _, rfl, rfl⟩
  · have reads := readsIn_takeLexeme more bare
    rw [takeLexeme, if_neg more] at reads ⊢
    exact ⟨.inr reads, List.drop_suffix _ _, rfl, rfl⟩

/-- Taking white space or a comment. -/
theorem takeTrivia?_eq_some {l : Lexer} {token : Token} {after : Lexer}
    (taken : l.takeTrivia? = some (token, after)) :
    (token.kind = .comment ∨ token.kind = .whitespace) ∧
      after.rest <:+ l.rest ∧ after.language = l.language ∧ after.peeked = l.peeked := by
  unfold takeTrivia? at taken
  simp only at taken
  split_ifs at taken
  · cases taken
    exact ⟨.inr rfl, List.drop_suffix _ _, rfl, rfl⟩
  · cases taken
    exact ⟨.inl rfl, List.drop_suffix _ _, rfl, rfl⟩
  · cases taken
    exact ⟨.inl rfl, List.drop_suffix _ _, rfl, rfl⟩

/-- Where there is no white space or comment to take, no gap starts. -/
theorem starts_of_takeTrivia? {l : Lexer} (nothing : l.takeTrivia? = none) :
    Gap.starts l.rest = false := by
  unfold takeTrivia? at nothing
  simp only at nothing
  split_ifs at nothing with white line block
  cases same : l.rest with
  | nil => rfl
  | cons c rest =>
      rw [same] at white line block
      have noWhite : ¬ (c = '\n' ∨ Text.isBlank c = true) := by
        intro isWhite
        rw [List.takeWhile_cons_of_pos (by simpa using isWhite)] at white
        exact white (List.cons_ne_nil _ _)
      have noComment (second : Char) (opening : c = '/' ∧ Text.first rest = second)
          (visible : second ≠ Text.nul) : (c :: rest).take 2 = ['/', second] := by
        cases rest with
        | nil => exact (visible opening.2.symm).elim
        | cons d rest => rw [opening.1, ← opening.2]; rfl
      rw [Bool.eq_false_iff, ne_eq, Gap.starts]
      simp only [Bool.or_eq_true, Bool.and_eq_true, decide_eq_true_eq]
      rintro (isWhite | ⟨slash, second | second⟩)
      · exact noWhite isWhite
      · exact line (noComment '/' ⟨slash, second⟩ (by decide))
      · exact block (noComment '*' ⟨slash, second⟩ (by decide))

/-- What a lexer takes: a gap, the end of the file, or a lexeme; and it goes on in the same text. -/
theorem next_cases {l : Lexer} (fresh : l.peeked = none) :
    (l.next.1.kind = .comment ∨ l.next.1.kind = .whitespace ∨ l.next.1.kind = .endOfFile ∨
        ReadsIn l.language l.rest l.next.1) ∧
      l.next.2.rest <:+ l.rest ∧ l.next.2.language = l.language ∧ l.next.2.peeked = none := by
  have reading : l.next = l.read := by
    rw [next, fresh]
  rw [reading, read]
  cases keeps : l.keepsTrivia with
  | true =>
      rw [if_pos rfl]
      cases trivia : l.takeTrivia? with
      | some taken =>
          obtain ⟨token, after⟩ := taken
          obtain ⟨kind, suffix, language, peeked⟩ := takeTrivia?_eq_some trivia
          exact ⟨kind.imp_right .inl, suffix, language, peeked.trans fresh⟩
      | none =>
          obtain ⟨taken, suffix, language, peeked⟩ := takeLexeme_cases (starts_of_takeTrivia? trivia)
          exact ⟨.inr (.inr taken), suffix, language, peeked.trans fresh⟩
  | false =>
      rw [if_neg Bool.false_ne_true]
      have inside : (l.skipGap true).rest <:+ l.rest := List.drop_suffix _ _
      obtain ⟨taken, suffix, language, peeked⟩ :=
        takeLexeme_cases (l := l.skipGap true) (Gap.starts_drop_read l.rest)
      exact ⟨.inr (.inr (taken.imp_right fun reads => reads.of_suffix inside)),
        suffix.trans inside, language, peeked.trans fresh⟩

/-- Every token of a lexer that is no gap was read as a lexeme. -/
theorem readsIn_of_mem_drain {l : Lexer} (fresh : l.peeked = none) {token : Token}
    (produced : token ∈ l.drain.1) (noComment : token.kind ≠ .comment)
    (noWhitespace : token.kind ≠ .whitespace) (noEnd : token.kind ≠ .endOfFile) :
    ReadsIn l.language l.rest token := by
  induction size : l.size using Nat.strongRecOn generalizing l with
  | ind n ih =>
      subst size
      obtain ⟨taken, suffix, language, fresh'⟩ := next_cases fresh
      have here (same : token = l.next.1) : ReadsIn l.language l.rest token := by
        subst same
        rcases taken with comment | whitespace | ends | reads
        · exact (noComment comment).elim
        · exact (noWhitespace whitespace).elim
        · exact (noEnd ends).elim
        · exact reads
      rw [drain_eq] at produced
      cases isEnd : l.next.1.isEnd with
      | true =>
          rw [isEnd, if_pos rfl, List.mem_singleton] at produced
          exact here produced
      | false =>
          rw [isEnd, if_neg Bool.false_ne_true, List.mem_cons] at produced
          rcases produced with same | later
          · exact here same
          · have reads := ih _ (size_next_lt isEnd) fresh' later rfl
            rw [language] at reads
            exact reads.of_suffix suffix

end Lexer

end CPreprocessor
