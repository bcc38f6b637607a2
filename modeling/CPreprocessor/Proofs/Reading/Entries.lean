/-
# Lines that define macros and remove them

The configuration defines a macro with a line `#define`, and removes one with a line `#undef`.
What stands in the rest of such a line does not matter here (`Text.IsEntry`): a line end in
it would end it, so it is one directive, and nothing is left after it (`exists_item_entry`).
The line may lose its end to a backslash before it, but as a source of its own it is one
directive all the same.
-/
import CPreprocessor.Proofs.Lexing.Alone
import CPreprocessor.Proofs.Lexing.Standing
import CPreprocessor.Proofs.Reading.Parts
import CPreprocessor.Proofs.Run.LineStarts
import CPreprocessor.Proofs.Source.Lines

namespace CPreprocessor

/-- A hash before a word is read as a hash: no punctuator of the language goes on with the word. -/
def Language.SplitsHash (language : Language) : Prop :=
  ∀ p ∈ language.punctuators,
    Text.first p = '#' → Text.isIdentifierStart (Text.first (p.drop 1)) = false

instance (language : Language) : Decidable language.SplitsHash :=
  inferInstanceAs (Decidable (∀ p ∈ language.punctuators,
    Text.first p = '#' → Text.isIdentifierStart (Text.first (p.drop 1)) = false))

namespace Text

/-- The words after the hash of a line that defines a macro or removes one. -/
def entryWords : List Text :=
  ["define".toList, "undef".toList]

theorem exists_letter {word : Text} (known : word ∈ entryWords) :
    ∃ c letters, word = c :: letters ∧ isIdentifierStart c = true
      ∧ ∀ rest, Gap.starts (word ++ rest) = false := by
  simp only [entryWords, List.mem_cons, List.not_mem_nil, or_false] at known
  obtain rfl | rfl := known
  · exact ⟨'d', _, rfl, by decide, fun _ => rfl⟩
  · exact ⟨'u', _, rfl, by decide, fun _ => rfl⟩

/-- A line that defines a macro or removes one. -/
def IsEntry (line : Text) : Prop :=
  ∃ word ∈ entryWords, ∃ rest, line = '#' :: (word ++ ' ' :: rest) ++ ['\n']
    ∧ '\n' ∉ rest ∧ '\r' ∉ rest

/-- A text with a definition or a removal on its first line and nothing after this line. -/
def HoldsEntry (text : Text) : Prop :=
  ∃ word ∈ entryWords, ∃ rest, text = '#' :: (word ++ ' ' :: rest)
    ∧ ∀ after, '\n' :: after <:+ rest → after = []

end Text

/-! ## The characters of a line -/

namespace Normalization

/-- A line is its own text, or it loses a backslash and the line end after it. -/
theorem characters_line {part : Text} (noFeed : '\n' ∉ part) (noReturn : '\r' ∉ part)
    (place : Position) :
    (characters false place (part ++ ['\n'])).1.map Prod.fst = part ++ ['\n']
      ∨ part = (characters false place (part ++ ['\n'])).1.map Prod.fst ++ ['\\'] := by
  induction part generalizing place with
  | nil => exact .inl (characters_plain (by decide) (by decide))
  | cons c more ih =>
    rw [List.mem_cons, not_or] at noFeed noReturn
    rw [List.cons_append]
    by_cases joins : ['\\', '\n'] <+: c :: (more ++ ['\n'])
    · obtain ⟨after, same⟩ := joins
      obtain ⟨rfl, feed⟩ := List.cons.inj same
      obtain rfl : more = [] := by
        cases more with
        | nil => rfl
        | cons d more => exact absurd ((List.cons.inj feed).1 ▸ List.mem_cons_self) noFeed.2
      have join : lineJoin? false '\\' ['\n'] = some 1 := rfl
      right
      rw [List.nil_append, characters_of_join join, List.drop_succ_cons, List.drop_nil, characters_nil]
      rfl
    · rw [characters_cons_plain (by simp [noReturn]) joins]
      obtain plain | joined := ih noFeed.2 noReturn.2 (place.advance 1 (c :: (more ++ ['\n'])))
      · exact .inl (congrArg (c :: ·) plain)
      · exact .inr (congrArg (c :: ·) joined)

end Normalization

/-- As a source of its own an entry is an entry and nothing else. -/
theorem Text.IsEntry.holdsEntry {line : Text} (entry : line.IsEntry) :
    (Source.ofDecoded false line).text.HoldsEntry := by
  obtain ⟨word, known, rest, rfl, noFeed, noReturn⟩ := entry
  have inLine : '\n' ∉ word ∧ '\r' ∉ word := by
    revert word
    decide
  have last : ∀ after, '\n' :: after <:+ rest ++ ['\n'] → after = [] := by
    intro after suffix
    obtain nothing | ⟨before, ends, inside⟩ := List.suffix_concat_iff.mp suffix
    · cases nothing
    · cases before with
      | nil => exact (List.cons.inj ends).2
      | cons c before =>
        obtain ⟨rfl, -⟩ := List.cons.inj ends
        exact absurd (inside.subset List.mem_cons_self) noFeed
  have same := @Normalization.characters_line ('#' :: (word ++ ' ' :: rest))
    (by simp [noFeed, inLine]) (by simp [noReturn, inLine]) {}
  change (Source.ofDecoded false _).text = _ ∨ _ = (Source.ofDecoded false _).text ++ _ at same
  generalize (Source.ofDecoded false ('#' :: (word ++ ' ' :: rest) ++ ['\n'])).text = text at same ⊢
  obtain rfl | joined := same
  · refine ⟨word, known, rest ++ ['\n'], ?_, last⟩
    rw [List.cons_append, List.append_assoc, List.cons_append]
  · obtain rfl | ⟨init, final, rfl⟩ := List.eq_nil_or_concat rest
    · have blank := congrArg List.getLast? joined
      rw [← List.cons_append, List.getLast?_concat, List.getLast?_concat] at blank
      cases blank
    · rw [List.concat_eq_append] at joined noFeed
      have ends : ('#' :: (word ++ ' ' :: init)) ++ [final] = text ++ ['\\'] := by
        simpa using joined
      obtain ⟨same, -⟩ := List.append_inj' ends rfl
      refine ⟨word, known, init, same.symm, fun after suffix => ?_⟩
      exact absurd (List.mem_append_left _ (suffix.subset List.mem_cons_self)) noFeed

/-! ## The directive of a line -/

namespace Lexeme

variable {language : Language}

/-- A hash before a word is a punctuator of its own. -/
theorem read_hash_word (splits : language.SplitsHash) {c : Char}
    (starts : Text.isIdentifierStart c = true) (rest : Text) :
    read language ('#' :: c :: rest) = { kind := .punctuator, length := 1 } := by
  have short : language.punctuatorLength ('#' :: c :: rest) ≤ 1 := by
    rw [Language.punctuatorLength_le]
    intro p known isPrefix
    rcases p with _ | ⟨first, _ | ⟨second, more⟩⟩
    · exact Nat.zero_le 1
    · exact Nat.le_refl 1
    · obtain ⟨hash, isPrefix⟩ := List.cons_prefix_cons.mp isPrefix
      obtain ⟨rfl, -⟩ := List.cons_prefix_cons.mp isPrefix
      have noWord : Text.isIdentifierStart second = false := splits _ known hash
      exact absurd (starts.symm.trans noWord) (by decide)
  rw [read_punctuator language rfl rfl rfl, Nat.max_eq_left short]

/-- The word after the hash is a name. -/
theorem read_entryWord (language : Language) {word : Text} (known : word ∈ Text.entryWords) (rest : Text) :
    ∃ kind, read language (word ++ ' ' :: rest) = { kind, length := word.length }
      ∧ (kind = .identifier ∨ kind = .keyword) := by
  have name : read language (word ++ ' ' :: rest) = readName language (word ++ ' ' :: rest)
      ∧ (readName language (word ++ ' ' :: rest)).length = word.length := by
    simp only [Text.entryWords, List.mem_cons, List.not_mem_nil, or_false] at known
    obtain rfl | rfl := known
    · exact ⟨read_name language rfl rfl rfl, rfl⟩
    · exact ⟨read_name language rfl rfl rfl, rfl⟩
  refine ⟨_, name.1.trans (congrArg (Lexeme.mk _ · none) name.2), ?_⟩
  split
  · exact .inr rfl
  · exact .inl rfl

end Lexeme

theorem DirectiveKind.ofName_entryWord {name : Token}
    (isName : name.kind = .identifier ∨ name.kind = .keyword) (known : name.lexeme ∈ Text.entryWords) :
    ofName (some name) = .define ∨ ofName (some name) = .undef := by
  have named : ofName (some name) = (DirectiveKind.named.lookup name.lexeme).getD unknown := by
    obtain kind | kind := isName <;> simp [ofName, Token.isName, kind]
  rw [named]
  simp only [Text.entryWords, List.mem_cons, List.not_mem_nil, or_false] at known
  obtain same | same := known
  · rw [same]
    exact .inl rfl
  · rw [same]
    exact .inr rfl

namespace Lexer

variable {l : Lexer}

theorem IsBare.suffix_nextOnLine (bare : l.IsBare) :
    l.nextOnLine.2.rest <:+ l.rest
      ∧ (l.nextOnLine.1 = none → l.nextOnLine.2.rest = [] ∨ l.nextOnLine.2.rest.head? = some '\n') := by
  unfold Lexer.nextOnLine
  rw [bare.fresh]
  simp only []
  split
  · rename_i ends
    rw [Bool.or_eq_true, decide_eq_true_eq, decide_eq_true_eq] at ends
    exact ⟨List.drop_suffix _ _, fun _ => ends⟩
  · refine ⟨?_, by simp⟩
    unfold Lexer.takeLexeme
    split <;> exact (List.drop_suffix _ _).trans (List.drop_suffix _ _)

/-- Where no gap starts, the next token of the line is the lexeme there. -/
theorem IsBare.nextOnLine_of_not_starts (bare : l.IsBare) (more : l.rest ≠ [])
    (noGap : Gap.starts l.rest = false) : l.nextOnLine = (some l.takeLexeme.1, l.takeLexeme.2) := by
  have gap : Gap.read false l.rest = {} := Gap.read_blanks (List.forall_mem_nil _) (.inl noGap)
  have same : l.skipGap false = l := by
    simp [Lexer.skipGap, gap]
  have noFeed : l.rest.head? ≠ some '\n' := by
    intro feed
    obtain ⟨rest, same⟩ := List.head?_eq_some_iff.mp feed
    rw [same] at noGap
    cases noGap
  rw [Lexer.nextOnLine, bare.fresh]
  simp only [same, more, noFeed, decide_false, Bool.or_self, Bool.false_eq_true, if_false]

/-- A line is read up to its end. -/
theorem IsBare.suffix_restOfLine (bare : l.IsBare) (inLine : l.atLineStart = false) :
    l.restOfLine.2.rest <:+ l.rest
      ∧ (l.restOfLine.2.rest = [] ∨ l.restOfLine.2.rest.head? = some '\n') := by
  induction more : l.size using Nat.strongRecOn generalizing l with
  | ind size ih =>
    obtain ⟨suffix, ends⟩ := bare.suffix_nextOnLine
    cases found : l.nextOnLine.1 with
    | none =>
      rw [restOfLine_of_none found]
      exact ⟨suffix, ends found⟩
    | some token =>
      obtain ⟨bare', inLine', -⟩ := bare.nextOnLine inLine
      obtain ⟨later, atEnd⟩ := ih _ (more ▸ size_nextOnLine_lt found) bare' inLine' rfl
      rw [restOfLine_of_some found]
      exact ⟨later.trans suffix, atEnd⟩

/-- At the last line end of a file the file ends. -/
theorem IsBare.isEnd_next (bare : l.IsBare) (ends : l.rest = [] ∨ l.rest = ['\n']) :
    l.next.1.isEnd = true := by
  have word := next_of_end bare.skips bare.fresh (by
    obtain nothing | feed := ends
    · rw [nothing, List.drop_nil]
    · rw [feed, Gap.read_cons, Gap.read_nil]
      rfl)
  have kind : l.next.1.kind = .endOfFile := congrArg Prod.fst word
  simp [Token.isEnd, kind]

section Entry

variable {word rest : Text} (known : word ∈ Text.entryWords)
include known

/-- The hash of an entry starts a directive. -/
theorem IsBare.next_entry (bare : l.IsBare) (splits : l.language.SplitsHash)
    (starts : l.atLineStart = true) (text : l.rest = '#' :: (word ++ ' ' :: rest)) :
    l.next.1.isEnd = false ∧ Reader.startsDirective l.next.1 = true
      ∧ l.next.2.rest = word ++ ' ' :: rest := by
  obtain ⟨c, letters, written, letter, -⟩ := Text.exists_letter known
  have hash : l.next = l.take .punctuator 1 none := by
    rw [next_of_not_starts bare.fresh (by rw [text]; rfl), Lexer.takeLexeme, if_neg (by simp [text]),
      text, written, List.cons_append, Lexeme.read_hash_word splits letter]
  rw [hash]
  refine ⟨by simp [Lexer.take, Token.isEnd], ?_, ?_⟩
  · simp [Reader.startsDirective, Lexer.take, Token.isHash, Token.isPunctuator, text, starts]
  · show l.rest.drop 1 = _
    rw [text, List.drop_succ_cons, List.drop_zero]

/-- The word of an entry is the name of its directive. -/
theorem IsBare.nextOnLine_entry (bare : l.IsBare) (text : l.rest = word ++ ' ' :: rest) :
    ∃ name, l.nextOnLine.1 = some name ∧ name.lexeme = word
      ∧ (name.kind = .identifier ∨ name.kind = .keyword) ∧ l.nextOnLine.2.rest = ' ' :: rest := by
  obtain ⟨-, -, -, -, noGap⟩ := Text.exists_letter known
  obtain ⟨kind, reads, isName⟩ := Lexeme.read_entryWord l.language known rest
  have more : l.rest ≠ [] := by simp [text]
  rw [bare.nextOnLine_of_not_starts more (by rw [text, noGap]), Lexer.takeLexeme, if_neg more, text,
    reads]
  refine ⟨_, rfl, ?_, isName, ?_⟩
  · show l.rest.take word.length = _
    rw [text, List.take_left]
  · show l.rest.drop word.length = _
    rw [text, List.drop_left]

end Entry

/-- A text with one entry is one directive, which defines a macro or removes one. -/
theorem IsBare.exists_item_entry (bare : l.IsBare) (splits : l.language.SplitsHash)
    (starts : l.atLineStart = true) (entry : l.rest.HoldsEntry) :
    ∃ d after final last, l.item = (.directive d, after) ∧ after.item = (.finish final, last)
      ∧ (d.kind = .define ∨ d.kind = .undef) := by
  obtain ⟨word, known, rest, text, last⟩ := entry
  obtain ⟨goesOn, isHash, left⟩ := bare.next_entry known splits starts text
  obtain ⟨bare', inLine⟩ := bare.next
  obtain ⟨name, read, lexeme, isName, tail⟩ := bare'.nextOnLine_entry known left
  obtain ⟨bare'', inLine', -⟩ := bare'.nextOnLine inLine
  obtain ⟨suffix, atEnd⟩ := bare''.suffix_restOfLine inLine'
  have item := item_of_startsDirective goesOn isHash
  rw [Lexer.directive, restOfLine_of_some read] at item
  refine ⟨_, _, _, _, item, item_of_isEnd ((bare''.restOfLine inLine').1.isEnd_next ?_), ?_⟩
  · refine atEnd.imp_right fun feed => ?_
    obtain ⟨after, same⟩ := List.head?_eq_some_iff.mp feed
    rw [tail, same] at suffix
    obtain whole | inside := List.suffix_cons_iff.mp suffix
    · cases whole
    · rw [same, last after inside]
  · exact DirectiveKind.ofName_entryWord isName (by rw [lexeme]; exact known)

end Lexer

end CPreprocessor
