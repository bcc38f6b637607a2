/-
# Where tokens are read

A lexer that passes over white space stands at an index of its source, and every token is read at
an index from there on: its lexeme is what the source holds at that index, and the token has the
place of the index, under the line and the name that the lexer presents (`Token.IsReadAt`). A line
feed is the last character of its line, so a token behind it stands on a later line
(`Source.line_place_lt`).
-/
import CPreprocessor.Proofs.Lexing.Bare
import CPreprocessor.Proofs.Lexing.Trivia
import CPreprocessor.Proofs.Reading.Items

namespace CPreprocessor

/-! ## Lines -/

namespace Normalization

/-- A logical line feed ends the line of its place. -/
theorem line_lt_advance {trigraphs : Bool} {c : Char} {rest : Text}
    (feed : (logical trigraphs c rest).char = '\n') (place : Position) :
    place.line < (place.advance ((logical trigraphs c rest).extra + 1) (c :: rest)).line := by
  have spelled := spells_logical trigraphs c rest
  generalize logical trigraphs c rest = head at spelled feed ⊢
  cases spelled with
  | trigraph on known =>
    cases feed
    unfold trigraph at known
    split at known <;> cases known
  | returnAndFeed => simp [Position.advance, Position.endsLine]
  | returnAlone noFeed => simp [Position.advance, Position.endsLine, noFeed]
  | plain =>
    obtain rfl : c = '\n' := feed
    simp [Position.advance, Position.endsLine]

/-- A line feed among the logical characters of a text is on a line before those of all later ones. -/
theorem pairwise_line_characters (trigraphs : Bool) (place : Position) (text : Text) :
    (characters trigraphs place text).1.Pairwise
        (fun one other => one.1 = '\n' → one.2.line < other.2.line) ∧
      ∀ one ∈ (characters trigraphs place text).1,
        one.1 = '\n' → one.2.line < (characters trigraphs place text).2.line := by
  fun_induction characters trigraphs place text with
  | case1 place => exact ⟨.nil, List.forall_mem_nil _⟩
  | case2 place c rest extra join ih => exact ih
  | case3 place c rest noJoin head located finish later ih =>
    have above := line_le_characters trigraphs (place.advance (head.extra + 1) (c :: rest))
      (rest.drop head.extra)
    rw [later] at ih above
    exact ⟨.cons (fun other present feed =>
        Nat.lt_of_lt_of_le (line_lt_advance feed place) (above.2 other present)) ih.1,
      List.forall_mem_cons.mpr
        ⟨fun feed => Nat.lt_of_lt_of_le (line_lt_advance feed place) above.1, ih.2⟩⟩

end Normalization

/-- A line feed is on a line before the one of any later index. -/
theorem Source.line_place_lt {trigraphs : Bool} {decoded : Text} {i j : Nat}
    (feed : (ofDecoded trigraphs decoded).text[i]? = some '\n') (before : i < j) :
    ((ofDecoded trigraphs decoded).place i).line <
      ((ofDecoded trigraphs decoded).place j).line := by
  obtain ⟨rises, ends⟩ := Normalization.pairwise_line_characters trigraphs {} decoded
  simp only [place, ofDecoded, List.getElem?_toArray, List.getElem?_map,
    Option.map_eq_some_iff] at feed ⊢
  generalize Normalization.characters trigraphs {} decoded = out at *
  obtain ⟨one, isNth, isFeed⟩ := feed
  obtain ⟨inside, rfl⟩ := List.getElem?_eq_some_iff.mp isNth
  rw [isNth]
  cases later : out.1[j]? with
  | none => exact ends _ (List.getElem_mem inside) isFeed
  | some other =>
    obtain ⟨inside', rfl⟩ := List.getElem?_eq_some_iff.mp later
    exact List.pairwise_iff_getElem.mp rises i j inside inside' before isFeed

/-! ## Tokens at an index -/

/-- The token is read at an index of the source of a lexer, which does not stand behind it. It has the
place of the index, and the line and the name under which the lexer presents it. -/
structure Token.IsReadAt (token : Token) (l : Lexer) (i : Nat) : Prop where
  ahead : l.index ≤ i
  nonempty : token.lexeme ≠ []
  lexeme : token.lexeme <+: l.source.text.drop i
  /-- No token starts with a line feed. -/
  noFeed : l.source.text[i]? ≠ some '\n'
  file : token.file = l.presented
  line : token.line = Lexer.lineNumber ((l.source.position i).line + l.lineShift)
  column : token.column = (l.source.position i).column
  offset : token.offset = (l.source.position i).offset

namespace Lexer

/-- The lexer passes over white space, has looked at no token, and stands at its index. -/
structure IsAtIndex (l : Lexer) : Prop extends IsBare l where
  rest : l.rest = l.source.text.drop l.index

/-- The second lexer is the first one, read on in its source. -/
structure ReadsOnTo (l after : Lexer) : Prop where
  isAtIndex : after.IsAtIndex
  source : after.source = l.source
  file : after.file = l.file
  presented : after.presented = l.presented
  lineShift : after.lineShift = l.lineShift
  index : l.index ≤ after.index

variable {l after last : Lexer}

theorem isAtIndex_ofSource (source : Source) (file : FileRef) (language : Language) :
    (ofSource source file language false).IsAtIndex :=
  ⟨⟨rfl, rfl⟩, rfl⟩

theorem ReadsOnTo.trans (goes : l.ReadsOnTo after) (more : after.ReadsOnTo last) : l.ReadsOnTo last where
  isAtIndex := more.isAtIndex
  source := more.source.trans goes.source
  file := more.file.trans goes.file
  presented := more.presented.trans goes.presented
  lineShift := more.lineShift.trans goes.lineShift
  index := Nat.le_trans goes.index more.index

theorem IsAtIndex.skipGap (stands : l.IsAtIndex) (acrossLines : Bool) :
    l.ReadsOnTo (l.skipGap acrossLines) := by
  refine ⟨⟨⟨stands.skips, stands.fresh⟩, ?_⟩, rfl, rfl, rfl, rfl, Nat.le_add_right _ _⟩
  simp only [Lexer.skipGap, stands.rest, List.drop_drop]

/-- A lexeme is read where the lexer stands. -/
theorem IsAtIndex.takeLexeme (stands : l.IsAtIndex) :
    l.ReadsOnTo l.takeLexeme.2 ∧
      (l.rest ≠ [] → l.rest.head? ≠ some '\n' → l.takeLexeme.1.IsReadAt l l.index) := by
  constructor
  · unfold Lexer.takeLexeme
    split
    · refine ⟨⟨⟨stands.skips, stands.fresh⟩, ?_⟩, rfl, rfl, rfl, rfl, Nat.le_refl _⟩
      exact stands.rest
    · refine ⟨⟨⟨stands.skips, stands.fresh⟩, ?_⟩, rfl, rfl, rfl, rfl, Nat.le_add_right _ _⟩
      simp only [take, stands.rest, List.drop_drop]
  · intro more noFeed
    have positive := Lexeme.length_read_pos l.language l.rest
    rw [Lexer.takeLexeme, if_neg more]
    refine ⟨Nat.le_refl _, ?_, ?_, ?_, rfl, rfl, rfl, rfl⟩
    · simp only [take, ne_eq, List.take_eq_nil_iff, more, or_false]
      omega
    · rw [← stands.rest]
      exact List.take_prefix _ _
    · rwa [stands.rest, List.head?_drop] at noFeed

/-- What is read at an index further on is read at it. -/
theorem ReadsOnTo.isReadAt (goes : l.ReadsOnTo after) {token : Token} {i : Nat}
    (reads : token.IsReadAt after i) : token.IsReadAt l i where
  ahead := Nat.le_trans goes.index reads.ahead
  nonempty := reads.nonempty
  lexeme := goes.source ▸ reads.lexeme
  noFeed := goes.source ▸ reads.noFeed
  file := reads.file.trans goes.presented
  line := by rw [reads.line, goes.source, goes.lineShift]
  column := by rw [reads.column, goes.source]
  offset := by rw [reads.offset, goes.source]

/-- The next token is read at an index, unless it ends the file. -/
theorem IsAtIndex.next (stands : l.IsAtIndex) :
    l.ReadsOnTo l.next.2 ∧ (l.next.1.isEnd = false → ∃ i, l.next.1.IsReadAt l i) := by
  have skipped := stands.skipGap true
  obtain ⟨goes, reads⟩ := skipped.isAtIndex.takeLexeme
  rw [stands.next_eq]
  refine ⟨skipped.trans goes, fun more => ⟨_, skipped.isReadAt (reads ?_ ?_)⟩⟩
  · intro nothing
    rw [Lexer.takeLexeme, if_pos nothing] at more
    cases more
  · intro feed
    have bare := Gap.starts_drop_read l.rest
    obtain ⟨rest, same⟩ := List.head?_eq_some_iff.mp feed
    rw [show l.rest.drop (Gap.read true l.rest).length = '\n' :: rest from same] at bare
    cases bare

/-- A token of the same line is read at an index. Where there is none, the line or the file ends. -/
theorem IsAtIndex.nextOnLine (stands : l.IsAtIndex) :
    l.ReadsOnTo l.nextOnLine.2 ∧ (∀ token ∈ l.nextOnLine.1, ∃ i, token.IsReadAt l i) ∧
      (l.nextOnLine.1 = none →
        l.nextOnLine.2.rest = [] ∨ l.nextOnLine.2.rest.head? = some '\n') := by
  have skipped := stands.skipGap false
  obtain ⟨goes, reads⟩ := skipped.isAtIndex.takeLexeme
  unfold Lexer.nextOnLine
  rw [stands.fresh]
  simp only []
  split
  · rename_i ends
    rw [Bool.or_eq_true, decide_eq_true_eq, decide_eq_true_eq] at ends
    exact ⟨skipped, by simp, fun _ => ends⟩
  · rename_i more
    rw [Bool.or_eq_true, decide_eq_true_eq, decide_eq_true_eq, not_or] at more
    refine ⟨skipped.trans goes, ?_, by simp⟩
    rintro token ⟨⟩
    exact ⟨_, skipped.isReadAt (reads more.1 more.2)⟩

/-- The tokens of the rest of a line are read at indices, and the lexer stops where the line or the
file ends. -/
theorem IsAtIndex.restOfLine (stands : l.IsAtIndex) :
    l.ReadsOnTo l.restOfLine.2 ∧ (∀ token ∈ l.restOfLine.1, ∃ i, token.IsReadAt l i) ∧
      (l.restOfLine.2.rest = [] ∨ l.restOfLine.2.rest.head? = some '\n') := by
  induction size : l.size using Nat.strongRecOn generalizing l with
  | ind n ih =>
    obtain ⟨goes, reads, ends⟩ := stands.nextOnLine
    cases found : l.nextOnLine.1 with
    | none =>
      rw [restOfLine_of_none found]
      exact ⟨goes, List.forall_mem_nil _, ends found⟩
    | some token =>
      obtain ⟨goes', others, ends'⟩ := ih _ (size ▸ size_nextOnLine_lt found) goes.isAtIndex rfl
      rw [restOfLine_of_some found]
      exact ⟨goes.trans goes', List.forall_mem_cons.mpr ⟨reads token found, fun other present =>
        (others other present).imp fun i reads => goes.isReadAt reads⟩, ends'⟩

end Lexer

end CPreprocessor
