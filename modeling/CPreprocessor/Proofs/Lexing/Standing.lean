/-
# Where a lexer stands

In a plain text the logical characters are the bytes, and the line of each of them is known
from the line feeds before it. So a lexer that has read a part of a plain text stands on a
line that only the line feeds it reads move on (`Standing`): `takeLexeme_skipGap` says what
it makes of a gap of white space and the lexeme after it.
-/
import CPreprocessor.Proofs.Lexing.Words
import CPreprocessor.Proofs.Source.Lines

namespace CPreprocessor

/-- A text that is its own source: it holds no carriage return and no line join. -/
structure Text.IsPlain (text : Text) : Prop where
  noReturn : '\r' ∉ text
  noLineJoin : ¬ ['\\', '\n'] <:+: text

/-- White space of any kind. -/
def Text.IsWhite (text : Text) : Prop :=
  ∀ c ∈ text, c = '\n' ∨ isBlank c = true

/-! ## Lines of a plain text -/

namespace Position

theorem line_advance_one (place : Position) {c : Char} (noReturn : c ≠ '\r') (rest : Text) :
    (place.advance 1 (c :: rest)).line = place.line + [c].count '\n' := by
  by_cases feed : c = '\n'
  · simp [advance, endsLine, feed]
  · simp [advance, endsLine, feed, noReturn]

end Position

theorem Text.IsPlain.of_cons {c : Char} {rest : Text} (plain : IsPlain (c :: rest)) :
    IsPlain rest :=
  ⟨fun present => plain.noReturn (List.mem_cons_of_mem c present),
    fun inside => plain.noLineJoin (inside.trans (List.suffix_cons c rest).isInfix)⟩

theorem Text.IsPlain.noJoinAtStart {text : Text} (plain : text.IsPlain) :
    ¬ ['\\', '\n'] <+: text :=
  fun starts => plain.noLineJoin starts.isInfix

/-- The lines of a text without carriage returns can be counted with 32 bits. -/
def Text.CountsLines (text : Text) : Prop :=
  text.count '\n' + 1 < Nat.pow 2 32

namespace Source

open Normalization

/-- The text of a plain source is the text it is made from. -/
theorem text_ofDecoded_plain {text : Text} (plain : text.IsPlain) :
    (ofDecoded false text).text = text :=
  characters_plain plain.noReturn plain.noLineJoin

theorem line_characters {first rest : Text} (plain : (first ++ rest).IsPlain) (place : Position) :
    ((((characters false place (first ++ rest)).1.map Prod.snd)[first.length]?).getD
        (characters false place (first ++ rest)).2).line
      = place.line + first.count '\n' := by
  induction first generalizing place with
  | nil =>
    rw [List.nil_append] at plain
    cases rest with
    | nil =>
      rw [List.nil_append, characters_nil]
      rfl
    | cons c rest =>
      rw [List.nil_append, characters_cons_plain plain.noReturn plain.noJoinAtStart]
      rfl
  | cons c first ih =>
    rw [List.cons_append] at plain ⊢
    have noReturn : c ≠ '\r' := fun same => plain.noReturn (same ▸ List.mem_cons_self)
    rw [characters_cons_plain plain.noReturn plain.noJoinAtStart, List.map_cons, List.length_cons,
      List.getElem?_cons_succ, ih plain.of_cons, place.line_advance_one noReturn, Nat.add_assoc,
      ← List.count_append, List.singleton_append]

/-- A place in a plain text is on the line that the line feeds before it make. -/
theorem line_place {first rest : Text} (plain : (first ++ rest).IsPlain) :
    ((ofDecoded false (first ++ rest)).place first.length).line = 1 + first.count '\n' := by
  have line := line_characters plain {}
  simpa only [place, ofDecoded, List.getElem?_toArray] using line

end Source

/-! ## White space before a lexeme -/

/-- White space is a gap. It starts a new line if there is a line feed in it. -/
theorem Gap.read_white {white rest : Text} (isWhite : white.IsWhite) (bare : starts rest = false) :
    read true (white ++ rest) = { length := white.length, newline := white.contains '\n' } := by
  induction white with
  | nil => exact read_of_not_starts bare
  | cons c white ih =>
    obtain ⟨here, later⟩ := List.forall_mem_cons.mp isWhite
    rw [List.cons_append, read_cons, ih later]
    by_cases feed : c = '\n'
    · subst feed
      simp [after, Nat.add_comm]
    · have blank := here.resolve_left feed
      simp [after, feed, blank, Nat.add_comm, Ne.symm feed]

/-- Blanks are a gap on their line. -/
theorem Gap.read_blanks {blanks rest : Text} (areBlank : ∀ c ∈ blanks, Text.isBlank c = true)
    (bare : starts rest = false ∨ Text.first rest = '\n') :
    read false (blanks ++ rest) = { length := blanks.length } := by
  induction blanks with
  | nil =>
    rw [List.nil_append]
    cases rest with
    | nil => exact read_nil false
    | cons c rest =>
      rw [read_cons]
      by_cases feed : c = '\n'
      · simp [feed]
      · have bare := bare.resolve_right feed
        simp only [starts, Bool.or_eq_false_iff, Bool.and_eq_false_iff, decide_eq_false_iff_not,
          Text.first_cons, List.drop_succ_cons, List.drop_zero] at bare
        obtain ⟨⟨-, blank⟩, comment⟩ := bare
        rw [if_neg feed, blank, if_neg Bool.false_ne_true]
        rcases comment with slash | ⟨line, block⟩
        · rw [decide_eq_false (of_decide_eq_false slash)]
          rfl
        · rw [decide_eq_false line, decide_eq_false block, Bool.and_false]
          rfl
  | cons c blanks ih =>
    obtain ⟨blank, later⟩ := List.forall_mem_cons.mp areBlank
    have noFeed : c ≠ '\n' := by
      rintro rfl
      cases blank
    rw [List.cons_append, read_cons, ih later, if_neg noFeed, if_pos blank]
    simp [after, Nat.add_comm]

namespace Lexer

/-- The lexer has read a part of a plain text and looks at nothing ahead. -/
structure StandsAfter (l : Lexer) (text part : Text) : Prop where
  plain : text.IsPlain
  source : l.source = Source.ofDecoded false text
  whole : part ++ l.rest = text
  index : l.index = part.length
  language : l.language = .standard
  skips : l.keepsTrivia = false
  fresh : l.peeked = none

/-- The line on which the next character is presented. -/
def presentedLine (l : Lexer) : Int :=
  (l.source.position l.index).line + l.lineShift

variable {l : Lexer} {text part : Text}

theorem StandsAfter.line (stands : l.StandsAfter text part) (fits : text.CountsLines) :
    (l.source.position l.index).line = 1 + part.count '\n' := by
  have plain := stands.plain
  rw [← stands.whole] at plain
  have inside : 1 + part.count '\n' < Nat.pow 2 32 := by
    rw [Text.CountsLines, ← stands.whole, List.count_append] at fits
    omega
  rw [stands.source, stands.index, ← stands.whole, Source.position, Position.reported,
    Source.line_place plain]
  exact Nat.mod_eq_of_lt inside

/-- A lexer at the start of a plain text. -/
theorem standsAfter_ofSource (plain : text.IsPlain) (file : FileRef) :
    (ofSource (Source.ofDecoded false text) file .standard false).StandsAfter text [] :=
  ⟨plain, rfl, Source.text_ofDecoded_plain plain, rfl, rfl, rfl, rfl⟩

/-- What becomes of a lexer that reads white space and a lexeme: where it stands, how it goes on, and
the token that it gives. -/
structure Takes (l : Lexer) (text part white w after : Text) (lexeme : Lexeme)
    (taken : Token × Lexer) : Prop where
  stands : taken.2.StandsAfter text (part ++ white ++ w)
  rest : taken.2.rest = after
  inLine : taken.2.atLineStart = false
  file : taken.2.file = l.file
  presented : taken.2.presented = l.presented
  line : text.CountsLines →
    taken.2.presentedLine = l.presentedLine + white.count '\n' + w.count '\n'
  word : taken.1.word = (lexeme.kind, w)
  error : taken.1.error = lexeme.error
  atLineStart : taken.1.atLineStart = (l.atLineStart || white.contains '\n')
  tokenFile : taken.1.file = l.presented
  tokenLine : text.CountsLines → taken.1.line = lineNumber (l.presentedLine + white.count '\n')
  calls : taken.1.calls = []

/-- White space is skipped and the lexeme after it taken. -/
theorem StandsAfter.takes (stands : l.StandsAfter text part) {white w after : Text}
    (rest : l.rest = white ++ (w ++ after)) (nonempty : w ≠ []) {lexeme : Lexeme}
    (reads : Lexeme.read .standard (w ++ after) = lexeme) (length : lexeme.length = w.length)
    {acrossLines : Bool}
    (gap : Gap.read acrossLines l.rest
      = { length := white.length, newline := white.contains '\n' }) :
    l.Takes text part white w after lexeme (l.skipGap acrossLines).takeLexeme := by
  have skipped : (l.skipGap acrossLines).rest = w ++ after := by
    simp only [skipGap, gap]
    rw [rest, List.drop_left]
  have stands' : (l.skipGap acrossLines).StandsAfter text (part ++ white) := by
    refine ⟨stands.plain, stands.source, ?_, ?_, stands.language, stands.skips, stands.fresh⟩
    · rw [skipped, ← stands.whole, rest, List.append_assoc]
    · simp only [skipGap, gap, stands.index, List.length_append]
  have kept : (l.skipGap acrossLines).lineShift = l.lineShift
      ∧ (l.skipGap acrossLines).atLineStart = (l.atLineStart || white.contains '\n') := by
    simp only [skipGap, gap, and_self]
  have files : (l.skipGap acrossLines).file = l.file ∧ (l.skipGap acrossLines).presented = l.presented :=
    ⟨rfl, rfl⟩
  generalize l.skipGap acrossLines = l' at skipped stands' kept files ⊢
  have taken : l'.takeLexeme = l'.take lexeme.kind w.length lexeme.error := by
    rw [takeLexeme, if_neg (by rw [skipped]; simp [nonempty]), stands'.language, skipped, reads, ← length]
  have stands'' : l'.takeLexeme.2.StandsAfter text (part ++ white ++ w) := by
    refine ⟨stands'.plain, ?_, ?_, ?_, ?_, ?_, ?_⟩ <;> simp only [taken, take]
    · exact stands'.source
    · rw [skipped, List.drop_left, List.append_assoc, ← skipped, stands'.whole]
    · rw [stands'.index, List.length_append, List.length_append, List.length_append]
    · exact stands'.language
    · exact stands'.skips
    · exact stands'.fresh
  have line (fits : text.CountsLines) :
      l'.presentedLine = l.presentedLine + white.count '\n' := by
    rw [presentedLine, presentedLine, stands.line fits, stands'.line fits, kept.1, List.count_append]
    omega
  have line' (fits : text.CountsLines) :
      l'.takeLexeme.2.presentedLine = l'.presentedLine + w.count '\n' := by
    rw [presentedLine, presentedLine, stands'.line fits, stands''.line fits, List.count_append,
      List.count_append]
    simp only [taken, take]
    omega
  refine ⟨stands'', ?_, ?_, ?_, ?_, ?_, ?_, ?_, ?_, ?_, ?_, ?_⟩
  · simp only [taken, take, skipped, List.drop_left]
  · simp only [taken, take]
  · simp only [taken, take, files.1]
  · simp only [taken, take, files.2]
  · exact fun fits => by rw [line' fits, line fits]
  · simp only [taken, take, Token.word, skipped, List.take_left]
  · simp only [taken, take]
  · simp only [taken, take, kept.2]
  · simp only [taken, take, files.2]
  · intro fits
    rw [← line fits]
    simp only [taken, take, presentedLine]
  · simp only [taken, take]

/-- The next token after white space. -/
theorem StandsAfter.takes_next (stands : l.StandsAfter text part) {white w after : Text}
    (rest : l.rest = white ++ (w ++ after)) (isWhite : white.IsWhite) (nonempty : w ≠ [])
    (bare : Gap.starts (w ++ after) = false) {lexeme : Lexeme}
    (reads : Lexeme.read .standard (w ++ after) = lexeme) (length : lexeme.length = w.length) :
    l.Takes text part white w after lexeme l.next := by
  have same : l.next = (l.skipGap true).takeLexeme := by
    simp only [next, stands.fresh, read, stands.skips, Bool.false_eq_true, if_false]
  rw [same]
  exact stands.takes rest nonempty reads length (by rw [rest, Gap.read_white isWhite bare])

/-- The next token on the line after blanks. -/
theorem StandsAfter.takes_nextOnLine (stands : l.StandsAfter text part) {blanks w after : Text}
    (rest : l.rest = blanks ++ (w ++ after)) (areBlank : ∀ c ∈ blanks, Text.isBlank c = true)
    (nonempty : w ≠ []) (bare : Gap.starts (w ++ after) = false) {lexeme : Lexeme}
    (reads : Lexeme.read .standard (w ++ after) = lexeme) (length : lexeme.length = w.length) :
    ∃ taken, l.nextOnLine = (some taken.1, taken.2)
      ∧ l.Takes text part blanks w after lexeme taken := by
  have noFeed : blanks.contains '\n' = false := by
    rw [Bool.eq_false_iff]
    intro present
    cases areBlank '\n' (List.contains_iff_mem.mp present)
  have gap : Gap.read false l.rest
      = { length := blanks.length, newline := blanks.contains '\n' } := by
    rw [rest, Gap.read_blanks areBlank (.inl bare), noFeed]
  have more : ¬((l.skipGap false).rest = [] || (l.skipGap false).rest.head? = some '\n') = true := by
    have skipped : (l.skipGap false).rest = w ++ after := by
      simp only [skipGap, gap]
      rw [rest, List.drop_left]
    rw [skipped]
    cases w with
    | nil => exact absurd rfl nonempty
    | cons c w =>
      simp only [List.cons_append, List.head?_cons, Bool.or_eq_true, decide_eq_true_eq, not_or]
      refine ⟨List.cons_ne_nil _ _, fun feed => ?_⟩
      rw [Option.some.inj (of_decide_eq_true feed)] at bare
      cases bare
  refine ⟨_, ?_, stands.takes rest nonempty reads length gap⟩
  simp only [nextOnLine, stands.fresh, if_neg more]

/-- At the end of its line a lexer gives no token. -/
theorem StandsAfter.nextOnLine_of_feed (stands : l.StandsAfter text part) {after : Text}
    (rest : l.rest = '\n' :: after) : l.nextOnLine = (none, l) := by
  have gap : Gap.read false l.rest = {} := by
    rw [rest]
    exact Gap.read_blanks (List.forall_mem_nil _) (.inr rfl)
  have same : l.skipGap false = l := by
    simp [skipGap, gap]
  simp only [nextOnLine, stands.fresh, same, rest]
  rfl

end Lexer

end CPreprocessor
