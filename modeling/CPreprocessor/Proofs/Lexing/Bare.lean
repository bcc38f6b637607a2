/-
# Lexers that pass over white space

A lexer that passes over white space and has looked at no token is at a place in its source: its
next token stands behind the gap there. It is at the end of a line if that token is the first one of
a line, and it stays on its line as long as it is asked for tokens of this line.
-/
import CPreprocessor.Proofs.Lexing.Lexeme
import CPreprocessor.Token.Lexer

namespace CPreprocessor

theorem Gap.newline_read_false (text : Text) : (read false text).newline = false := by
  fun_induction read false text with
  | case1 => rfl
  | case2 => rename_i on _; cases on
  | case3 => rfl
  | case4 => rename_i ih; exact ih
  | case5 => rename_i ih; exact ih
  | case6 => rename_i ih; exact ih
  | case7 => rfl
  | case8 => rfl

namespace Lexer

/-- The lexer passes over white space, and no token that it has looked at waits. -/
structure IsBare (l : Lexer) : Prop where
  skips : l.keepsTrivia = false
  fresh : l.peeked = none

/-- The next token is the first one of a line, or the end of the file. -/
structure EndsLine (l : Lexer) : Prop extends IsBare l where
  first : l.next.1.atLineStart = true

variable {l : Lexer}

theorem IsBare.takeLexeme (bare : l.IsBare) :
    l.takeLexeme.2.IsBare ∧ l.takeLexeme.2.atLineStart = false := by
  unfold Lexer.takeLexeme
  split <;> exact ⟨⟨bare.skips, bare.fresh⟩, rfl⟩

theorem skipGap_of_read_eq {acrossLines : Bool} (nothing : Gap.read acrossLines l.rest = {}) :
    l.skipGap acrossLines = l := by
  simp [skipGap, nothing]

theorem IsBare.next_eq (bare : l.IsBare) : l.next = (l.skipGap true).takeLexeme := by
  rw [Lexer.next, bare.fresh]
  exact if_neg (by simp [bare.skips])

theorem IsBare.next (bare : l.IsBare) : l.next.2.IsBare ∧ l.next.2.atLineStart = false := by
  have skipped : (l.skipGap true).IsBare := ⟨bare.skips, bare.fresh⟩
  rw [bare.next_eq]
  exact skipped.takeLexeme

/-- The first token of a line is so because a line feed stands before it. -/
theorem IsBare.endsLine (bare : l.IsBare)
    (starts : l.atLineStart = true ∨ l.rest = [] ∨ l.rest.head? = some '\n') : l.EndsLine := by
  refine ⟨bare, ?_⟩
  rw [bare.next_eq]
  unfold Lexer.takeLexeme
  split
  · rfl
  · rename_i more
    show (l.atLineStart || (Gap.read true l.rest).newline) = true
    obtain starts | nothing | feed := starts
    · rw [starts, Bool.true_or]
    · exact absurd (by rw [skipGap, nothing, List.drop_nil]) more
    · cases rest : l.rest with
      | nil => rw [rest] at feed; cases feed
      | cons c rest =>
        rw [rest] at feed
        cases feed
        rw [Gap.read, if_pos rfl, if_pos rfl, Gap.after, Bool.true_or, Bool.or_true]

theorem endsLine_ofSource (source : Source) (file : FileRef) (language : Language) :
    (ofSource source file language false).EndsLine :=
  IsBare.endsLine ⟨rfl, rfl⟩ (.inl rfl)

/-- How lines are presented does not matter for where they start. -/
theorem EndsLine.presentLine (ends : l.EndsLine) (line : Nat) (name : Option Text) :
    (l.presentLine line name).EndsLine := by
  have bare : (l.presentLine line name).IsBare := ⟨ends.skips, ends.fresh⟩
  refine ⟨bare, ?_⟩
  have first := ends.first
  rw [ends.next_eq] at first
  rw [bare.next_eq]
  unfold Lexer.takeLexeme at first ⊢
  have rest : ((l.presentLine line name).skipGap true).rest = (l.skipGap true).rest := rfl
  rw [rest]
  split
  · rfl
  · rename_i more
    rw [if_neg more] at first
    exact first

/-- A token of the same line, or the end of the line. -/
theorem IsBare.nextOnLine (bare : l.IsBare) (inLine : l.atLineStart = false) :
    l.nextOnLine.2.IsBare ∧ l.nextOnLine.2.atLineStart = false
      ∧ (∀ token ∈ l.nextOnLine.1, token.atLineStart = false)
      ∧ (l.nextOnLine.1 = none → l.nextOnLine.2.EndsLine) := by
  have skipped : (l.skipGap false).IsBare := ⟨bare.skips, bare.fresh⟩
  have stays : (l.skipGap false).atLineStart = false := by
    show (l.atLineStart || (Gap.read false l.rest).newline) = false
    rw [inLine, Gap.newline_read_false, Bool.or_false]
  unfold Lexer.nextOnLine
  rw [bare.fresh]
  simp only []
  split
  · rename_i ends
    rw [Bool.or_eq_true, decide_eq_true_eq, decide_eq_true_eq] at ends
    exact ⟨skipped, stays, by simp, fun _ => skipped.endsLine (.inr ends)⟩
  · rename_i more
    have more : (l.skipGap false).rest ≠ [] := fun nothing => more (by simp [nothing])
    refine ⟨skipped.takeLexeme.1, skipped.takeLexeme.2, ?_, by simp⟩
    rintro token ⟨⟩
    rw [Lexer.takeLexeme, if_neg more]
    exact stays

theorem isEnd_nextOnLine {l : Lexer} {token : Token} (found : l.nextOnLine.1 = some token) :
    token.isEnd = false := by
  unfold nextOnLine at found
  split at found
  · rename_i looked peeked
    split at found
    · cases found
    · rename_i onLine
      cases found
      simp only [Bool.or_eq_true, not_or, Bool.not_eq_true] at onLine
      exact onLine.2
  · simp only [] at found
    split at found
    · cases found
    · rename_i onLine
      cases found
      have more : (l.skipGap false).rest ≠ [] := fun nothing => onLine (by simp [nothing])
      rw [takeLexeme, if_neg more]
      have kind := (Lexeme.kind_read_ne (l.skipGap false).language (l.skipGap false).rest).2.2
      simpa [take, Token.isEnd] using kind

end Lexer

end CPreprocessor
