/-
# Where lines start

A directive takes the rest of its line, so the token after it is the first one of a line
(`Lexer.EndsLine`). Every file but the innermost one stands after a directive, the one that
has entered the next file (`Reader.OnLines`). So after a directive the next token that counts
is the first one of its line too, whatever is opened, closed, skipped or carried out before
it (`Reader.StartsLine.pull`).
-/
import CPreprocessor.Proofs.Lexing.Bare
import CPreprocessor.Proofs.Run.Moves

namespace CPreprocessor

/-! ## Lexers at the end of a line -/

/-- A directive is a line: its hash starts one, and its other tokens stay on it. -/
structure Directive.IsLine (d : Directive) : Prop where
  isHash : d.hash.isHash = true
  starts : d.hash.atLineStart = true
  stays : ∀ token ∈ d.name.toList ++ d.args, token.atLineStart = false

namespace Lexer

variable {l : Lexer}

/-- The rest of a line: its tokens stay on it, and the lexer ends at its end. -/
theorem IsBare.restOfLine (bare : l.IsBare) (inLine : l.atLineStart = false) :
    l.restOfLine.2.EndsLine ∧ ∀ token ∈ l.restOfLine.1, token.atLineStart = false := by
  induction more : l.size using Nat.strongRecOn generalizing l with
  | ind size ih =>
    obtain ⟨bare', inLine', stays, ends⟩ := bare.nextOnLine inLine
    cases found : l.nextOnLine.1 with
    | none =>
      rw [restOfLine_of_none found]
      exact ⟨ends found, List.forall_mem_nil _⟩
    | some token =>
      obtain ⟨last, others⟩ := ih _ (more ▸ size_nextOnLine_lt found) bare' inLine' rfl
      rw [restOfLine_of_some found]
      exact ⟨last, List.forall_mem_cons.mpr ⟨stays token found, others⟩⟩

theorem IsBare.item (bare : l.IsBare) : l.item.2.IsBare := by
  unfold Lexer.item
  split
  · exact bare.next.1
  · split
    · exact (bare.next.1.restOfLine bare.next.2).1.toIsBare
    · exact bare.next.1

/-- A directive is a line, and the lexer after it is at the end of this line. -/
theorem IsBare.directive (bare : l.IsBare) {d : Directive} {after : Lexer}
    (here : l.item = (.directive d, after)) : d.IsLine ∧ after.EndsLine := by
  unfold Lexer.item at here
  split at here
  · cases here
  · split at here
    · rename_i starts
      cases here
      obtain ⟨ends, stays⟩ := bare.next.1.restOfLine bare.next.2
      simp only [Reader.startsDirective, Bool.and_eq_true] at starts
      refine ⟨⟨starts.1.1, starts.1.2, fun token present => stays token ?_⟩, ends⟩
      obtain isName | isArgument := List.mem_append.mp present
      · exact List.mem_of_mem_head? (by simpa [Lexer.directive] using isName)
      · exact List.mem_of_mem_drop isArgument
    · cases here

/-- A token is the first one of its line if the lexer was at the end of a line. -/
theorem EndsLine.token (ends : l.EndsLine) {token : Token} {after : Lexer}
    (here : l.item = (.token token, after)) : token.atLineStart = true := by
  unfold Lexer.item at here
  split at here
  · cases here
  · split at here
    · cases here
    · cases here
      exact ends.first

end Lexer

/-! ## Readers at the end of a line -/

namespace Reader

/-- Every file but the innermost one is at the end of a line. -/
structure OnLines (r : Reader) : Prop where
  bare : ∀ frame ∈ r.frames, frame.lexer.IsBare
  outer : ∀ frame ∈ r.frames.tail, frame.lexer.EndsLine

/-- The next token is the first one of a line: either one waits that is, or the innermost file is at
the end of a line, unless it is read where nothing counts. -/
structure StartsLine (r : Reader) : Prop extends OnLines r where
  queued : ∀ token ∈ r.queued.head?, token.atLineStart = true
  first : r.session.conditions.isLive = true → ∀ frame ∈ r.frames.head?, frame.lexer.EndsLine

variable {setup : Setup} {r next : Reader} {frame : Frame} {outer : List Frame}

theorem OnLines.of_frames (onLines : r.OnLines) (frames : next.frames = r.frames) : next.OnLines :=
  ⟨frames ▸ onLines.bare, frames ▸ onLines.outer⟩

theorem onLines_of_cons (isOpen : r.frames = frame :: outer) (bare : frame.lexer.IsBare)
    (ends : ∀ f ∈ outer, f.lexer.EndsLine) : r.OnLines := by
  refine ⟨?_, ?_⟩
  · rw [isOpen]
    exact List.forall_mem_cons.mpr ⟨bare, fun f member => (ends f member).toIsBare⟩
  · rw [isOpen]
    exact ends

/-- If all files are at the ends of lines, the next token is the first one of a line. -/
theorem startsLine_of_frames (ends : ∀ frame ∈ r.frames, frame.lexer.EndsLine)
    (queued : ∀ token ∈ r.queued.head?, token.atLineStart = true) : r.StartsLine where
  bare frame member := (ends frame member).toIsBare
  outer frame member := ends frame (List.mem_of_mem_tail member)
  queued := queued
  first _ frame member := ends frame (List.mem_of_mem_head? member)

theorem queued_checkAbort : (r.checkAbort setup).queued = r.queued := by
  unfold checkAbort
  split <;> rfl

theorem queued_closeFile (frame : Frame) (outer : List Frame)
    (final : { token : Token // token.isEnd = true }) :
    (r.closeFile setup frame outer final).queued = r.queued := by
  have spelled : (r.reportSpelling setup final.1).queued = r.queued := by
    unfold reportSpelling
    split
    · exact queued_checkAbort
    · rfl
  unfold closeFile
  simp only []
  split
  · exact spelled
  · rfl

/-- After a directive all files are at the ends of lines. -/
theorem startsLine_afterDirective (idle : r.queued = []) (ends : frame.lexer.EndsLine)
    (outside : ∀ f ∈ outer, f.lexer.EndsLine) {d : Directive} (line : d.IsLine) :
    (r.afterDirective setup frame outer d).StartsLine := by
  unfold afterDirective
  generalize d.execute setup r.place r.session = done
  simp only []
  generalize frame.guard.afterDirective d _ _ = guard
  have all (frame : Frame) (ends : frame.lexer.EndsLine) : ∀ f ∈ frame :: outer, f.lexer.EndsLine :=
    List.forall_mem_cons.mpr ⟨ends, outside⟩
  have none : ∀ token ∈ r.queued.head?, token.atLineStart = true := by
    rw [idle]
    simp
  refine startsLine_of_frames ?_ ?_
  · rw [frames_checkAbort]
    cases done.1 with
    | nothing | once | pass => exact all { frame with guard } ends
    | present line name =>
      exact all { frame with guard, lexer := frame.lexer.presentLine line name }
        (ends.presentLine line name)
    | enter header site =>
      have before := all { frame with guard } ends
      obtain ⟨same, -⟩ | ⟨-, -, source, opened⟩ := enter_cases setup
          { r with session := done.2, frames := { frame with guard } :: outer } header site
      · rw [act, same]
        exact before
      · rw [act, opened]
        exact List.forall_mem_cons.mpr ⟨Lexer.endsLine_ofSource _ _ _, before⟩
  · rw [queued_checkAbort]
    cases done.1 with
    | nothing | once | present => exact none
    | pass =>
      rw [act, idle]
      simpa [Directive.tokens] using line.starts
    | enter header site =>
      rw [act, queued_enter]
      exact none

theorem frames_accept (frame : Frame) (outer : List Frame) (token : Token) :
    (r.accept setup frame outer token).frames = { frame with guard := frame.guard.afterToken } :: outer := by
  rw [accept, frames_reportSpelling]

/-- Every file but the innermost one stays at the end of a line. -/
theorem OnLines.step (onLines : r.OnLines) (token : Token)
    (stepped : r.step setup = .give token next ∨ r.step setup = .goOn next) : next.OnLines := by
  have outside {frame : Frame} {outer : List Frame} (isOpen : r.frames = frame :: outer) :
      frame.lexer.IsBare ∧ ∀ f ∈ outer, f.lexer.EndsLine := by
    have tail := onLines.outer
    rw [isOpen] at tail
    exact ⟨onLines.bare frame (isOpen ▸ List.mem_cons_self), tail⟩
  have what := r.stepped setup
  obtain given | gone := stepped
  · rw [given] at what
    cases what with
    | waits waiting => exact onLines.of_frames rfl
    | finished isFinished => exact onLines.of_frames finish_isEnd.2.1
    | counts idle isOpen running here live =>
      obtain ⟨bare, ends⟩ := outside isOpen
      have after := bare.item
      rw [here] at after
      exact onLines_of_cons (frames_accept _ _ _) after ends
  · rw [gone] at what
    cases what with
    | closes idle isOpen running here =>
      obtain ⟨-, ends⟩ := outside isOpen
      exact ⟨fun f member => (ends f member).toIsBare,
        fun f member => ends f (List.mem_of_mem_tail member)⟩
    | carriesOut idle isOpen running here =>
      obtain ⟨bare, ends⟩ := outside isOpen
      obtain ⟨line, atEnd⟩ := bare.directive here
      exact (startsLine_afterDirective idle atEnd ends line).toOnLines
    | passesOver idle isOpen running here dead =>
      obtain ⟨bare, ends⟩ := outside isOpen
      have after := bare.item
      rw [here] at after
      exact onLines_of_cons rfl after ends

theorem invariant_onLines (setup : Setup) : Invariant setup OnLines :=
  ⟨fun token onLines stepped => onLines.step token stepped,
    fun onLines between => onLines.of_frames between.frames⟩

/-- A step that gives no token leaves the reader at the start of a line. -/
theorem StartsLine.goOn (starts : r.StartsLine) (stepped : r.step setup = .goOn next) :
    next.StartsLine := by
  have what := r.stepped setup
  rw [stepped] at what
  have onLines := starts.toOnLines.step default (.inr stepped)
  cases what with
  | closes idle isOpen running here =>
    have ends := starts.outer
    rw [isOpen] at ends
    refine startsLine_of_frames ends ?_
    rw [queued_closeFile, idle]
    simp
  | carriesOut idle isOpen running here =>
    have ends := starts.outer
    rw [isOpen] at ends
    obtain ⟨line, atEnd⟩ := (starts.bare _ (isOpen ▸ List.mem_cons_self)).directive here
    exact startsLine_afterDirective idle atEnd ends line
  | passesOver idle isOpen running here dead =>
    refine ⟨onLines, starts.queued, fun live => ?_⟩
    rw [dead] at live
    cases live

/-- A step that gives a token gives the first one of a line, or the end of the main file. -/
theorem StartsLine.give (starts : r.StartsLine) {token : Token}
    (stepped : r.step setup = .give token next) : token.atLineStart = true ∨ token.isEnd = true := by
  have what := r.stepped setup
  rw [stepped] at what
  cases what with
  | waits waiting => exact .inl (starts.queued token (by rw [waiting]; rfl))
  | finished isFinished => exact .inr finish_isEnd.1
  | counts idle isOpen running here live =>
    exact .inl ((starts.first live _ (by rw [isOpen]; rfl)).token here)

/-- The next token that counts is the first one of its line. -/
theorem StartsLine.pull (setup : Setup) (starts : r.StartsLine) :
    (r.pull setup).1.atLineStart = true ∨ (r.pull setup).1.isEnd = true := by
  fun_induction Reader.pull setup r with
  | case1 r token next stepped => exact starts.give stepped
  | case2 r next stepped ih => exact ih (starts.goOn stepped)

end Reader

end CPreprocessor
