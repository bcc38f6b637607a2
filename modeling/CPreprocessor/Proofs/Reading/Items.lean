/-
# Files item by item

A reader takes a file apart without regard to what counts: the next item of a file is
a token, a directive with its whole line, or the end. This module says so and gives
`Reader.readToken` in these terms (`readToken_eq`), and `Lexer.Reads` relates a place
in a file to a later place and the items between them.
-/
import CPreprocessor.Reader.Progress

namespace CPreprocessor

/-- What a file gives at a time. -/
inductive Item where
  | token (token : Token)
  | directive (d : Directive)
  | finish (final : { token : Token // token.isEnd = true })

namespace Lexer

theorem restOfLine_of_none {l : Lexer} (found : l.nextOnLine.1 = none) :
    l.restOfLine = ([], l.nextOnLine.2) := by
  rw [restOfLine]
  split
  · rename_i after taken
    rw [taken]
  · rename_i token after taken
    rw [taken] at found
    cases found

theorem restOfLine_of_some {l : Lexer} {token : Token} (found : l.nextOnLine.1 = some token) :
    l.restOfLine
      = (token :: l.nextOnLine.2.restOfLine.1, l.nextOnLine.2.restOfLine.2) := by
  rw [restOfLine]
  split
  · rename_i after taken
    rw [taken] at found
    cases found
  · rename_i other after taken
    rw [taken] at found ⊢
    cases found
    rfl

/-- The directive that `hash` starts, with the lexer at the end of its line. -/
def directive (hash : Token) (l : Lexer) : Directive × Lexer :=
  ({ hash, name := l.restOfLine.1.head?, args := l.restOfLine.1.drop 1 }, l.restOfLine.2)

/-- The next item of a file. -/
def item (l : Lexer) : Item × Lexer :=
  if isEnd : l.next.1.isEnd = true then
    (.finish ⟨l.next.1, isEnd⟩, l.next.2)
  else if Reader.startsDirective l.next.1 then
    (.directive (l.next.2.directive l.next.1).1, (l.next.2.directive l.next.1).2)
  else
    (.token l.next.1, l.next.2)

theorem item_of_startsDirective {l : Lexer} (more : l.next.1.isEnd = false)
    (starts : Reader.startsDirective l.next.1 = true) :
    l.item = (.directive (l.next.2.directive l.next.1).1, (l.next.2.directive l.next.1).2) := by
  unfold item
  rw [dif_neg (by simp [more]), if_pos starts]

theorem item_of_token {l : Lexer} (more : l.next.1.isEnd = false)
    (starts : Reader.startsDirective l.next.1 = false) : l.item = (.token l.next.1, l.next.2) := by
  unfold item
  rw [dif_neg (by simp [more]), if_neg (by simp [starts])]

theorem item_of_isEnd {l : Lexer} (ends : l.next.1.isEnd = true) :
    l.item = (.finish ⟨l.next.1, ends⟩, l.next.2) := by
  unfold item
  rw [dif_pos ends]

/-- From one place in a file to a later one, with the items between them. The end of the file is
never among them. -/
inductive Reads : Lexer → List Item → Lexer → Prop where
  | done (l : Lexer) : Reads l [] l
  | token {l after last : Lexer} {token : Token} {items : List Item}
      (here : l.item = (.token token, after)) (more : Reads after items last) :
      Reads l (.token token :: items) last
  | directive {l after last : Lexer} {d : Directive} {items : List Item}
      (here : l.item = (.directive d, after)) (more : Reads after items last) :
      Reads l (.directive d :: items) last

theorem source_nextOnLine (l : Lexer) :
    l.nextOnLine.2.source = l.source ∧ l.nextOnLine.2.file = l.file
      ∧ l.nextOnLine.2.language = l.language := by
  unfold nextOnLine
  split
  · split <;> exact ⟨rfl, rfl, rfl⟩
  · simp only []
    split
    · exact ⟨rfl, rfl, rfl⟩
    · unfold takeLexeme
      split <;> exact ⟨rfl, rfl, rfl⟩

/-- Reading a line stays in the file. -/
theorem source_restOfLine (l : Lexer) :
    l.restOfLine.2.source = l.source ∧ l.restOfLine.2.file = l.file
      ∧ l.restOfLine.2.language = l.language := by
  induction more : l.size using Nat.strongRecOn generalizing l with
  | ind size ih =>
    have stays := l.source_nextOnLine
    cases found : l.nextOnLine.1 with
    | none => rwa [restOfLine_of_none found]
    | some token =>
      have later := ih _ (more ▸ size_nextOnLine_lt found) l.nextOnLine.2 rfl
      rw [restOfLine_of_some found]
      exact ⟨later.1.trans stays.1, later.2.1.trans stays.2.1, later.2.2.trans stays.2.2⟩

/-- Reading an item stays in the file. -/
theorem source_item {l : Lexer} (skips : l.keepsTrivia = false) :
    l.item.2.source = l.source ∧ l.item.2.file = l.file ∧ l.item.2.language = l.language := by
  have stays : l.next.2.source = l.source ∧ l.next.2.file = l.file
      ∧ l.next.2.language = l.language := by
    unfold next
    split
    · exact ⟨rfl, rfl, rfl⟩
    · simp only [read, skips, Bool.false_eq_true, if_false]
      unfold takeLexeme
      split <;> exact ⟨rfl, rfl, rfl⟩
  unfold item
  split
  · exact stays
  · split
    · have line := l.next.2.source_restOfLine
      exact ⟨line.1.trans stays.1, line.2.1.trans stays.2.1, line.2.2.trans stays.2.2⟩
    · exact stays

end Lexer

namespace Reader

/-- The reader after a directive of the innermost file, of which `frame` is left. -/
def afterDirective (setup : Setup) (r : Reader) (frame : Frame) (outer : List Frame)
    (d : Directive) : Reader :=
  let done := d.execute setup r.place r.session
  let guard := frame.guard.afterDirective d r.session.conditions.depth done.2.conditions.depth
  ({ r with session := done.2 }.act setup { frame with guard } outer d done.1).checkAbort setup

/-- What reading does with the next item of the innermost file. -/
theorem readToken_eq (setup : Setup) (r : Reader) (frame : Frame) (outer : List Frame) :
    r.readToken setup frame outer =
      match frame.lexer.item with
      | (.finish final, rest) =>
        .goOn (r.closeFile setup { frame with lexer := rest } outer final)
      | (.directive d, rest) =>
        .goOn (r.afterDirective setup { frame with lexer := rest } outer d)
      | (.token token, rest) =>
        if r.session.conditions.isLive then
          .give token (r.accept setup { frame with lexer := rest } outer token)
        else
          .goOn { r with frames := { frame with lexer := rest } :: outer } := by
  unfold readToken Lexer.item
  simp only []
  split
  · rfl
  · split
    · rfl
    · rfl

/-- All that one step of reading can do. -/
inductive Stepped (setup : Setup) (r : Reader) : Step → Prop where
  /-- A token of a directive that is passed on is given. -/
  | waits {token : Token} {queued : List Token} (waiting : r.queued = token :: queued) :
      Stepped setup r (.give token { r with queued })
  /-- Nothing is left to read, or the run has ended early. -/
  | finished (isFinished : r.IsFinished) : Stepped setup r (.give r.finish.1 r.finish.2)
  | closes {frame : Frame} {outer : List Frame} {final : { token : Token // token.isEnd = true }}
      {rest : Lexer} (idle : r.queued = []) (isOpen : r.frames = frame :: outer)
      (running : r.status ≠ .aborted) (here : frame.lexer.item = (.finish final, rest)) :
      Stepped setup r (.goOn (r.closeFile setup { frame with lexer := rest } outer final))
  | carriesOut {frame : Frame} {outer : List Frame} {d : Directive} {rest : Lexer}
      (idle : r.queued = []) (isOpen : r.frames = frame :: outer) (running : r.status ≠ .aborted)
      (here : frame.lexer.item = (.directive d, rest)) :
      Stepped setup r (.goOn (r.afterDirective setup { frame with lexer := rest } outer d))
  | counts {frame : Frame} {outer : List Frame} {token : Token} {rest : Lexer}
      (idle : r.queued = []) (isOpen : r.frames = frame :: outer) (running : r.status ≠ .aborted)
      (here : frame.lexer.item = (.token token, rest))
      (live : r.session.conditions.isLive = true) :
      Stepped setup r (.give token (r.accept setup { frame with lexer := rest } outer token))
  | passesOver {frame : Frame} {outer : List Frame} {token : Token} {rest : Lexer}
      (idle : r.queued = []) (isOpen : r.frames = frame :: outer) (running : r.status ≠ .aborted)
      (here : frame.lexer.item = (.token token, rest))
      (dead : r.session.conditions.isLive = false) :
      Stepped setup r (.goOn { r with frames := { frame with lexer := rest } :: outer })

theorem stepped (setup : Setup) (r : Reader) : r.Stepped setup (r.step setup) := by
  unfold step
  split
  · rename_i waiting
    exact .waits waiting
  · rename_i idle closed
    exact .finished ⟨idle, .inl closed⟩
  · rename_i frame outer idle isOpen
    split
    · rename_i aborted
      exact .finished ⟨idle, .inr aborted⟩
    · rename_i running
      rw [readToken_eq]
      split
      · rename_i here
        exact .closes idle isOpen running here
      · rename_i here
        exact .carriesOut idle isOpen running here
      · rename_i here
        split
        · rename_i live
          exact .counts idle isOpen running here live
        · rename_i dead
          exact .passesOver idle isOpen running here (Bool.eq_false_iff.mpr dead)

variable {setup : Setup} {r next : Reader}

theorem pull_of_give {token : Token} (stepped : r.step setup = .give token next) :
    r.pull setup = (token, next) := by
  rw [pull]
  split
  · rename_i given after same
    rw [stepped] at same
    cases same
    rfl
  · rename_i after same
    rw [stepped] at same
    cases same

theorem pull_of_goOn (stepped : r.step setup = .goOn next) :
    r.pull setup = next.pull setup := by
  rw [pull]
  split
  · rename_i given after same
    rw [stepped] at same
    cases same
  · rename_i after same
    rw [stepped] at same
    cases same
    rfl

/-- Entering a header makes no token wait. -/
theorem queued_enter (header : Header) (site : Token) :
    (r.enter setup header site).queued = r.queued := by
  unfold Reader.enter openHeader
  simp only []
  repeat' split
  all_goals rfl

/-- A reader that is finished gives the end of the main file. -/
theorem pull_of_isFinished (finished : r.IsFinished) : r.pull setup = r.finish :=
  pull_of_give (step_of_isFinished finished)

end Reader

end CPreprocessor
