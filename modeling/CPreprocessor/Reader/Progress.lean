/-
# Reading makes progress

Every step of reading uses up something: a token of a passed directive, or a part
of an open file. What it may add, a header, is on a lower level than the directive
that was used up, because headers are nested only to a given depth. Hence pulling
a token from the reader ends (`Reader.pull`), and pulling leaves less to read or
finds that nothing is left (`pull_progress`).
-/
import CPreprocessor.Reader

namespace CPreprocessor.Reader

/-- What is left to read: the open files by levels, then the tokens of passed directives. -/
def amount (setup : Setup) (r : Reader) : Levels × Nat :=
  (Frame.levels setup.config.maxIncludeDepth r.frames, r.queued.length)

/-- There is less to read. -/
def Less (setup : Setup) (a b : Reader) : Prop :=
  Prod.Lex Levels.Below (· < ·) (a.amount setup) (b.amount setup)

/-- The files and the tokens to read and what was learned are the same. -/
def SameState (a b : Reader) : Prop :=
  a.frames = b.frames ∧ a.queued = b.queued ∧ a.session = b.session

variable {setup : Setup} {r : Reader}

theorem Less.trans {a b c : Reader} (ab : Less setup a b) (bc : Less setup b c) :
    Less setup a c := by
  unfold Less at *
  rw [Prod.lex_def] at *
  rcases ab with ab | ⟨same, ab⟩
  · rcases bc with bc | ⟨same', _⟩
    · exact .inl (ab.trans bc)
    · exact .inl (same' ▸ ab)
  · rcases bc with bc | ⟨same', bc⟩
    · exact .inl (same.symm ▸ bc)
    · exact .inr ⟨same.trans same', Nat.lt_trans ab bc⟩

theorem less_of_below {a b : Reader}
    (below : Levels.Below (Frame.levels setup.config.maxIncludeDepth a.frames)
      (Frame.levels setup.config.maxIncludeDepth b.frames)) : Less setup a b :=
  Prod.Lex.left _ _ below

theorem amount_of_sameState {a b : Reader} (same : SameState a b) :
    a.amount setup = b.amount setup := by
  simp only [amount, same.1, same.2.1]

theorem frames_checkAbort : (r.checkAbort setup).frames = r.frames := by
  unfold checkAbort
  split <;> rfl

theorem frames_reportSpelling (token : Token) :
    (r.reportSpelling setup token).frames = r.frames := by
  unfold reportSpelling
  split
  · exact frames_checkAbort
  · rfl

/-- Opening a header adds at most one file, which is not nested too deeply. -/
theorem frames_openHeader (header : Header) (site : Token) :
    (r.openHeader setup header site).frames = r.frames
      ∨ ∃ new, (r.openHeader setup header site).frames = new :: r.frames
        ∧ new.includeDepth = r.place.includeDepth + 1
        ∧ new.includeDepth ≤ setup.config.maxIncludeDepth := by
  unfold openHeader
  simp only []
  split
  · exact .inl rfl
  · rename_i allowed
    split
    · exact .inl rfl
    · exact .inr ⟨_, rfl, rfl, Nat.not_lt.mp allowed⟩

/-- Entering a header adds at most one file, which is not nested too deeply. -/
theorem frames_enter (setup : Setup) (r : Reader) (header : Header) (site : Token) :
    (r.enter setup header site).frames = r.frames
      ∨ ∃ new, (r.enter setup header site).frames = new :: r.frames
        ∧ new.includeDepth = r.place.includeDepth + 1
        ∧ new.includeDepth ≤ setup.config.maxIncludeDepth := by
  unfold enter
  split
  · exact .inl rfl
  · split
    · split <;> exact .inl rfl
    · exact frames_openHeader header site

/-- What a directive asks for is on a lower level than what was read of its file. -/
theorem below_act {frame frame' : Frame} {outer : List Frame} (d : Directive) (action : Action)
    (depth : frame'.includeDepth = frame.includeDepth) (shorter : frame'.size < frame.size) :
    Levels.Below (Frame.levels setup.config.maxIncludeDepth (r.act setup frame' outer d action).frames)
      (Frame.levels setup.config.maxIncludeDepth (frame :: outer)) := by
  cases action with
  | nothing => exact Frame.levels_of_shorter depth shorter
  | enter header site =>
    rcases frames_enter setup { r with frames := frame' :: outer } header site with
      same | ⟨new, same, deeper, allowed⟩
    · rw [act, same]
      exact Frame.levels_of_shorter depth shorter
    · rw [act, same]
      exact Frame.levels_of_enter depth shorter (deeper.trans (congrArg (· + 1) depth)) allowed
  | present line name => exact Frame.levels_of_shorter depth shorter
  | pass => exact Frame.levels_of_shorter depth shorter
  | once => exact Frame.levels_of_shorter depth shorter

theorem below_readDirective {frame frame' : Frame} {outer : List Frame} (hash : Token)
    (depth : frame'.includeDepth = frame.includeDepth) (shorter : frame'.size < frame.size) :
    Levels.Below
      (Frame.levels setup.config.maxIncludeDepth (r.readDirective setup frame' outer hash).frames)
      (Frame.levels setup.config.maxIncludeDepth (frame :: outer)) := by
  unfold readDirective
  simp only []
  rw [frames_checkAbort]
  refine below_act _ _ depth (Nat.lt_of_le_of_lt ?_ shorter)
  exact Nat.add_le_add_right (Lexer.size_restOfLine_le _) 1

theorem frames_closeFile (frame : Frame) (outer : List Frame)
    (final : { token : Token // token.isEnd = true }) :
    (r.closeFile setup frame outer final).frames = outer :=
  rfl

/-- A step that gives no token leaves less on the levels of the files. -/
theorem below_of_goOn {after : Reader} (stepped : r.step setup = .goOn after) :
    Levels.Below (Frame.levels setup.config.maxIncludeDepth after.frames)
      (Frame.levels setup.config.maxIncludeDepth r.frames) := by
  unfold step at stepped
  split at stepped
  · cases stepped
  · cases stepped
  · rename_i frame outer _ isOpen
    rw [isOpen]
    split at stepped
    · cases stepped
    · unfold readToken at stepped
      simp only [] at stepped
      split at stepped
      · cases stepped
        rw [frames_closeFile]
        exact Frame.levels_of_close
      · rename_i more
        have shorter : { frame with lexer := frame.lexer.next.2 }.size < frame.size :=
          Nat.add_lt_add_right (Lexer.size_next_lt (by simpa using more)) 1
        split at stepped
        · cases stepped
          exact below_readDirective _ rfl shorter
        · split at stepped
          · cases stepped
          · cases stepped
            exact Frame.levels_of_shorter rfl shorter

theorem finish_isEnd : r.finish.1.isEnd = true ∧ SameState r.finish.2 r := by
  unfold finish
  split
  · rename_i final _
    exact ⟨final.2, rfl, rfl, rfl⟩
  · exact ⟨rfl, rfl, rfl, rfl⟩

/-- There is nothing left to read, or the run has ended. -/
def IsFinished (r : Reader) : Prop :=
  r.queued = [] ∧ (r.frames = [] ∨ r.status = .aborted)

theorem step_of_isFinished (finished : r.IsFinished) :
    r.step setup = .give r.finish.1 r.finish.2 := by
  obtain ⟨idle, ends⟩ := finished
  unfold step
  split
  · rename_i waiting
    rw [idle] at waiting
    cases waiting
  · rfl
  · rename_i isOpen
    obtain nothing | aborted := ends
    · rw [nothing] at isOpen
      cases isOpen
    · rw [if_pos aborted]

/-- A step that gives a token before everything is read leaves less to read. -/
theorem less_of_unfinished {token : Token} {after : Reader} (unfinished : ¬r.IsFinished)
    (stepped : r.step setup = .give token after) : Less setup after r := by
  unfold step at stepped
  split at stepped
  · rename_i queued _ waiting
    cases stepped
    refine Prod.Lex.right _ ?_
    simp only [waiting, List.length_cons]
    exact Nat.lt_succ_self _
  · rename_i nothing idle
    exact absurd ⟨nothing, .inl idle⟩ unfinished
  · rename_i frame outer idle isOpen
    split at stepped
    · rename_i aborted
      exact absurd ⟨idle, .inr aborted⟩ unfinished
    · unfold readToken at stepped
      simp only [] at stepped
      split at stepped
      · cases stepped
      · rename_i more
        split at stepped
        · cases stepped
        · split at stepped
          · cases stepped
            refine less_of_below ?_
            rw [accept, frames_reportSpelling, isOpen]
            exact Frame.levels_of_shorter rfl
              (Nat.add_lt_add_right (Lexer.size_next_lt (by simpa using more)) 1)
          · cases stepped

/-- A step that gives a token leaves less to read, or finds that nothing is left. -/
theorem less_of_give {token : Token} {after : Reader} (stepped : r.step setup = .give token after) :
    Less setup after r ∨ (token.isEnd = true ∧ SameState after r) := by
  by_cases finished : r.IsFinished
  · rw [step_of_isFinished finished] at stepped
    cases stepped
    exact .inr finish_isEnd
  · exact .inl (less_of_unfinished finished stepped)

/-- The next token that counts. -/
def pull (setup : Setup) (r : Reader) : Token × Reader :=
  match _stepped : r.step setup with
  | .give token after => (token, after)
  | .goOn after => pull setup after
  termination_by Frame.levels setup.config.maxIncludeDepth r.frames
  decreasing_by exact below_of_goOn _stepped

/-- Pulling a token leaves less to read, or finds that nothing is left. -/
theorem pull_progress (setup : Setup) (r : Reader) :
    Less setup (r.pull setup).2 r
      ∨ ((r.pull setup).1.isEnd = true ∧ SameState (r.pull setup).2 r) := by
  fun_induction pull setup r with
  | case1 r token after stepped => exact less_of_give stepped
  | case2 r after stepped ih =>
    have less : Less setup after r := less_of_below (below_of_goOn stepped)
    rcases ih with further | ⟨_, same⟩
    · exact .inl (further.trans less)
    · refine .inl ?_
      unfold Less
      rw [amount_of_sameState same]
      exact less

end CPreprocessor.Reader
