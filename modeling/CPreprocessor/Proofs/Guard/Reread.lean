/-
# Reading a guarded file again

A guarded file that is opened where its guard is defined gives no token. At its end
the reader stands where it stood before, and but for reports nothing has been learned
(`reads_of_isGuarded`).
-/
import CPreprocessor.Proofs.Guard.Verdict

namespace CPreprocessor.Reader

variable {setup : Setup}

theorem Reads.trans {r mid last : Reader} {events more : List Event}
    (first : r.Reads setup events mid) (second : mid.Reads setup more last) :
    r.Reads setup (events ++ more) last := by
  induction first with
  | done r => exact second
  | give idle isOpen here rest ih => exact .give idle isOpen here (ih second)
  | goOn idle isOpen here rest ih =>
    rw [List.append_assoc]
    exact .goOn idle isOpen here (ih second)

/-- A file that has left no conditional open closes none at its end. -/
theorem closeConditions_of_depth {frame : Frame} {s : Session}
    (level : frame.conditionDepth = s.conditions.depth) : closeConditions frame s = s := by
  simp only [closeConditions, ConditionStack.popAbove, level, Nat.sub_self, List.take_zero,
    List.drop_zero]
  rfl

variable (setup) in
/-- At the end of a file that has left no conditional open, the reader goes on with the file that
includes it. -/
theorem exists_closeFile {r : Reader} (frame : Frame) (outer : List Frame)
    (level : frame.conditionDepth = r.session.conditions.depth)
    (final : { token : Token // token.isEnd = true }) :
    ∃ journal guards status,
      r.closeFile setup frame outer final
        = { r with
            session := r.session.annotated journal, frames := outer, guards, status,
            ending := if outer = [] then some final else r.ending } := by
  obtain ⟨status, reported⟩ := exists_reportSpelling setup r final.1
  obtain ⟨journal, annotated⟩ := r.session.exists_reportSpelling final.1
  unfold closeFile
  by_cases live : r.session.conditions.isLive = true
  · simp only [live, if_true, reported, annotated]
    rw [closeConditions_of_depth (s := r.session.annotated journal) level]
    exact ⟨journal, _, status, rfl⟩
  · simp only [live, Bool.false_eq_true, if_false]
    rw [closeConditions_of_depth level]
    exact ⟨r.session.expansion.journal, _, r.status, rfl⟩

variable (setup) in
/-- At the end of a file nothing is noticed. -/
theorem reads_finish {r : Reader} {frame : Frame} {outer : List Frame} {after : Lexer}
    {final : { token : Token // token.isEnd = true }} (isOpen : r.frames = frame :: outer)
    (idle : r.queued = []) (level : frame.conditionDepth = r.session.conditions.depth)
    (finish : frame.lexer.item = (.finish final, after)) :
    ∃ journal guards status,
      r.Reads setup []
        { r with
          session := r.session.annotated journal, frames := outer, guards, status,
          ending := if outer = [] then some final else r.ending } := by
  obtain ⟨journal, guards, status, closed⟩ :=
    exists_closeFile setup { frame with lexer := after } outer level final
  have read := readToken_eq setup r frame outer
  simp only [finish] at read
  rw [closed] at read
  have silent : r.judged frame = [] := by simp only [judged, finish]
  have step := Reads.goOn idle isOpen read (.done _)
  rw [silent] at step
  exact ⟨journal, guards, status, step⟩

variable (setup) in
/-- A guarded file that is read where its guard is defined gives no token. But for the journal nothing
is learned, and the reader goes on with the file that includes it. -/
theorem reads_of_isGuarded (start : Reader) {frame : Frame} {outer : List Frame} {name : Text}
    (isOpen : start.frames = frame :: outer) (idle : start.queued = [])
    (live : start.session.conditions.isLive = true)
    (level : frame.conditionDepth = start.session.conditions.depth)
    (guarded : frame.lexer.IsGuarded name)
    (defined : start.session.macros.isDefined name = true) :
    ∃ events journal guards status ending,
      start.Reads setup events
        { start with
          session := start.session.annotated journal, frames := outer, guards, status, ending }
      ∧ events.filterMap Event.token? = []
      ∧ (outer ≠ [] → ending = start.ending) := by
  obtain ⟨items, last, final, after, reads, finish, closed⟩ := guarded
  obtain ⟨d, journal, processed, quiet⟩ := Item.processAll_of_closed setup start.place
    reads.not_finish closed live defined
  obtain ⟨atEnd, noticed, guard, status, stands⟩ := reads_processAll setup (r := start)
    isOpen idle reads quiet ⟨frame.guard, start.status, by rw [← isOpen]⟩
  rw [processed] at noticed stands
  have frames : atEnd.frames = { frame with lexer := last, guard } :: outer := by rw [stands]
  obtain ⟨journal', guards, status', closing⟩ := reads_finish setup frames
    (by rw [stands]; exact idle) (by rw [stands]; exact level) finish
  rw [stands] at noticed closing
  exact ⟨[.judges d], journal', guards, status', _, noticed.trans closing, rfl,
    fun more => if_neg more⟩

end CPreprocessor.Reader
