/-
# Readers among the items of a file

As long as the directives of a file ask the reader for nothing, reading is a matter of
sessions: each item changes the session, and what can be noticed is a token that is
given or a condition that is judged (`Item.processAll`). `Reader.Reads` follows a
reader from step to step with what can be noticed. A reader goes through such items
one by one (`reads_processAll`), and unless a run ends early, the tokens that are
noticed are the ones that are pulled (`Reads.pulled`).
-/
import CPreprocessor.Proofs.Directive.Conditional
import CPreprocessor.Proofs.Reading.Items

namespace CPreprocessor

/-- What can be noticed of a reader: it gives a token, or it judges the condition of a directive. -/
inductive Event where
  | gives (token : Token)
  | judges (d : Directive)

/-- The token of an event, if it gives one. -/
def Event.token? : Event → Option Token
  | .gives token => some token
  | .judges _ => none

/-! ## Items one by one -/

namespace Item

variable (setup : Setup) (place : Place)

/-- What a reader does with an item that includes nothing. -/
def process (s : Session) : Item → List Event × Session
  | .token given =>
    if s.conditions.isLive then ([.gives given], s.reportSpelling given) else ([], s)
  | .directive d =>
    (if d.asks place s then [.judges d] else [], (d.execute setup place s).2)
  | .finish _ => ([], s)

/-- What a reader does with some items, one after the other. -/
def processAll : List Item → Session → List Event × Session
  | [], s => ([], s)
  | item :: rest, s =>
    let first := item.process setup place s
    let more := processAll rest first.2
    (first.1 ++ more.1, more.2)

theorem processAll_append (first second : List Item) (s : Session) :
    processAll setup place (first ++ second) s =
      ((processAll setup place first s).1
          ++ (processAll setup place second (processAll setup place first s).2).1,
        (processAll setup place second (processAll setup place first s).2).2) := by
  induction first generalizing s with
  | nil => rfl
  | cons item rest ih =>
    simp only [List.cons_append, processAll, ih, List.append_assoc]

theorem processAll_tokens_of_dead {s : Session} (dead : s.conditions.isLive = false)
    (line : List Token) : processAll setup place (line.map .token) s = ([], s) := by
  induction line with
  | nil => rfl
  | cons first rest ih => simp [processAll, process, dead, ih]

theorem processAll_tokens_of_live {s : Session} (live : s.conditions.isLive = true)
    (line : List Token) :
    processAll setup place (line.map .token) s = (line.map .gives, s.reportSpellings line) := by
  induction line generalizing s with
  | nil => rfl
  | cons first rest ih =>
    have still : (s.reportSpelling first).conditions.isLive = true := by
      rw [← s.within_self, Session.reportSpelling_within]
      exact live
    have unfolded : s.reportSpellings (first :: rest)
        = (s.reportSpelling first).reportSpellings rest := rfl
    simp only [List.map_cons, processAll, process, live, if_true, ih still, unfolded,
      List.singleton_append]

/-! ## Conditional directives as items -/

section Conditionals

variable (s : Session) (frame : ConditionFrame) (outer : List ConditionFrame)

/-- A directive that opens a conditional, where nothing counts. -/
theorem process_opening_of_dead {opening : Directive} (opens : opening.kind.opens = true)
    (dead : s.conditions.isLive = false) :
    (Item.directive opening).process setup place s =
      ([], s.inside ⟨.first, opening.hash, false, true, false, place.includeDepth⟩
        s.conditions.frames) := by
  have conditional := DirectiveKind.isConditional_of_opens opens
  have asks : opening.asks place s = false := by
    cases kind : opening.kind <;> simp_all [DirectiveKind.opens, Directive.asks]
  simp only [process, Directive.execute_of_isConditional _ _ _ _ conditional, asks]
  cases kind : opening.kind <;>
    simp_all [DirectiveKind.opens, Directive.turn, ConditionStack.push, Session.inside,
      Session.within]

/-- A directive that opens a conditional, where lines count. -/
theorem process_opening_of_live {opening : Directive} (opens : opening.kind.opens = true)
    (live : s.conditions.isLive = true) :
    (Item.directive opening).process setup place s =
      ([.judges opening],
        (opening.holds setup place s).2.inside
          ⟨.first, opening.hash, (opening.holds setup place s).1, (opening.holds setup place s).1,
            true, place.includeDepth⟩ s.conditions.frames) := by
  have conditional := DirectiveKind.isConditional_of_opens opens
  have asks : opening.asks place s = true := by
    cases kind : opening.kind <;> simp_all [DirectiveKind.opens, Directive.asks]
  have kept := Directive.conditions_holds opening setup place s
  simp only [process, Directive.execute_of_isConditional _ _ _ _ conditional, asks]
  cases kind : opening.kind <;>
    simp_all [DirectiveKind.opens, Directive.turn, ConditionStack.push, Session.inside,
      Session.within]

/-- The condition of a further branch is judged if no branch has been chosen, and the branch is
entered. -/
theorem process_further {d : Directive} (isFurther : d.kind.goesOn = true)
    (here : frame.includeDepth = place.includeDepth) (notLast : frame.branch ≠ .last) :
    (Item.directive d).process setup place (s.inside frame outer) =
      if !frame.taken && frame.parentLive then
        ([.judges d],
          (d.holds setup place s).2.inside
            { frame with
              branch := .further, live := (d.holds setup place s).1,
              taken := (d.holds setup place s).1 } outer)
      else
        ([], s.inside { frame with branch := .further, live := false } outer) := by
  have conditional := DirectiveKind.isConditional_of_goesOn isFurther
  have present := Directive.present?_inside s outer here
  have presentAfter := Directive.present?_inside (d.holds setup place s).2 outer here
  have asks : d.asks place (s.inside frame outer) = (!frame.taken && frame.parentLive) := by
    cases kind : d.kind <;>
      simp_all [DirectiveKind.goesOn, Directive.asks, Session.inside, ConditionStack.needsCondition]
  have turns (t : Session) (condition : Bool) :
      d.turn place (t.inside frame outer) condition =
        t.inside { frame with
          branch := .further, live := !frame.taken && frame.parentLive && condition,
          taken := frame.taken || (!frame.taken && frame.parentLive && condition) } outer := by
    have presentIn := Directive.present?_inside t outer here
    cases kind : d.kind <;>
      simp_all [DirectiveKind.goesOn, Directive.turn, Directive.enterBranch,
        ConditionStack.enterFurther, ConditionStack.modifyTop, Session.inside, Session.within]
  simp only [process, Directive.execute_of_isConditional _ _ _ _ conditional, asks]
  have judged : d.holds setup place (s.inside frame outer)
      = ((d.holds setup place s).1, (d.holds setup place s).2.inside frame outer) :=
    Directive.holds_within ..
  cases chosen : frame.taken <;> cases around : frame.parentLive <;>
    simp [judged, turns, chosen, around]

/-- The last branch is entered. -/
theorem process_last {d : Directive} (isLast : d.kind = .elseBranch)
    (here : frame.includeDepth = place.includeDepth) (notLast : frame.branch ≠ .last) :
    (Item.directive d).process setup place (s.inside frame outer) =
      ([], (if frame.parentLive then d.reportExtra 0 s else s).inside
        { frame with branch := .last, live := !frame.taken && frame.parentLive, taken := true }
        outer) := by
  have conditional : d.kind.isConditional = true := by rw [isLast]; rfl
  have present := Directive.present?_inside s outer here
  have asks : d.asks place (s.inside frame outer) = false := by simp [Directive.asks, isLast]
  simp only [process, Directive.execute_of_isConditional _ _ _ _ conditional, asks,
    Bool.false_eq_true, if_false, Directive.turn, isLast, Directive.enterLast,
    Directive.enterBranch, present, notLast, Directive.reportAnyToken]
  split
  · rw [Session.inside, Directive.reportExtra_within]
    rfl
  · rfl

/-- A conditional is closed. -/
theorem process_closing {closing : Directive} (closes : closing.kind = .endif)
    (here : frame.includeDepth = place.includeDepth) :
    (Item.directive closing).process setup place (s.inside frame outer) =
      ([], (if frame.parentLive then closing.reportExtra 0 s else s).within ⟨outer⟩) := by
  have conditional : closing.kind.isConditional = true := by rw [closes]; rfl
  have present := Directive.present?_inside s outer here
  have asks : closing.asks place (s.inside frame outer) = false := by
    simp [Directive.asks, closes]
  simp only [process, Directive.execute_of_isConditional _ _ _ _ conditional, asks,
    Bool.false_eq_true, if_false, Directive.turn, closes, Directive.closeCondition, present,
    Directive.reportAnyToken]
  split
  · rw [Session.inside, Directive.reportExtra_within]
    rfl
  · rfl

end Conditionals

/-- Where the session has got to, the item asks the reader for nothing. -/
def Quiet (s : Session) : Item → Prop
  | .token _ => True
  | .directive d => (d.execute setup place s).1 = .nothing
  | .finish _ => False

/-- From a session on, the items ask the reader for nothing. -/
def AllQuiet : List Item → Session → Prop
  | [], _ => True
  | item :: rest, s => item.Quiet setup place s ∧ AllQuiet rest (item.process setup place s).2

end Item

namespace Reader

variable {setup : Setup} {r next last : Reader} {frame : Frame} {outer : List Frame}

/-- The condition that reading the next item of the innermost file judges, if it does. -/
def judged (r : Reader) (frame : Frame) : List Event :=
  match frame.lexer.item with
  | (.directive d, _) => if d.asks r.place r.session then [.judges d] else []
  | _ => []

/-- From one state of a reader to a later one, with what can be noticed on the way. No directive is
passed on meanwhile. -/
inductive Reads (setup : Setup) : Reader → List Event → Reader → Prop where
  | done (r : Reader) : Reads setup r [] r
  | give {r next last : Reader} {frame : Frame} {outer : List Frame} {token : Token}
      {events : List Event} (idle : r.queued = []) (isOpen : r.frames = frame :: outer)
      (here : r.readToken setup frame outer = .give token next)
      (more : Reads setup next events last) : Reads setup r (.gives token :: events) last
  | goOn {r next last : Reader} {frame : Frame} {outer : List Frame} {events : List Event}
      (idle : r.queued = []) (isOpen : r.frames = frame :: outer)
      (here : r.readToken setup frame outer = .goOn next)
      (more : Reads setup next events last) : Reads setup r (r.judged frame ++ events) last

/-! ## Going through items -/

/-- The reader `start` has gone on in its innermost file, of which `frame` was left: the session and
the place in the file are other ones, and perhaps what is known of the guard, and the status. -/
def At (start : Reader) (frame : Frame) (outer : List Frame) (s : Session) (l : Lexer) (r : Reader) :
    Prop :=
  ∃ guard status,
    r = { start with session := s, frames := { frame with lexer := l, guard } :: outer, status }

variable (setup) in
theorem exists_checkAbort (r : Reader) : ∃ status, r.checkAbort setup = { r with status } := by
  unfold checkAbort
  split
  · exact ⟨_, rfl⟩
  · exact ⟨r.status, rfl⟩

variable (setup) in
theorem exists_reportSpelling (r : Reader) (token : Token) :
    ∃ status, r.reportSpelling setup token
      = { r with session := r.session.reportSpelling token, status } := by
  unfold reportSpelling Session.reportSpelling
  cases token.error with
  | none => exact ⟨r.status, rfl⟩
  | some error => exact exists_checkAbort setup _

variable {start : Reader} {s : Session} {l : Lexer}

/-- A token that counts is given. -/
theorem At.accept (here : start.At frame outer s l r)
    (token : Token) {present : Frame} (frames : r.frames = present :: outer) (l' : Lexer) :
    start.At frame outer (s.reportSpelling token) l'
      (r.accept setup { present with lexer := l' } outer token) := by
  obtain ⟨guard, status, rfl⟩ := here
  cases frames
  obtain ⟨status', reported⟩ := exists_reportSpelling setup
    { start with
      session := s, frames := { frame with lexer := l', guard := guard.afterToken } :: outer, status }
    token
  exact ⟨guard.afterToken, status', reported⟩

/-- A directive that asks the reader for nothing changes the session only. -/
theorem At.afterDirective (isOpen : start.frames = frame :: outer)
    (here : start.At frame outer s l r) {d : Directive}
    (nothing : (d.execute setup start.place s).1 = .nothing) {present : Frame}
    (frames : r.frames = present :: outer) (l' : Lexer) :
    start.At frame outer (d.execute setup start.place s).2 l'
      (r.afterDirective setup { present with lexer := l' } outer d) := by
  obtain ⟨guard, status, rfl⟩ := here
  cases frames
  have place : Reader.place
      { start with session := s, frames := { frame with lexer := l, guard } :: outer, status }
        = start.place := by
    simp only [Reader.place, isOpen]
  unfold Reader.afterDirective
  simp only [place, nothing, act]
  obtain ⟨status', ended⟩ := exists_checkAbort setup
    { start with
      session := (d.execute setup start.place s).2,
      frames :=
        { frame with
          lexer := l'
          guard := guard.afterDirective d s.conditions.depth
            (d.execute setup start.place s).2.conditions.depth } :: outer,
      status }
  exact ⟨_, status', ended⟩

variable (setup) in
/-- A reader goes through items one by one if their directives ask it for nothing. -/
theorem reads_processAll (isOpen : start.frames = frame :: outer) (idle : start.queued = [])
    {items : List Item} {l' : Lexer} (lines : l.Reads items l')
    (quiet : Item.AllQuiet setup start.place items s) (here : start.At frame outer s l r) :
    ∃ last, r.Reads setup (Item.processAll setup start.place items s).1 last
      ∧ start.At frame outer (Item.processAll setup start.place items s).2 l' last := by
  induction lines generalizing r s with
  | done l => exact ⟨r, .done r, here⟩
  | @token l after l' token items item more ih =>
    obtain ⟨guard, status, same⟩ := id here
    have idle : r.queued = [] := by rw [same]; exact idle
    have frames : r.frames = { frame with lexer := l, guard } :: outer := by rw [same]
    have session : r.session = s := by rw [same]
    have read := readToken_eq setup r { frame with lexer := l, guard } outer
    simp only [item] at read
    simp only [Item.processAll, Item.process]
    by_cases live : s.conditions.isLive = true
    · rw [if_pos (by rw [session]; exact live)] at read
      rw [if_pos live]
      have rest : Item.AllQuiet setup start.place items (s.reportSpelling token) := by
        simpa only [Item.AllQuiet, Item.process, live, if_true] using quiet.2
      obtain ⟨last, reads, stands⟩ := ih rest (here.accept token frames after)
      exact ⟨last, .give idle frames read reads, stands⟩
    · rw [if_neg (by rw [session]; exact live)] at read
      rw [if_neg live]
      have rest : Item.AllQuiet setup start.place items s := by
        simpa only [Item.AllQuiet, Item.process, live, Bool.false_eq_true, if_false] using quiet.2
      have moved : start.At frame outer s after
          { r with frames := { frame with lexer := after, guard } :: outer } :=
        ⟨guard, status, by rw [same]⟩
      obtain ⟨last, reads, stands⟩ := ih rest moved
      have silent : r.judged { frame with lexer := l, guard } = [] := by simp only [judged, item]
      have step := Reads.goOn idle frames read reads
      rw [silent] at step
      exact ⟨last, step, stands⟩
  | @directive l after l' d items item more ih =>
    obtain ⟨guard, status, same⟩ := id here
    have idle : r.queued = [] := by rw [same]; exact idle
    have frames : r.frames = { frame with lexer := l, guard } :: outer := by rw [same]
    have session : r.session = s := by rw [same]
    have place : r.place = start.place := by
      rw [same]
      simp only [Reader.place, isOpen]
    have read := readToken_eq setup r { frame with lexer := l, guard } outer
    simp only [item] at read
    obtain ⟨last, reads, stands⟩ := ih quiet.2 (here.afterDirective isOpen quiet.1 frames after)
    have noticed : r.judged { frame with lexer := l, guard }
        = if d.asks start.place s then [.judges d] else [] := by
      simp only [judged, item, place, session]
    have step := Reads.goOn idle frames read reads
    rw [noticed] at step
    exact ⟨last, step, stands⟩

/-! ## What is pulled -/

/-- The next `n` tokens that are pulled. -/
def pulled (setup : Setup) : Nat → Reader → List Token
  | 0, _ => []
  | n + 1, r => (r.pull setup).1 :: pulled setup n (r.pull setup).2

theorem pulled_of_goOn (stepped : r.step setup = .goOn next) (n : Nat) :
    r.pulled setup n = next.pulled setup n := by
  cases n with
  | zero => rfl
  | succ n => rw [pulled, pulled, pull_of_goOn stepped]

section Lenient

variable (lenient : setup.config.failFast = false)
include lenient

theorem status_checkAbort (r : Reader) : (r.checkAbort setup).status = r.status := by
  simp only [checkAbort, lenient, Bool.false_and, Bool.false_eq_true, if_false]

theorem status_reportSpelling (r : Reader) (token : Token) :
    (r.reportSpelling setup token).status = r.status := by
  unfold reportSpelling
  split
  · exact status_checkAbort lenient _
  · rfl

omit lenient in
theorem status_enter (r : Reader) (header : Header) (site : Token) :
    (r.enter setup header site).status = r.status := by
  unfold enter openHeader
  simp only []
  repeat' split
  all_goals rfl

omit lenient in
theorem status_act (r : Reader) (frame : Frame) (outer : List Frame) (d : Directive)
    (action : Action) : (r.act setup frame outer d action).status = r.status := by
  cases action with
  | enter header site => exact status_enter _ _ _
  | _ => rfl

theorem status_closeFile (r : Reader) (frame : Frame) (outer : List Frame)
    (final : { token : Token // token.isEnd = true }) :
    (r.closeFile setup frame outer final).status = r.status := by
  unfold closeFile
  by_cases live : r.session.conditions.isLive = true
  · simp only [live, if_true]
    exact status_reportSpelling lenient r final.1
  · simp only [live]
    rfl

/-- Reading does not change the status, unless a run is to end with its first error. -/
theorem status_readToken (token : Token)
    (here : r.readToken setup frame outer = .give token next
      ∨ r.readToken setup frame outer = .goOn next) : next.status = r.status := by
  rw [readToken_eq] at here
  split at here
  · obtain here | here := here <;> cases here
    exact status_closeFile lenient ..
  · obtain here | here := here <;> cases here
    unfold afterDirective
    simp only [status_checkAbort lenient, status_act]
  · split at here
    · obtain here | here := here <;> cases here
      exact status_reportSpelling lenient ..
    · obtain here | here := here <;> cases here
      rfl

omit lenient in
variable (setup) in
theorem step_of_readToken (idle : r.queued = []) (isOpen : r.frames = frame :: outer)
    (goesOn : r.status ≠ .aborted) : r.step setup = r.readToken setup frame outer := by
  unfold step
  rw [idle, isOpen]
  exact if_neg goesOn

omit lenient in
/-- What is read without a token does not change which token is pulled next, unless the run ends on the
way. -/
theorem Reads.pull_eq_or_finished {events : List Event} (reads : r.Reads setup events last)
    (silent : events.filterMap Event.token? = []) (goesOn : r.status ≠ .aborted) :
    r.pull setup = last.pull setup
      ∨ ∃ ended : Reader, ended.status = .aborted ∧ r.pull setup = ended.finish := by
  induction reads with
  | done r => exact .inl rfl
  | give idle isOpen here more ih => cases silent
  | @goOn r next last frame outer events idle isOpen here more ih =>
    rw [List.filterMap_append, List.append_eq_nil_iff] at silent
    have stepped := step_of_readToken setup idle isOpen goesOn
    rw [here] at stepped
    rw [pull_of_goOn stepped]
    by_cases ends : next.status = .aborted
    · cases more with
      | done => exact .inl rfl
      | give idle' => exact .inr ⟨next, ends, pull_of_isFinished ⟨idle', .inr ends⟩⟩
      | goOn idle' => exact .inr ⟨next, ends, pull_of_isFinished ⟨idle', .inr ends⟩⟩
    · exact ih silent.2 ends

theorem Reads.status {events : List Event} (reads : r.Reads setup events last) :
    last.status = r.status := by
  induction reads with
  | done r => rfl
  | give idle isOpen here more ih => exact ih.trans (status_readToken lenient _ (.inl here))
  | goOn idle isOpen here more ih =>
    exact ih.trans (status_readToken lenient .endOfNothing (.inr here))

/-- What is read without a token does not change which token is pulled next. -/
theorem Reads.pull_eq {events : List Event} (reads : r.Reads setup events last)
    (silent : events.filterMap Event.token? = []) (goesOn : r.status ≠ .aborted) :
    r.pull setup = last.pull setup := by
  induction reads with
  | done r => rfl
  | give idle isOpen here more ih => cases silent
  | goOn idle isOpen here more ih =>
    rw [List.filterMap_append, List.append_eq_nil_iff] at silent
    have stepped := step_of_readToken setup idle isOpen goesOn
    rw [here] at stepped
    have status := status_readToken lenient .endOfNothing (.inr here)
    exact (pull_of_goOn stepped).trans (ih silent.2 (by rwa [status]))

/-- The tokens that are noticed are the ones that are pulled, unless a run is to end with its first
error. -/
theorem Reads.pulled {events : List Event} (reads : r.Reads setup events last)
    (goesOn : r.status ≠ .aborted) (n : Nat) :
    r.pulled setup ((events.filterMap Event.token?).length + n)
      = events.filterMap Event.token? ++ last.pulled setup n := by
  induction reads with
  | done r => simp
  | @give r next last frame outer token events idle isOpen here more ih =>
    have stepped := step_of_readToken setup idle isOpen goesOn
    rw [here] at stepped
    have same := status_readToken lenient token (.inl here)
    have later := ih (by rwa [same])
    have one : (Event.gives token :: events).filterMap Event.token?
        = token :: events.filterMap Event.token? := rfl
    rw [one, List.length_cons, Nat.succ_add, Reader.pulled, pull_of_give stepped, later]
    rfl
  | @goOn r next last frame outer events idle isOpen here more ih =>
    have stepped := step_of_readToken setup idle isOpen goesOn
    rw [here] at stepped
    have same := status_readToken lenient .endOfNothing (.inr here)
    have later := ih (by rwa [same])
    have silent : (r.judged frame).filterMap Event.token? = [] := by
      unfold judged
      repeat' split
      all_goals rfl
    rw [List.filterMap_append, silent, List.nil_append, pulled_of_goOn stepped, later]

end Lenient

end Reader

end CPreprocessor
