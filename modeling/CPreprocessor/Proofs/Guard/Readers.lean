/-
# Every reader knows its guards

`Reader.Consistent` says what holds of the open files, the open conditionals and the
recorded guards of a reader at any time. A reader that opens its main file is
consistent, and a step of reading keeps it so (`Consistent.step`); what happens between
two steps does not touch any of this. Hence all readers that a run goes through are
consistent (`Reachable.consistent`).
-/
import CPreprocessor.Preprocessor.Run
import CPreprocessor.Proofs.Guard.Consistent

namespace CPreprocessor

/-- The frame holds a file of the file system. -/
structure Frame.ComesFrom (setup : Setup) (frame : Frame) : Prop where
  source : setup.files.readSource frame.path setup.config.trigraphs = .ok frame.lexer.source
  canonical : frame.canonical = setup.files.canonical frame.path

namespace Reader

/-- The open files, the innermost first, with the open conditionals: each file has opened the
innermost of them, in a place that counts, and its guard is what its lines so far say. -/
def Layered : List Frame → List ConditionFrame → Prop
  | [], conditions => conditions = []
  | frame :: outer, conditions =>
    ∃ mine rest, conditions = mine ++ rest ∧ rest.length = frame.conditionDepth
      ∧ (∀ c ∈ mine, c.includeDepth = frame.includeDepth)
      ∧ (∀ c ∈ rest, c.includeDepth < frame.includeDepth)
      ∧ (⟨rest⟩ : ConditionStack).isLive = true
      ∧ frame.IsFollowed (mine.length + rest.length)
      ∧ Layered outer rest

/-- A file with the canonical path was guarded by the name when it was read. -/
def IsRecorded (setup : Setup) (canonical name : Text) : Prop :=
  ∃ path source, setup.files.canonical path = canonical
    ∧ setup.files.readSource path setup.config.trigraphs = .ok source
    ∧ ∀ file, (Lexer.ofSource source file setup.config.language false).IsGuarded name

/-- What holds of a reader at any time. -/
structure Consistent (setup : Setup) (r : Reader) : Prop where
  layered : Layered r.frames r.session.conditions.frames
  language : ∀ frame ∈ r.frames, frame.lexer.language = setup.config.language
  origin : ∀ frame ∈ r.frames.dropLast, frame.isPreamble = false → frame.ComesFrom setup
  recorded : r.frames ≠ [] → ∀ entry ∈ r.guards, IsRecorded setup entry.1 entry.2

variable {setup : Setup} {r next : Reader} {frame : Frame} {outer : List Frame}

/-- What is between two steps of reading does not touch what is consistent. -/
theorem Consistent.of_same (consistent : r.Consistent setup) (frames : next.frames = r.frames)
    (conditions : next.session.conditions = r.session.conditions) (guards : next.guards = r.guards) :
    next.Consistent setup where
  layered := by rw [frames, conditions]; exact consistent.layered
  language := by rw [frames]; exact consistent.language
  origin := by rw [frames]; exact consistent.origin
  recorded := by rw [frames, guards]; exact consistent.recorded

theorem Consistent.checkAbort (consistent : r.Consistent setup) :
    (r.checkAbort setup).Consistent setup := by
  obtain ⟨status, same⟩ := exists_checkAbort setup r
  rw [same]
  exact consistent.of_same rfl rfl rfl

theorem guards_reportSpelling (r : Reader) (token : Token) :
    (r.reportSpelling setup token).guards = r.guards := by
  obtain ⟨status, same⟩ := exists_reportSpelling setup r token
  rw [same]

theorem conditions_reportSpelling (r : Reader) (token : Token) :
    (r.reportSpelling setup token).session.conditions = r.session.conditions := by
  obtain ⟨status, same⟩ := exists_reportSpelling setup r token
  rw [same]
  exact congrArg (·.conditions) (r.session.reportSpelling_within r.session.conditions token)

/-- The innermost file goes on after an item: its guard is followed, and it has other conditionals
open. -/
theorem Consistent.goOn (consistent : r.Consistent setup) (isOpen : r.frames = frame :: outer)
    {found : Item} {rest lexer : Lexer} (here : frame.lexer.item = (found, rest))
    (more : ∀ final, found ≠ .finish final) (same : rest.Alike .blind lexer)
    (stays : lexer.source = rest.source ∧ lexer.file = rest.file ∧ lexer.language = rest.language)
    {guard : Guard} {conditions : ConditionStack}
    (followed : Guard.follow frame.conditionDepth (frame.guard, r.session.conditions.depth) found
      = (guard, conditions.depth))
    (mine' : ∀ mine rest, r.session.conditions.frames = mine ++ rest →
      Directive.Layer r.place mine rest →
        ∃ mine', Directive.Layer r.place mine' rest ∧ conditions.frames = mine' ++ rest)
    (frames : next.frames = { frame with lexer, guard } :: outer)
    (nextConditions : next.session.conditions = conditions) (guards : next.guards = r.guards) :
    next.Consistent setup := by
  have layered := consistent.layered
  rw [isOpen] at layered
  obtain ⟨mine, below, split, base, depths, lower, live, isFollowed, others⟩ := layered
  have place : r.place.includeDepth = frame.includeDepth := by simp only [place, isOpen]
  obtain ⟨now, layer, nowSplit⟩ := mine' mine below split ⟨by rwa [place], by rwa [place]⟩
  have depthsNow := layer.here
  have lowerNow := layer.below
  rw [place] at depthsNow lowerNow
  have depth : r.session.conditions.depth = mine.length + below.length := by
    rw [ConditionStack.depth, split, List.length_append]
  have nowDepth : conditions.depth = now.length + below.length := by
    rw [ConditionStack.depth, nowSplit, List.length_append]
  have after := isFollowed.after here more same stays
  rw [← depth, followed] at after
  have stayed := Lexer.source_item isFollowed.skips
  rw [here] at stayed
  refine ⟨?_, ?_, ?_, ?_⟩
  · rw [frames, nextConditions]
    exact ⟨now, below, nowSplit, base, depthsNow, lowerNow, live, by rwa [← nowDepth], others⟩
  · have language := consistent.language
    rw [isOpen] at language
    rw [frames]
    intro f member
    obtain rfl | member := List.mem_cons.mp member
    · exact (stays.2.2.trans stayed.2.2).trans (language frame List.mem_cons_self)
    · exact language f (List.mem_cons_of_mem _ member)
  · have origin := consistent.origin
    rw [isOpen] at origin
    rw [frames]
    cases outer with
    | nil => simp
    | cons f outer =>
      rw [List.dropLast_cons_of_ne_nil (List.cons_ne_nil _ _)] at origin ⊢
      intro g member notPreamble
      obtain rfl | member := List.mem_cons.mp member
      · have was := origin frame List.mem_cons_self notPreamble
        exact ⟨by rw [was.source, stays.1.trans stayed.1], was.canonical⟩
      · exact origin g (List.mem_cons_of_mem _ member) notPreamble
  · rw [guards]
    exact fun _ => consistent.recorded (by rw [isOpen]; exact List.cons_ne_nil _ _)

/-- The conditionals that are open belong to the innermost file or to a file that includes it. -/
theorem Layered.le {conditions : List ConditionFrame} (layered : Layered (frame :: outer) conditions) :
    ∀ c ∈ conditions, c.includeDepth ≤ frame.includeDepth := by
  obtain ⟨mine, rest, rfl, -, here, below, -⟩ := layered
  intro c member
  obtain inMine | inRest := List.mem_append.mp member
  · exact Nat.le_of_eq (here c inMine)
  · exact Nat.le_of_lt (below c inRest)

/-- A reader that opens a header in a place that counts stays consistent. -/
theorem Consistent.enter (consistent : r.Consistent setup) (isOpen : r.frames = frame :: outer)
    (live : r.session.conditions.isLive = true) (header : Header) (site : Token) :
    (r.enter setup header site).Consistent setup := by
  have reported (code : Code) (detail : Text) : (r.report site code detail).Consistent setup :=
    consistent.of_same rfl rfl rfl
  unfold Reader.enter
  split
  · exact consistent
  · split
    · split
      · exact consistent
      · exact reported _ _
    · unfold openHeader
      simp only []
      split
      · exact reported _ _
      · split
        · exact reported _ _
        · rename_i source opened
          have place : r.place.includeDepth = frame.includeDepth := by
            simp only [Reader.place, isOpen]
          have layered := consistent.layered
          have lower := (isOpen ▸ layered).le
          refine ⟨⟨[], r.session.conditions.frames, rfl, rfl, by simp, ?_, live, ?_, layered⟩, ?_, ?_,
            ?_⟩
          · intro c member
            show c.includeDepth < r.place.includeDepth + 1
            rw [place]
            exact Nat.lt_succ_of_le (lower c member)
          · rw [List.length_nil, Nat.zero_add]
            exact Frame.isFollowed_of_start rfl rfl
          · intro f member
            obtain rfl | member := List.mem_cons.mp member
            · rfl
            · exact consistent.language f member
          · have nonempty : r.frames ≠ [] := by rw [isOpen]; exact List.cons_ne_nil _ _
            intro f member notPreamble
            simp only [openFrame] at member
            rw [List.dropLast_cons_of_ne_nil nonempty] at member
            obtain rfl | member := List.mem_cons.mp member
            · exact ⟨opened, rfl⟩
            · exact consistent.origin f member notPreamble
          · exact fun _ => consistent.recorded (by rw [isOpen]; exact List.cons_ne_nil _ _)

/-- Conditionals are closed and reported, and nothing else changes. -/
theorem exists_closeConditions (frame : Frame) (s : Session) :
    ∃ journal, closeConditions frame s
      = (s.within (s.conditions.popAbove frame.conditionDepth).2).annotated journal := by
  have reported (unclosed : List ConditionFrame) (t : Session) :
      ∃ journal, unclosed.foldl
          (fun s condition => s.report condition.opener .unterminatedCondition []) t
        = t.annotated journal := by
    induction unclosed generalizing t with
    | nil => exact ⟨t.journal, rfl⟩
    | cons c more ih =>
      obtain ⟨journal, rest⟩ := ih (t.report c.opener .unterminatedCondition [])
      exact ⟨journal, rest⟩
  exact reported _ _

/-- Closing conditionals leaves those of the files around. -/
theorem conditions_closeConditions (frame : Frame) {s : Session} {mine rest : List ConditionFrame}
    (split : s.conditions.frames = mine ++ rest) (base : rest.length = frame.conditionDepth) :
    (closeConditions frame s).conditions = ⟨rest⟩ := by
  obtain ⟨journal, closed⟩ := exists_closeConditions frame s
  have kept : (closeConditions frame s).conditions
      = (s.conditions.popAbove frame.conditionDepth).2 := congrArg Session.conditions closed
  rw [kept]
  simp only [ConditionStack.popAbove, ConditionStack.depth, split, List.length_append, base,
    Nat.add_sub_cancel, List.drop_left]

/-- At its end a file is recorded if its guard has turned out to be one. -/
theorem guards_closeFile (setup : Setup) (r : Reader) (frame : Frame) (outer : List Frame)
    (final : { token : Token // token.isEnd = true }) :
    (r.closeFile setup frame outer final).guards =
      match frame.guard.complete? with
      | some name => if frame.isPreamble then r.guards else (frame.canonical, name) :: r.guards
      | none => r.guards := by
  have guards : (if r.session.conditions.isLive then r.reportSpelling setup final.1 else r).guards
      = r.guards := by
    split
    · obtain ⟨status, same⟩ := exists_reportSpelling setup r final.1
      rw [same]
    · rfl
  unfold closeFile
  cases frame.guard.complete? with
  | none => exact guards
  | some name =>
    exact congrArg
      (fun guards => if frame.isPreamble then guards else (frame.canonical, name) :: guards) guards

/-- A reader that closes a file stays consistent: its guard is recorded if it is one. -/
theorem Consistent.closeFile (consistent : r.Consistent setup) (isOpen : r.frames = frame :: outer)
    {final : { token : Token // token.isEnd = true }} {rest : Lexer}
    (finish : frame.lexer.item = (.finish final, rest)) :
    (r.closeFile setup { frame with lexer := rest } outer final).Consistent setup := by
  have layered := consistent.layered
  rw [isOpen] at layered
  obtain ⟨mine, below, split, base, -, -, -, isFollowed, others⟩ := layered
  generalize reported : (if r.session.conditions.isLive then r.reportSpelling setup final.1 else r)
    = r'
  have conditions : r'.session.conditions = r.session.conditions := by
    rw [← reported]
    split
    · exact conditions_reportSpelling r final.1
    · rfl
  have unfolded : r.closeFile setup { frame with lexer := rest } outer final
      = { r' with
          session := closeConditions { frame with lexer := rest } r'.session
          guards := (r.closeFile setup { frame with lexer := rest } outer final).guards
          ending := if outer = [] then some final else r'.ending
          frames := outer } := by
    rw [← reported]
    rfl
  rw [unfolded]
  clear unfolded
  refine ⟨?_, ?_, ?_, ?_⟩
  · show Layered outer (closeConditions { frame with lexer := rest } r'.session).conditions.frames
    rw [conditions_closeConditions { frame with lexer := rest } (conditions ▸ split) base]
    exact others
  · intro f member
    exact consistent.language f (by rw [isOpen]; exact List.mem_cons_of_mem _ member)
  · intro f member
    refine consistent.origin f ?_
    rw [isOpen]
    cases outer with
    | nil => cases member
    | cons g outer => exact List.mem_cons_of_mem _ member
  · intro nonempty entry member
    have before := consistent.recorded (by rw [isOpen]; exact List.cons_ne_nil _ _)
    have fresh (name : Text) (closed : frame.guard.complete? = some name)
        (notPreamble : ¬frame.isPreamble = true) :
        IsRecorded setup frame.canonical name := by
      have origin := consistent.origin frame (by
        rw [isOpen, List.dropLast_cons_of_ne_nil nonempty]
        exact List.mem_cons_self) (by simpa using notPreamble)
      have guard : frame.guard = .closed name := by
        cases was : frame.guard <;> simp_all [Guard.complete?]
      have guarded := isFollowed.isGuarded finish guard
      rw [consistent.language frame (by rw [isOpen]; exact List.mem_cons_self)] at guarded
      exact ⟨frame.path, frame.lexer.source, origin.canonical.symm, origin.source, fun file =>
        guarded.of_alike (v := .blind) (Lexer.alike_ofSource _ _ rfl)⟩
    rw [guards_closeFile] at member
    split at member
    · rename_i name closed
      split at member
      · exact before entry member
      · rename_i notPreamble
        obtain rfl | member := List.mem_cons.mp member
        · exact fresh name closed notPreamble
        · exact before entry member
    · exact before entry member

/-- A directive that asks for anything stands in a place that counts. -/
theorem live_of_asks {d : Directive} {place : Place} {s t : Session} {action : Action}
    (asked : d.execute setup place s = (action, t)) (something : action ≠ .nothing) :
    s.conditions.isLive = true ∧ t.conditions = s.conditions := by
  cases conditional : d.kind.isConditional with
  | true =>
    rw [Directive.execute_of_isConditional _ _ _ _ conditional] at asked
    cases asked
    exact absurd rfl something
  | false =>
    have kept := d.conditions_execute setup place s conditional
    rw [asked] at kept
    refine ⟨?_, kept⟩
    cases live : s.conditions.isLive with
    | true => rfl
    | false =>
      rw [Directive.execute, if_neg (by simp [live, conditional])] at asked
      cases asked
      exact absurd rfl something

theorem live_of_enter {d : Directive} {place : Place} {s t : Session} {header : Header}
    {site : Token} (asked : d.execute setup place s = (.enter header site, t)) :
    s.conditions.isLive = true ∧ t.conditions = s.conditions :=
  live_of_asks asked (by simp)

/-- The guard after a directive is the one that following its lines gives. -/
theorem follow_directive {mine mine' rest : List ConditionFrame} (guard : Guard) {base before after : Nat}
    {d : Directive} (isBase : rest.length = base) (isBefore : before = mine.length + rest.length)
    (isAfter : after = mine'.length + rest.length) (opened : mine'.length = d.leavesOpen mine.length) :
    Guard.follow base (guard, before) (.directive d)
      = (guard.afterDirective d before after, after) := by
  have same : Guard.depthAfter base before (.directive d) = after := by
    rw [isAfter, opened, isBefore, ← isBase]
    simp only [Guard.depthAfter, Directive.leavesOpen]
    split
    · omega
    · by_cases closes : d.kind = .endif
      · by_cases inner : 0 < mine.length
        · rw [if_pos ⟨closes, by omega⟩, if_pos closes]
          omega
        · rw [if_neg (by omega), if_pos closes]
          omega
      · rw [if_neg (fun both => closes both.1), if_neg closes]
  simp only [Guard.follow, same]

/-- Whatever a directive asks for, the file goes on after its line. -/
theorem Consistent.goOnAfter (consistent : r.Consistent setup) (isOpen : r.frames = frame :: outer)
    {d : Directive} {rest lexer : Lexer} (here : frame.lexer.item = (.directive d, rest))
    (same : lexer = rest ∨ ∃ line name, lexer = rest.presentLine line name) :
    Reader.Consistent setup { r with
      session := (d.execute setup r.place r.session).2
      frames :=
        { frame with
          lexer
          guard := frame.guard.afterDirective d r.session.conditions.depth
            (d.execute setup r.place r.session).2.conditions.depth } :: outer } := by
  have layered := consistent.layered
  rw [isOpen] at layered
  obtain ⟨mine, below, split, base, depths, lower, -, isFollowed, -⟩ := layered
  have place : r.place.includeDepth = frame.includeDepth := by simp only [Reader.place, isOpen]
  have layer : Directive.Layer r.place mine below := ⟨by rwa [place], by rwa [place]⟩
  obtain ⟨mine', layer', opened, split'⟩ := d.exists_conditions_execute setup layer split
  have before : r.session.conditions.depth = mine.length + below.length := by
    rw [ConditionStack.depth, split, List.length_append]
  have after : (d.execute setup r.place r.session).2.conditions.depth
      = mine'.length + below.length := by
    rw [ConditionStack.depth, split', List.length_append]
  have followed := follow_directive frame.guard base before after opened
  have changes (m b : List ConditionFrame) (split : r.session.conditions.frames = m ++ b)
      (layer : Directive.Layer r.place m b) :
      ∃ m', Directive.Layer r.place m' b
        ∧ (d.execute setup r.place r.session).2.conditions.frames = m' ++ b := by
    obtain ⟨m', layer', -, split'⟩ := d.exists_conditions_execute setup layer split
    exact ⟨m', layer', split'⟩
  have looks : rest.Alike .blind rest := by
    have same := isFollowed.alike_self.item.2
    rw [here] at same
    exact same.of_spaced
  obtain rfl | ⟨line, name, rfl⟩ := same
  · exact consistent.goOn isOpen here (by simp) looks ⟨rfl, rfl, rfl⟩ followed changes rfl rfl rfl
  · exact consistent.goOn isOpen here (by simp) (looks.blind_presentLine line name) ⟨rfl, rfl, rfl⟩
      followed changes rfl rfl rfl

/-- A reader that carries out a directive stays consistent. -/
theorem Consistent.afterDirective (consistent : r.Consistent setup)
    (isOpen : r.frames = frame :: outer) {d : Directive} {rest : Lexer}
    (here : frame.lexer.item = (.directive d, rest)) :
    (r.afterDirective setup { frame with lexer := rest } outer d).Consistent setup := by
  have moved := consistent.goOnAfter isOpen here (.inl rfl)
  unfold Reader.afterDirective
  refine Consistent.checkAbort ?_
  cases asked : (d.execute setup r.place r.session).1 with
  | nothing => exact moved
  | pass => exact moved.of_same rfl rfl rfl
  | once => exact moved.of_same rfl rfl rfl
  | present line name => exact consistent.goOnAfter isOpen here (.inr ⟨line, name, rfl⟩)
  | enter header site =>
    have live := live_of_enter (t := (d.execute setup r.place r.session).2)
      (Prod.ext asked rfl)
    refine moved.enter rfl ?_ header site
    show (d.execute setup r.place r.session).2.conditions.isLive = true
    rw [live.2]
    exact live.1

/-- A step of reading keeps a reader consistent. -/
theorem Consistent.readToken (consistent : r.Consistent setup) (isOpen : r.frames = frame :: outer)
    {token : Token} (read : r.readToken setup frame outer = .give token next
      ∨ r.readToken setup frame outer = .goOn next) : next.Consistent setup := by
  rw [readToken_eq] at read
  split at read
  · rename_i final rest finish
    obtain read | read := read <;> cases read
    exact consistent.closeFile isOpen finish
  · rename_i d rest here
    obtain read | read := read <;> cases read
    exact consistent.afterDirective isOpen here
  · rename_i given rest here
    have layered := consistent.layered
    rw [isOpen] at layered
    obtain ⟨mine, below, split, base, -, -, baseLive, isFollowed, -⟩ := layered
    have depth : r.session.conditions.depth = mine.length + below.length := by
      rw [ConditionStack.depth, split, List.length_append]
    have looks : rest.Alike .blind rest := by
      have same := isFollowed.alike_self.item.2
      rw [here] at same
      exact same.of_spaced
    have unchanged (m b : List ConditionFrame) (split : r.session.conditions.frames = m ++ b)
        (layer : Directive.Layer r.place m b) :
        ∃ m', Directive.Layer r.place m' b ∧ r.session.conditions.frames = m' ++ b :=
      ⟨m, layer, split⟩
    split at read
    · obtain read | read := read <;> cases read
      exact consistent.goOn isOpen here (by simp) looks ⟨rfl, rfl, rfl⟩ rfl unchanged
        (frames_reportSpelling _) (conditions_reportSpelling _ _) (guards_reportSpelling _ _)
    · rename_i dead
      obtain read | read := read <;> cases read
      -- A token that does not count stands inside of a conditional, where no guard starts or ends.
      have inside : mine ≠ [] := by
        rintro rfl
        rw [ConditionStack.isLive, split] at dead
        exact dead baseLive
      have same : frame.guard.afterToken = frame.guard := by
        have fits := isFollowed.fits
        have positive := List.length_pos_iff.mpr inside
        cases guard : frame.guard with
        | unread => rw [guard] at fits; simp only [Guard.Fits] at fits; omega
        | closed name => rw [guard] at fits; simp only [Guard.Fits] at fits; omega
        | absent => rfl
        | inside name opened => rfl
      refine consistent.goOn isOpen here
        (by simp) looks ⟨rfl, rfl, rfl⟩ ?_ unchanged rfl rfl rfl
      simp only [Guard.follow, Guard.depthAfter, same]

/-- From step to step a reader stays consistent. -/
theorem Consistent.step (consistent : r.Consistent setup) {token : Token}
    (stepped : r.step setup = .give token next ∨ r.step setup = .goOn next) :
    next.Consistent setup := by
  have finished : r.finish.2.Consistent setup := by
    unfold finish
    split
    · exact consistent
    · exact consistent.of_same rfl rfl rfl
  unfold Reader.step at stepped
  split at stepped
  · obtain stepped | stepped := stepped <;> cases stepped
    exact consistent.of_same rfl rfl rfl
  · obtain stepped | stepped := stepped <;> cases stepped
    exact finished
  · rename_i frame outer _ isOpen
    split at stepped
    · obtain stepped | stepped := stepped <;> cases stepped
      exact finished
    · exact consistent.readToken isOpen stepped

theorem Consistent.of_goOn (consistent : r.Consistent setup) (stepped : r.step setup = .goOn next) :
    next.Consistent setup :=
  @Consistent.step _ _ _ consistent .endOfNothing (.inr stepped)

end Reader

end CPreprocessor
