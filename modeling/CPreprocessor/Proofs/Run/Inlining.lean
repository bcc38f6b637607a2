/-
# Inlining a header

A main file includes a header, another one has the lines of the header in its place. The
readers of the two runs make the same steps with the same files open; but while the first
one has the header open on top of its main file, the second one reads the lines in its main
file (`Reader.InsideHeader`). This module follows the steps outside of the header, the one that
enters it among them (`Reader.followedBy_of_arrives`): a header that adds nothing is not opened
by the first reader, and the second one goes over the lines without a token.
-/
import CPreprocessor.Proofs.Places.Words
import CPreprocessor.Proofs.Reading.Inlining
import CPreprocessor.Proofs.Run.DeadLines
import CPreprocessor.Proofs.Run.MainFile

namespace CPreprocessor

/-- An include that counts asks for the header that the files and the search path say, if the answers
that are kept are right. -/
theorem Directive.execute_include {d : Directive} {wanted : IncludeName} (kind : d.kind = .includeHeader)
    (named : IncludeName.read? d.args = some wanted) {setup : Setup} {place : Place} {s : Session}
    (live : s.conditions.isLive = true)
    (sound : s.resolver.IsSound setup.files setup.config.searchPath)
    (plain : '|' ∉ Path.parent place.path) {header : Header}
    (answer : (Session.headerQuestion place false wanted).answer setup.files setup.config.searchPath
      = some header) :
    ∃ journal resolver, resolver.IsSound setup.files setup.config.searchPath
      ∧ d.execute setup place s = (.enter header d.hash, { s.annotated journal with resolver }) := by
  have asked := sound.ask (Session.hasPlainDirectory_headerQuestion plain false wanted)
  obtain ⟨journal, reported⟩ := d.exists_reportExtra s wanted.consumed
  refine ⟨journal, _, asked.2, ?_⟩
  have found : (s.annotated journal).findHeader setup place false wanted
      = (some header, { s.annotated journal with
          resolver := (s.resolver.ask setup.files (Session.headerQuestion place false wanted)).2 }) := by
    rw [Session.findHeader_eq_ask]
    exact Prod.ext (asked.1.trans answer) rfl
  have name : s.readHeaderName setup place d.args = (some wanted, d.args, s) := by
    rw [Session.readHeaderName, named]
  have next : decide (d.kind = .includeNext) = false := by rw [kind]; rfl
  rw [execute, live, Bool.true_or, if_pos rfl, carryOut, kind]
  simp only []
  unfold includeHeader
  rw [name]
  cases args : d.args with
  | nil => rw [args] at named; cases named
  | cons first rest =>
    unfold reportExtra at reported
    rw [args] at reported
    cases more : (first :: rest).drop wanted.consumed with
    | nil =>
      simp only [more] at reported ⊢
      rw [← reported] at found ⊢
      rw [next, found]
    | cons extra tail =>
      simp only [more] at reported ⊢
      rw [next, reported, found]

/-- In a main file of this name the line includes a header that is found: the header holds the lines, is
not the main file, and can be included in it. -/
structure Inlining.Fits (i : Inlining) (setup : Setup) (name : Text) (wanted : IncludeName)
    (header : Header) : Prop extends i.IsProper wanted where
  trigraphs : i.trigraphs = setup.config.trigraphs
  language : i.language = setup.config.language
  found : (Question.header wanted.name wanted.form name).answer setup.files setup.config.searchPath
    = some header
  holds : setup.files.readSource header.path setup.config.trigraphs = .ok i.header
  notMain : header.canonical ≠ setup.files.canonical name
  deep : 1 ≤ setup.config.maxIncludeDepth

/-- In both, some conditionals are open above others that look alike. -/
def ConditionStack.SameBelow (v : View) (opened depth : Nat) (one two : ConditionStack) : Prop :=
  ∃ mine mine' base base', one.frames = mine ++ base ∧ two.frames = mine' ++ base'
    ∧ mine.length = opened ∧ mine'.length = opened ∧ base.length = depth
    ∧ (⟨base⟩ : ConditionStack).seen v = (⟨base'⟩ : ConditionStack).seen v

/-- Two lexers that read the same words: they look alike, or they are those of the main files, the first
one of which includes a header. The main file is the first one that a run opens. -/
def Lexer.SameWords (i : Inlining) (l l' : Lexer) : Prop :=
  l.Alike .blind l' ∨ l.file.number = 1 ∧ l.Inlined i l'

namespace Reader

variable (setup : Setup) (known : Vocabulary) (i : Inlining) (header : Header) (name : Text)

/-- The main file has not been read beyond the line. -/
def IsUpToLine (r : Reader) : Prop :=
  ∀ main, r.frames.getLast? = some main → main.lexer.index < i.afterLine

/-- What has to hold of the readers of a run for its words to say all. No macro makes strings of white
space, and none that has its name in the vocabulary asks for places. The words of the vocabulary are the
only ones that are read: in replacement lists, as the token that is given next, and after the name of
the directive that is read next. The innermost file stands in a directory without bars in its name, and
headers are found as what they are. -/
structure IsPlain (r : Reader) : Prop where
  clear : r.session.macros.IsClear (.words setup known false)
  given : ∀ token next, r.step setup = .give token next → known.has token.lexeme
  directive : ∀ frame outer d rest, r.queued = [] → r.frames = frame :: outer →
    frame.lexer.item = (.directive d, rest) → ∀ token ∈ d.args, known.has token.lexeme
  plain : '|' ∉ Path.parent r.place.path
  found : r.EntersFound setup

section Check

variable [DecidablePred known.has]

/-- Whether a reader is plain, by looking at its next step and its next directive. -/
def isPlain (r : Reader) : Bool :=
  decide (r.session.macros.IsClear (.words setup known false))
    && (match r.step setup with
      | .give token _ => decide (known.has token.lexeme)
      | .goOn _ => true)
    && (match r.frames with
      | [] => true
      | frame :: _ =>
        match frame.lexer.item.1 with
        | .directive d => d.args.all fun token => decide (known.has token.lexeme)
        | _ => true)
    && decide ('|' ∉ Path.parent r.place.path) && r.entersFound setup

theorem IsPlain.of_check {r : Reader} (checked : r.isPlain setup known = true) :
    r.IsPlain setup known := by
  simp only [isPlain, Bool.and_eq_true, decide_eq_true_eq] at checked
  obtain ⟨⟨⟨⟨clear, given⟩, directive⟩, plain⟩, found⟩ := checked
  refine ⟨clear, fun token next stepped => ?_, fun frame outer d rest _ isOpen here => ?_, plain,
    .of_check found⟩
  · simpa [stepped] using given
  · simpa [isOpen, here] using directive

end Check

/-- What has to hold of a reader of the run that includes the header: up to the line nothing that the
header does depends on what file it is. It is not marked, and its directives look for no header. -/
structure CanInline (r : Reader) : Prop extends r.IsPlain setup known where
  unmarked : r.IsUpToLine i → header.canonical ∉ r.onceFiles
  still : ∀ top main d rest, r.IsUpToLine i → r.queued = [] → r.frames = [top, main] →
    top.canonical = header.canonical → top.lexer.item = (.directive d, rest) →
    (d.execute setup r.place r.session).2.lookups = r.session.lookups

section Check

variable [DecidablePred known.has]

/-- Whether the header can be inlined, by looking at the files that are marked and at the next directive
of the header. -/
def canInline (r : Reader) : Bool :=
  r.isPlain setup known && !r.onceFiles.contains header.canonical &&
    match r.queued, r.frames with
    | [], [top, _] =>
      match top.lexer.item with
      | (.directive d, _) =>
        top.canonical ≠ header.canonical
          || (d.execute setup r.place r.session).2.lookups = r.session.lookups
      | _ => true
    | _, _ => true

theorem CanInline.of_check {r : Reader} (checked : r.canInline setup known header = true) :
    r.CanInline setup known i header := by
  simp only [canInline, Bool.and_eq_true, Bool.not_eq_true', List.contains_eq_mem,
    decide_eq_false_iff_not] at checked
  obtain ⟨⟨plain, unmarked⟩, still⟩ := checked
  refine { IsPlain.of_check setup known plain with unmarked := fun _ => unmarked, still := ?_ }
  intro top main d rest _ idle isOpen same here
  simpa [idle, isOpen, here, same] using still

end Check

/-- The readers show the same words. -/
structure SameWords (r r' : Reader) : Prop where
  session : r.session.Alike (View.words setup known false).spaced r'.session
  clear : r.session.macros.IsClear (.words setup known false)
  status : r.status = r'.status
  ending : r.ending.map (fun final => final.1.seen (.words setup known false))
    = r'.ending.map fun final => final.1.seen (.words setup known false)
  baseFile : r.baseFile = r'.baseFile

/-- The readers have the same files open. -/
structure Outside (r r' : Reader) : Prop where
  frames : List.Forall₂ (Frame.Alike (.words setup known true) (Lexer.SameWords i)) r.frames r'.frames
  conditions : r.session.conditions.seen (.words setup known true)
    = r'.session.conditions.seen (.words setup known true)

/-- The first reader has the header open on top of the main file, and the second one reads the lines of
the header in its main file. In both, the lines have opened the innermost conditionals. -/
structure InsideHeader (r r' : Reader) (top main main' : Frame) (stack : List Bool) : Prop where
  isOpen : r.frames = [top, main]
  isOpen' : r'.frames = [main']
  isHeader : top.canonical = header.canonical
  notPreamble : top.isPreamble = false
  number : main.lexer.file.number = 1
  upToLine : main.lexer.index < i.afterLine
  mains : Frame.Alike (.words setup known true) (fun _ _ => True) main main'
  part : top.lexer.ReadsPart .blind i.inlined i.language i.afterLines main'.lexer
  closes : top.lexer.Closes stack
  goesOn : ∃ y : Lexer, main.lexer.item = y.item ∧ y.Begins i.including i.language i.afterLine
  conditions : r.session.conditions.SameBelow (.words setup known true) stack.length top.conditionDepth
    r'.session.conditions

/-- The readers go on in step. -/
structure InStep (r r' : Reader) : Prop where
  consistent : r.Consistent setup
  consistent' : r'.Consistent (setup.skipping false)
  rooted : r.IsRooted setup name
  queued : r.queued.map (Token.seen (.words setup known false))
    = r'.queued.map (Token.seen (.words setup known false))
  onceFiles : r.onceFiles = r'.onceFiles
  stage : r.Outside setup known i r'
    ∨ ∃ top main main' stack, r.InsideHeader setup known i header r' top main main' stack

/-- The readers show the same words, and if the header is not marked before the line is passed they go on
in step. -/
def Inlines (r r' : Reader) : Prop :=
  r.SameWords setup known r' ∧
    (r.IsUpToLine i ∧ header.canonical ∈ r.onceFiles ∨ r.InStep setup known i header name r')

/-- The second reader follows a step of the first one: it gives the same word, or it goes on to where it
shows the same words again. -/
def FollowedBy (step : Step) (r' : Reader) : Prop :=
  match step with
  | .give token next =>
    token.seen (.words setup known false)
        = (r'.pull (setup.skipping false)).1.seen (.words setup known false)
      ∧ next.Inlines setup known i header name (r'.pull (setup.skipping false)).2
  | .goOn next =>
    ∃ last, r'.pull (setup.skipping false) = last.pull (setup.skipping false)
      ∧ next.Inlines setup known i header name last

variable {setup known i header name} {r r' next next' : Reader}

/-! ## What the relation of the readers depends on -/

/-- A step that gives a token leaves the macros alone. -/
theorem macros_of_give {token : Token} (stepped : r.step setup = .give token next) :
    next.session.macros = r.session.macros := by
  have cases_of := r.stepped setup
  rw [stepped] at cases_of
  cases cases_of with
  | waits => rfl
  | finished =>
    unfold finish
    split <;> rfl
  | @counts frame outer _ rest idle isOpen running live here =>
    unfold accept
    obtain ⟨status, same⟩ := exists_reportSpelling setup
      { r with frames := { frame with lexer := rest, guard := frame.guard.afterToken } :: outer } token
    rw [same]
    obtain ⟨journal, reported⟩ := r.session.exists_reportSpelling token
    show (r.session.reportSpelling token).macros = _
    rw [reported]
    rfl

theorem Reads.consistent {events : List Event} {last : Reader} (reads : r.Reads setup events last)
    (consistent : r.Consistent setup) : last.Consistent setup := by
  induction reads with
  | done r => exact consistent
  | give idle isOpen here more ih => exact ih (consistent.readToken isOpen (.inl here))
  | goOn idle isOpen here more ih =>
    exact ih (@Consistent.readToken setup _ _ _ _ consistent isOpen .endOfNothing (.inr here))

theorem SameWords.withSession (same : r.SameWords setup known r') {s s' : Session}
    (alike : s.Alike (View.words setup known false).spaced s')
    (clear : s.macros.IsClear (.words setup known false)) :
    SameWords setup known { r with session := s } { r' with session := s' } :=
  ⟨alike, clear, same.status, same.ending, same.baseFile⟩

/-- The ends of the runs are the same words. -/
theorem SameWords.finish (same : r.SameWords setup known r') :
    r.finish.1.seen (.words setup known false) = r'.finish.1.seen (.words setup known false)
      ∧ r.finish.2.SameWords setup known r'.finish.2 := by
  have ending := same.ending
  unfold Reader.finish
  cases here : r.ending with
  | some final =>
    cases here' : r'.ending with
    | none => rw [here, here'] at ending; cases ending
    | some final' =>
      rw [here, here'] at ending
      exact ⟨Option.some.inj ending, same⟩
  | none =>
    cases here' : r'.ending with
    | some final' => rw [here, here'] at ending; cases ending
    | none => exact ⟨rfl, same.session, same.clear, same.status, rfl, same.baseFile⟩

/-- Readers stay in step if nothing happens to their files and conditionals. -/
theorem InStep.of_same (inStep : r.InStep setup known i header name r') (frames : next.frames = r.frames)
    (frames' : next'.frames = r'.frames)
    (conditions : next.session.conditions = r.session.conditions)
    (conditions' : next'.session.conditions = r'.session.conditions) (guards : next.guards = r.guards)
    (guards' : next'.guards = r'.guards) (number : next.nextFileNumber = r.nextFileNumber)
    (queued : next.queued.map (Token.seen (.words setup known false))
      = next'.queued.map (Token.seen (.words setup known false)))
    (onceFiles : next.onceFiles = next'.onceFiles) : next.InStep setup known i header name next' where
  consistent := inStep.consistent.of_same frames conditions guards
  consistent' := inStep.consistent'.of_same frames' conditions' guards'
  rooted := inStep.rooted.of_same frames number
  queued := queued
  onceFiles := onceFiles
  stage := by
    obtain outside | ⟨top, main, main', stack, inside⟩ := inStep.stage
    · exact .inl ⟨by rw [frames, frames']; exact outside.frames,
        by rw [conditions, conditions']; exact outside.conditions⟩
    · exact .inr ⟨top, main, main', stack, { inside with
        isOpen := frames.trans inside.isOpen
        isOpen' := frames'.trans inside.isOpen'
        conditions := by rw [conditions, conditions']; exact inside.conditions }⟩

theorem IsUpToLine.of_same (upTo : r.IsUpToLine i) (frames : next.frames = r.frames) :
    next.IsUpToLine i := by
  unfold IsUpToLine
  rwa [frames]

theorem InsideHeader.isUpToLine {top main main' : Frame} {stack : List Bool}
    (inside : r.InsideHeader setup known i header r' top main main' stack) : r.IsUpToLine i := by
  unfold IsUpToLine
  rw [inside.isOpen]
  intro last isLast
  cases isLast
  exact inside.upToLine

theorem Inlines.withSession (same : r.Inlines setup known i header name r') {s s' : Session}
    (conditions : s.conditions = r.session.conditions)
    (conditions' : s'.conditions = r'.session.conditions)
    (alike : s.Alike (View.words setup known false).spaced s')
    (clear : s.macros.IsClear (.words setup known false)) :
    Inlines setup known i header name { r with session := s } { r' with session := s' } :=
  ⟨same.1.withSession alike clear, same.2.imp_right fun inStep =>
    inStep.of_same rfl rfl conditions conditions' rfl rfl rfl inStep.queued inStep.onceFiles⟩

theorem Inlines.finish (same : r.Inlines setup known i header name r') :
    r.finish.1.seen (.words setup known false) = r'.finish.1.seen (.words setup known false)
      ∧ r.finish.2.Inlines setup known i header name r'.finish.2 := by
  have kept (r : Reader) : r.finish.2.onceFiles = r.onceFiles
      ∧ r.finish.2.nextFileNumber = r.nextFileNumber := by
    unfold Reader.finish
    split <;> exact ⟨rfl, rfl⟩
  have beside := beside_finish r
  have beside' := beside_finish r'
  refine ⟨same.1.finish.1, same.1.finish.2, ?_⟩
  rw [(kept r).1]
  refine same.2.imp (And.imp_left (·.of_same beside.frames)) fun inStep => ?_
  exact inStep.of_same beside.frames beside'.frames beside.conditions beside'.conditions beside.guards
    beside'.guards (kept r).2 (by rw [beside.queued, beside'.queued]; exact inStep.queued)
    (by rw [(kept r).1, (kept r').1]; exact inStep.onceFiles)

/-- If both readers mark their innermost files, the first one marks the header or both mark the same
file. -/
theorem Inlines.markedOnce (same : r.Inlines setup known i header name r') :
    r.markedOnce.Inlines setup known i header name r'.markedOnce := by
  refine ⟨⟨same.1.session, same.1.clear, same.1.status, same.1.ending, same.1.baseFile⟩, ?_⟩
  obtain ⟨upTo, marked⟩ | inStep := same.2
  · left
    refine ⟨upTo.of_same rfl, ?_⟩
    unfold Reader.markedOnce
    simp only []
    split
    · exact marked
    · split
      · exact marked
      · exact List.mem_cons_of_mem _ marked
  · obtain outside | ⟨top, main, main', stack, inside⟩ := inStep.stage
    · right
      refine inStep.of_same rfl rfl rfl rfl rfl rfl rfl inStep.queued ?_
      have frames := outside.frames
      simp only [Reader.markedOnce]
      generalize r.frames = one, r'.frames = two at frames ⊢
      cases frames with
      | nil => exact inStep.onceFiles
      | cons first _ => simp only [first.isPreamble, first.canonical, inStep.onceFiles]
    · left
      refine ⟨inside.isUpToLine.of_same rfl, ?_⟩
      simp only [Reader.markedOnce, inside.isOpen, inside.notPreamble, inside.isHeader,
        Bool.false_eq_true, if_false]
      exact List.mem_cons_self

/-- Readers that have the same files open look alike. -/
theorem Outside.alike (same : r.SameWords setup known r')
    (inStep : r.InStep setup known i header name r') (outside : r.Outside setup known i r') :
    r.Alike (.words setup known true) (Lexer.SameWords i) r' where
  session := same.session.words outside.conditions
  frames := outside.frames
  queued := inStep.queued
  onceFiles := inStep.onceFiles
  guards := nofun
  nextFileNumber := nofun
  status := same.status
  ending := same.ending
  baseFile := same.baseFile

/-- Readers that look alike show the same words and are in step. -/
theorem inlines_of_alike (alike : r.Alike (.words setup known true) (Lexer.SameWords i) r')
    (clear : r.session.macros.IsClear (.words setup known false)) (consistent : r.Consistent setup)
    (consistent' : r'.Consistent (setup.skipping false)) (rooted : r.IsRooted setup name) :
    r.Inlines setup known i header name r' := by
  have conditions : r.session.conditions.seen (.words setup known true)
      = r'.session.conditions.seen (.words setup known true) := alike.session.conditions
  exact ⟨⟨alike.session.words (ConditionStack.seen_words conditions), clear, alike.status, alike.ending,
    alike.baseFile⟩, .inr ⟨consistent, consistent', rooted, alike.queued, alike.onceFiles,
      .inl ⟨alike.frames, conditions⟩⟩⟩

/-- The readers have read up to the line and up to the lines. -/
structure Arrives (setup : Setup) (known : Vocabulary) (i : Inlining) (name : Text) (r r' : Reader)
    (frame frame' : Frame) (x x' : Lexer) : Prop where
  idle : r.queued = []
  idle' : r'.queued = []
  goesOn : r.status ≠ .aborted
  isOpen : r.frames = [frame]
  isOpen' : r'.frames = [frame']
  top : Frame.Alike (.words setup known true) (Lexer.SameWords i) frame frame'
  isMain : IsMain setup name frame
  number : frame.lexer.file.number = 1
  index : frame.lexer.index ≤ i.start
  here : frame.lexer.item = x.item
  here' : frame'.lexer.item = x'.item
  begins : x.Begins i.including i.language i.start
  begins' : x'.Begins i.inlined i.language i.start

/-! ## Steps with the same files open -/

section Steps

variable (lenient : setup.config.failFast = false)
  (same : r.SameWords setup known r') (inStep : r.InStep setup known i header name r')
include same inStep

/-- Where a token waits or nothing is left to read, both readers give the same word. -/
theorem followedBy_of_waits
    (waits : r.queued ≠ [] ∨ r.frames = [] ∨ r.status = .aborted) :
    FollowedBy setup known i header name (r.step setup) r' := by
  have queued := inStep.queued
  cases waiting : r.queued with
  | cons token rest =>
    cases waiting' : r'.queued with
    | nil => rw [waiting, waiting'] at queued; cases queued
    | cons token' rest' =>
      rw [waiting, waiting', List.map_cons, List.map_cons, List.cons.injEq] at queued
      have stepped : r.step setup = .give token { r with queued := rest } := by
        unfold step
        rw [waiting]
      have stepped' : r'.step (setup.skipping false) = .give token' { r' with queued := rest' } := by
        unfold step
        rw [waiting']
      rw [stepped]
      unfold FollowedBy
      rw [pull_of_give stepped']
      exact ⟨queued.1, ⟨same.session, same.clear, same.status, same.ending, same.baseFile⟩,
        .inr (inStep.of_same rfl rfl rfl rfl rfl rfl rfl queued.2 inStep.onceFiles)⟩
  | nil =>
    have waiting' : r'.queued = [] := by
      rwa [waiting, List.map_nil, eq_comm, List.map_eq_nil_iff] at queued
    have ends : r.frames = [] ∨ r.status = .aborted := waits.resolve_left (by simp [waiting])
    have finished : r.IsFinished := ⟨waiting, ends⟩
    have finished' : r'.IsFinished := by
      refine ⟨waiting', ends.imp (fun closed => ?_) (fun aborted => same.status ▸ aborted)⟩
      obtain outside | ⟨top, main, main', stack, inside⟩ := inStep.stage
      · have frames := outside.frames
        rwa [closed, List.forall₂_nil_left_iff] at frames
      · rw [inside.isOpen] at closed
        cases closed
    have finish := Inlines.finish ⟨same, .inr inStep⟩
    rw [step_of_isFinished finished]
    unfold FollowedBy
    rw [pull_of_isFinished finished']
    exact finish

include lenient

/-- Steps that look alike are followed. -/
theorem followedBy_of_steps
    (clear : ∀ next, r.step setup = .goOn next → next.session.macros.IsClear (.words setup known false))
    (steps : Step.Alike (.words setup known true) (Lexer.SameWords i) (r.step setup)
        (r'.step (setup.skipping false))
      ∨ ∃ next next', r.step setup = .goOn next ∧ r'.step (setup.skipping false) = .goOn next'
        ∧ CatchesUp (setup.skipping false) (.words setup known true) (Lexer.SameWords i) next next') :
    FollowedBy setup known i header name (r.step setup) r' := by
  cases stepped : r.step setup with
  | give token next =>
    rw [stepped] at steps
    obtain steps | ⟨_, _, went, -⟩ := steps
    · generalize stepped' : r'.step (setup.skipping false) = step' at steps
      cases steps with
      | give looks alike =>
        unfold FollowedBy
        rw [pull_of_give stepped']
        exact ⟨looks, inlines_of_alike alike (macros_of_give stepped ▸ same.clear)
          (inStep.consistent.step (.inl stepped)) (inStep.consistent'.step (.inl stepped'))
          (inStep.rooted.step inStep.consistent (.inl stepped))⟩
    · cases went
  | goOn next =>
    have consistent := inStep.consistent.of_goOn stepped
    have rooted := inStep.rooted.of_goOn inStep.consistent stepped
    have clear := clear next stepped
    rw [stepped] at steps
    obtain steps | ⟨_, next', went, stepped', events, last, reads, silent, alike⟩ := steps
    · generalize stepped' : r'.step (setup.skipping false) = step' at steps
      cases steps with
      | goOn alike =>
        exact ⟨_, pull_of_goOn stepped', inlines_of_alike alike clear consistent
          (inStep.consistent'.of_goOn stepped') rooted⟩
    · cases went
      have lenient' : (setup.skipping false).config.failFast = false := lenient
      refine ⟨last, ?_, inlines_of_alike alike clear consistent
        (reads.consistent (inStep.consistent'.of_goOn stepped')) rooted⟩
      rw [pull_of_goOn stepped', reads.pull_eq lenient' silent (status_of_goOn lenient' stepped')]

/-- A step with the same files open is followed, unless the next items of the main files are the first
ones of the line and of the lines. -/
theorem Outside.followedBy (outside : r.Outside setup known i r') (proper : setup.files.IsProper)
    (can : r.CanInline setup known i header)
    (clear : ∀ next, r.step setup = .goOn next →
      next.session.macros.IsClear (.words setup known false)) :
    FollowedBy setup known i header name (r.step setup) r'
      ∨ ∃ frame frame' x x', Arrives setup known i name r r' frame frame' x x' := by
  by_cases waits : r.queued ≠ [] ∨ r.frames = [] ∨ r.status = .aborted
  · exact .inl (followedBy_of_waits same inStep waits)
  · simp only [not_or, not_not] at waits
    obtain ⟨idle, nonempty, goesOn⟩ := waits
    obtain ⟨frame, outer, isOpen⟩ := List.exists_cons_of_ne_nil nonempty
    have alike := Outside.alike same inStep outside
    have frames := alike.frames
    rw [isOpen] at frames
    obtain ⟨frame', outer', top, below, isOpen'⟩ := List.forall₂_cons_left_iff.mp frames
    have idle' : r'.queued = [] := by
      have both := alike.queued
      rwa [idle, List.map_nil, eq_comm, List.map_eq_nil_iff] at both
    have hides : View.HidesRereading (.words setup known true) := ⟨rfl, rfl⟩
    have clearHere : r.IsClear (.words setup known true) setup :=
      ⟨can.clear.words true, rfl, fun files searchPath kept => by
        cases kept
        exact ⟨rfl, can.plain⟩⟩
    -- What is left to show where the next items look the same.
    have reading (items : frame.lexer.item.1.seen (.words setup known true)
          = frame'.lexer.item.1.seen (.words setup known true))
        (after : frame.lexer.item.2.SameWords i frame'.lexer.item.2)
        (presents : ∀ line shown, (frame.lexer.item.2.presentLine line shown).SameWords i
          (frame'.lexer.item.2.presentLine line shown)) :
        FollowedBy setup known i header name (r.step setup) r' := by
      refine followedBy_of_steps lenient same inStep clear ?_
      rw [step_of_readToken setup idle isOpen goesOn,
        step_of_readToken (setup.skipping false) idle' isOpen' (alike.status ▸ goesOn)]
      exact alike.readToken_skipping hides lenient proper inStep.consistent
        (fun same => .inl (Lexer.alike_words.mp same)) clearHere can.found idle isOpen isOpen'
        (fun d rest here => can.directive frame outer d rest idle isOpen here) presents items
        { top with lexer := after, file := rfl }
    obtain look | ⟨number, inlined⟩ := top.lexer
    · have looks : Lexer.Alike (.words setup known true) frame.lexer frame'.lexer :=
        Lexer.alike_words.mpr look
      have later := look.item.2.of_spaced
      exact .inl (reading looks.item.1 (.inl later) fun line shown => .inl (later.presentLine line shown))
    · obtain ⟨x, x', index, here, here', begins, begins'⟩ | ⟨items, later, presents⟩ := inlined.item
      · obtain ⟨rfl, isMain⟩ := inStep.rooted.eq_main isOpen number
        rw [List.forall₂_nil_left_iff] at below
        subst below
        exact .inr ⟨frame, frame', x, x', idle, idle', goesOn, isOpen, isOpen', top, isMain, number,
          index, here, here', begins, begins'⟩
      · have file := inStep.consistent.file_item isOpen
        refine .inl (reading items (.inr ⟨by rw [file]; exact number, later⟩) fun line shown =>
          .inr ⟨?_, presents line shown⟩)
        show frame.lexer.item.2.file.number = 1
        rw [file]
        exact number

end Steps

/-! ## The line and the lines -/

section Crossing

variable {wanted : IncludeName} (fits : i.Fits setup name wanted header)
  (lenient : setup.config.failFast = false)
  (same : r.SameWords setup known r') (inStep : r.InStep setup known i header name r')
  (outside : r.Outside setup known i r') {frame frame' : Frame} {x x' : Lexer}
  (arrives : Arrives setup known i name r r' frame frame' x x')
include fits lenient same inStep outside arrives

/-- Where the line does not count, the lines do not count either, and nothing comes of them. -/
theorem followedBy_of_dead (dead : r.session.conditions.isLive = false) :
    FollowedBy setup known i header name (r.step setup) r' := by
  obtain ⟨d, rest, y, read, kind, -, -, -, following, later⟩ :=
    arrives.begins.exists_include fits.toIsProper
  have here := arrives.here.trans read
  have alike := Outside.alike same inStep outside
  have executed : d.execute setup r.place r.session = (.nothing, r.session) := by
    rw [Directive.execute, dead, kind]
    rfl
  -- The first reader goes over the line.
  have stepped : r.step setup = .goOn { r with
      frames := [{ frame with
        lexer := rest
        guard := frame.guard.afterDirective d r.session.conditions.depth
          r.session.conditions.depth }] } := by
    rw [step_of_readToken setup arrives.idle arrives.isOpen arrives.goesOn, readToken_eq, here]
    simp only [afterDirective, executed, act, checkAbort_of_lenient lenient]
  -- The second reader goes over the lines.
  have dead' : r'.session.conditions.isLive = false := alike.session.isLive ▸ dead
  have steady : r'.IsSteady (setup.skipping false) :=
    .inr ⟨arrives.idle', fun failFast => absurd (lenient.symm.trans failFast) Bool.false_ne_true⟩
  have stands := steady.standsDead inStep.consistent' arrives.isOpen' arrives.idle'
    (alike.status ▸ arrives.goesOn) dead'
  obtain ⟨items, last, final, after, reads, finish, nests⟩ := fits.lines.nested
  have part := (arrives.begins'.readsPart_header fits.toIsProper .unknown).of_item arrives.here'
  obtain ⟨items', last', y', reads', list, following', later'⟩ := part.reads reads finish
  have nests' : items'.foldlM Item.nest [] = some [] := by
    rw [← Item.foldlM_nest_seen .blind, list, Item.foldlM_nest_seen, nests]
  have passes := stands.passes reads' nests'
  have file := inStep.consistent.file_item arrives.isOpen
  rw [here] at file
  have moved : Frame.Alike (.words setup known true) (Lexer.SameWords i)
      { frame with
        lexer := rest
        guard := frame.guard.afterDirective d r.session.conditions.depth r.session.conditions.depth }
      { frame' with lexer := last' } :=
    { arrives.top with
      lexer := .inr ⟨by rw [show rest.file = _ from file]; exact arrives.number,
        .after following following' (Lexer.alike_after fits.toIsProper later later')⟩
      file := rfl
      guard := (absurd · Bool.false_ne_true) }
  rw [stepped]
  exact ⟨_, passes.pull_eq, inlines_of_alike (alike.withFrames (.cons moved .nil)) same.clear
    (inStep.consistent.of_goOn stepped) (passes.steady inStep.consistent' steady).1
    (inStep.rooted.of_goOn inStep.consistent stepped)⟩

omit lenient inStep outside in
/-- Where the line counts, it asks for the header. -/
theorem exists_entering (can : r.CanInline setup known i header)
    (live : r.session.conditions.isLive = true) :
    ∃ (d : Directive) (rest y : Lexer) (s : Session), frame.lexer.item = (.directive d, rest)
      ∧ r.IsUpToLine i ∧ rest.index < i.afterLine ∧ rest.item = y.item
      ∧ y.Begins i.including i.language i.afterLine
      ∧ d.execute setup r.place r.session = (.enter header d.hash, s)
      ∧ s.Alike (View.words setup known false).spaced r'.session ∧ s.macros = r.session.macros
      ∧ s.conditions = r.session.conditions := by
  obtain ⟨d, rest, y, read, kind, named, ahead, stays, following, later⟩ :=
    arrives.begins.exists_include fits.toIsProper
  have upTo : r.IsUpToLine i := by
    unfold IsUpToLine
    rw [arrives.isOpen]
    intro last isLast
    cases isLast
    exact Nat.lt_of_le_of_lt arrives.index ahead
  have answer : (Session.headerQuestion r.place false wanted).answer setup.files
      setup.config.searchPath = some header := by
    have question : Session.headerQuestion r.place false wanted
        = .header wanted.name wanted.form name := by
      simp only [Session.headerQuestion, Reader.place, arrives.isOpen, arrives.isMain.path,
        Bool.false_and, Bool.false_eq_true, if_false]
    rw [question, fits.found]
  obtain ⟨journal, resolver, sound, executed⟩ := Directive.execute_include kind named live
    same.session.sound can.plain answer
  exact ⟨d, rest, y, _, arrives.here.trans read, upTo, stays, following, later, executed,
    same.session.looked journal sound, rfl, rfl⟩

/-- A header that is known to be guarded is not opened by the first reader, and the second one goes over
its lines without a token. -/
theorem followedBy_of_settled (proper : setup.files.IsProper) (can : r.CanInline setup known i header)
    {d : Directive} {rest y : Lexer} {s : Session} (here : frame.lexer.item = (.directive d, rest))
    (upTo : r.IsUpToLine i) (following : rest.item = y.item)
    (later : y.Begins i.including i.language i.afterLine)
    (asked : d.execute setup r.place r.session = (.enter header d.hash, s))
    (alike : s.Alike (View.words setup known false).spaced r'.session)
    (macros : s.macros = r.session.macros) (conditions : s.conditions = r.session.conditions)
    (settled : (r.entering frame [] d rest s).isSettled setup header = true) :
    FollowedBy setup known i header name (r.step setup) r' := by
  have looks := Outside.alike same inStep outside
  have live := (live_of_enter asked).1
  have stepped : r.step setup = .goOn (r.entering frame [] d rest s) := by
    rw [step_of_readToken setup arrives.idle arrives.isOpen arrives.goesOn,
      readToken_of_enter [] here asked, checkAbort_of_lenient lenient, Reader.enter, if_pos settled]
  -- The header has not been marked, so its guard is known.
  have notOnce : (r.entering frame [] d rest s).onceFiles.contains header.canonical = false := by
    show r.onceFiles.contains header.canonical = false
    simpa using can.unmarked upTo
  rw [Reader.isSettled, notOnce, Bool.false_or, Bool.and_eq_true] at settled
  obtain ⟨guardName, recorded, defined⟩ := (Option.any_eq_true _ _).mp settled.2
  have found := can.found frame [] d rest header d.hash s arrives.idle arrives.isOpen here asked
  have guarded := inStep.consistent.isGuarded proper (by rw [arrives.isOpen]; exact List.cons_ne_nil _ _)
    (mem_of_lookup recorded) found fits.holds .unknown
  rw [← fits.language] at guarded
  obtain ⟨items, last, final, after, reads, finish, closed⟩ := guarded
  have part := (arrives.begins'.readsPart_header fits.toIsProper .unknown).of_item arrives.here'
  obtain ⟨items', last', y', reads', list, following', later'⟩ := part.reads reads finish
  have closed' : (items'.foldl (Guard.follow 0) (.unread, 0)).1 = .closed guardName := by
    rw [← Guard.foldl_follow_seen .blind, list, Guard.foldl_follow_seen, closed]
  have live' : r'.session.conditions.isLive = true := looks.session.isLive ▸ live
  have defined' : r'.session.macros.isDefined guardName = true := by
    rw [← alike.isDefined]
    exact defined
  obtain ⟨d', journal, processed, quiet⟩ := Item.processAll_of_closed (setup.skipping false) r'.place
    reads'.not_finish closed' live' defined'
  obtain ⟨atEnd, going, guard, status, stands⟩ := reads_processAll (setup.skipping false) (r := r')
    arrives.isOpen' arrives.idle' reads' quiet ⟨frame'.guard, r'.status, by rw [← arrives.isOpen']⟩
  rw [processed] at going stands
  have lenient' : (setup.skipping false).config.failFast = false := lenient
  have sameStatus : status = r'.status := by
    have kept := going.status lenient'
    rwa [stands] at kept
  have file := inStep.consistent.file_item arrives.isOpen
  rw [here] at file
  have moved : Frame.Alike (.words setup known true) (Lexer.SameWords i)
      { frame with
        lexer := rest
        guard := frame.guard.afterDirective d r.session.conditions.depth s.conditions.depth }
      { frame' with lexer := last', guard } :=
    { arrives.top with
      lexer := .inr ⟨by rw [show rest.file = _ from file]; exact arrives.number,
        .after following following' (Lexer.alike_after fits.toIsProper later later')⟩
      file := rfl
      guard := (absurd · Bool.false_ne_true) }
  have session : s.Alike (View.words setup known true).spaced (r'.session.annotated journal) :=
    (alike.words (by rw [conditions]; exact outside.conditions)).annotated rfl s.journal journal
  have ends :
      (r.entering frame [] d rest s).Alike (.words setup known true) (Lexer.SameWords i) atEnd := by
    rw [stands]
    exact { looks with
      session, frames := .cons moved .nil, status := looks.status.trans sameStatus.symm }
  rw [stepped]
  refine ⟨atEnd, going.pull_eq lenient' rfl (looks.status ▸ arrives.goesOn), inlines_of_alike ends ?_
    (inStep.consistent.of_goOn stepped) (going.consistent inStep.consistent')
    (inStep.rooted.of_goOn inStep.consistent stepped)⟩
  show s.macros.IsClear _
  rw [macros]
  exact same.clear

/-- A header that is not settled is opened by the first reader, and the second one reads its lines
next. -/
theorem followedBy_of_unsettled (can : r.CanInline setup known i header)
    {d : Directive} {rest y : Lexer} {s : Session} (here : frame.lexer.item = (.directive d, rest))
    (stays : rest.index < i.afterLine) (following : rest.item = y.item)
    (later : y.Begins i.including i.language i.afterLine)
    (asked : d.execute setup r.place r.session = (.enter header d.hash, s))
    (alike : s.Alike (View.words setup known false).spaced r'.session)
    (macros : s.macros = r.session.macros) (conditions : s.conditions = r.session.conditions)
    (unsettled : ¬(r.entering frame [] d rest s).isSettled setup header = true) :
    FollowedBy setup known i header name (r.step setup) r' := by
  have found := can.found frame [] d rest header d.hash s arrives.idle arrives.isOpen here asked
  have notOpen : (r.entering frame [] d rest s).openFile? header = none := by
    rw [openFile?_eq_none_iff]
    intro file member
    rw [show file = _ from List.mem_singleton.mp member]
    exact fun same => fits.notMain (same.symm.trans arrives.isMain.canonical)
  have depth : (r.entering frame [] d rest s).place.includeDepth = 0 := arrives.isMain.includeDepth
  have stepped : r.step setup = .goOn ((r.entering frame [] d rest s).openFrame setup i.header
      header.path header.path (setup.files.canonical header.path) header.searchIndex 1 false) := by
    rw [step_of_readToken setup arrives.idle arrives.isOpen arrives.goesOn,
      readToken_of_enter [] here asked, checkAbort_of_lenient lenient, Reader.enter, if_neg unsettled,
      notOpen]
    simp only [openHeader, depth, Nat.zero_add, if_neg (Nat.not_lt.mpr fits.deep), fits.holds]
  have file := inStep.consistent.file_item arrives.isOpen
  rw [here] at file
  have part := (arrives.begins'.readsPart_header fits.toIsProper
    ⟨header.path, header.path, r.nextFileNumber⟩).of_item arrives.here'
  have closes := Lexer.closes_header fits.toIsProper ⟨header.path, header.path, r.nextFileNumber⟩
  rw [fits.language] at part closes
  have inside : InsideHeader setup known i header
      ((r.entering frame [] d rest s).openFrame setup i.header header.path
        header.path (setup.files.canonical header.path) header.searchIndex 1 false) r'
      { lexer := .ofSource i.header ⟨header.path, header.path, r.nextFileNumber⟩ setup.config.language false
        path := header.path
        canonical := setup.files.canonical header.path
        searchIndex := header.searchIndex
        includeDepth := 1
        conditionDepth := s.conditions.depth
        isPreamble := false }
      { frame with
        lexer := rest
        guard := frame.guard.afterDirective d r.session.conditions.depth s.conditions.depth } frame' [] :=
    { isOpen := rfl
      isOpen' := arrives.isOpen'
      isHeader := found
      notPreamble := rfl
      number := by rw [show rest.file = _ from file]; exact arrives.number
      upToLine := stays
      mains :=
        { arrives.top with
          lexer := trivial, file := rfl, guard := (absurd · Bool.false_ne_true) }
      part := by rw [fits.language]; exact part
      closes
      goesOn := ⟨y, following, later⟩
      conditions := ⟨[], [], s.conditions.frames, r'.session.conditions.frames, rfl, rfl, rfl, rfl, rfl,
        by rw [conditions]; exact outside.conditions⟩ }
  rw [stepped]
  exact ⟨r', rfl, ⟨alike, macros ▸ same.clear, same.status, same.ending, same.baseFile⟩, .inr
    ⟨inStep.consistent.of_goOn stepped, inStep.consistent',
      inStep.rooted.of_goOn inStep.consistent stepped, inStep.queued, inStep.onceFiles,
      .inr ⟨_, _, frame', [], inside⟩⟩⟩

/-- Where the readers have read up to the line and up to the lines, the next step is followed. -/
theorem followedBy_of_arrives (proper : setup.files.IsProper) (can : r.CanInline setup known i header) :
    FollowedBy setup known i header name (r.step setup) r' := by
  cases live : r.session.conditions.isLive with
  | false => exact followedBy_of_dead fits lenient same inStep outside arrives live
  | true =>
    obtain ⟨d, rest, y, s, here, upTo, stays, following, later, asked, alike, macros, conditions⟩ :=
      exists_entering fits same arrives can live
    by_cases settled : (r.entering frame [] d rest s).isSettled setup header = true
    · exact followedBy_of_settled fits lenient same inStep outside arrives proper can here upTo
        following later asked alike macros conditions settled
    · exact followedBy_of_unsettled fits lenient same inStep outside arrives can here stays following
        later asked alike macros conditions settled

end Crossing

end Reader

end CPreprocessor
