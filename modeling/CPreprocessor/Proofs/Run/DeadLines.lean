/-
# Lines that do not count

Lines of the main file that do not count when they are reached can be exchanged for as
many other lines: the tokens of the run are the same but for their offsets, and so is
all that the run has learned. Both runs make the same steps up to the lines
(`Lexer.SameBut`). The second one does not count them either, so each run goes over its
own lines without a trace (`StandsDead.passes`), and after them both files look the
same. One thing has to be known of the reader: in a place that does not count it has
noticed all errors, so that no directive there can be the first one to end the run
(`Reader.IsSteady`).
-/
import CPreprocessor.Proofs.Guard.Include
import CPreprocessor.Proofs.Reading.Exchange
import CPreprocessor.Proofs.Run.Opening
import CPreprocessor.Proofs.Run.Twins

namespace CPreprocessor

theorem View.isClear_withoutOffsets : View.IsClear .withoutOffsets :=
  ⟨rfl, rfl, rfl, rfl, rfl, rfl⟩

namespace Reader

variable {setup : Setup} {r next passed : Reader} {frame : Frame} {outer : List Frame}

/-! ## Places that do not count -/

/-- Between two tokens a reader stands in a place that counts, or its run has ended early. -/
def IsBetween (r : Reader) : Prop :=
  r.session.conditions.isLive = true ∨ r.status = .aborted

/-- If the reader stands in a place that does not count, it has noticed every error, and no token of a
directive is waiting. -/
def IsSteady (setup : Setup) (r : Reader) : Prop :=
  r.IsBetween ∨ r.queued = [] ∧ r.IsNoticed setup

theorem Consistent.isLive_of_nil (consistent : r.Consistent setup) (closed : r.frames = []) :
    r.session.conditions.isLive = true := by
  have layered := consistent.layered
  rw [closed] at layered
  have none : r.session.conditions.frames = [] := layered
  rw [ConditionStack.isLive, none]

/-- After a directive every error is noticed, and tokens wait only where they count. -/
theorem isSteady_afterDirective (idle : r.queued = []) (d : Directive) :
    (r.afterDirective setup frame outer d).IsSteady setup := by
  unfold Reader.afterDirective
  simp only []
  generalize frame.guard.afterDirective d r.session.conditions.depth _ = guard
  generalize executed : d.execute setup r.place r.session = done
  obtain ⟨action, s⟩ := done
  cases action with
  | pass =>
    obtain ⟨live, kept⟩ := live_of_asks executed (by simp)
    refine .inl (.inl ?_)
    rw [(beside_checkAbort setup _).conditions]
    exact kept ▸ live
  | nothing => exact .inr ⟨(beside_checkAbort setup _).queued.trans idle, isNoticed_checkAbort _⟩
  | once => exact .inr ⟨(beside_checkAbort setup _).queued.trans idle, isNoticed_checkAbort _⟩
  | present line name =>
    exact .inr ⟨(beside_checkAbort setup _).queued.trans idle, isNoticed_checkAbort _⟩
  | enter header site =>
    refine .inr ⟨(beside_checkAbort setup _).queued.trans ?_, isNoticed_checkAbort _⟩
    exact (queued_enter header site).trans idle

/-- The end of a file closes the conditionals that do not count. -/
theorem Consistent.isLive_closeFile (consistent : r.Consistent setup) (isOpen : r.frames = frame :: outer)
    (rest : Lexer) (final : { token : Token // token.isEnd = true }) :
    (r.closeFile setup { frame with lexer := rest } outer final).session.conditions.isLive = true := by
  have layered := consistent.layered
  rw [isOpen] at layered
  obtain ⟨mine, below, split, base, -, -, live, -⟩ := layered
  have reported : (if r.session.conditions.isLive then r.reportSpelling setup final.1
      else r).session.conditions.frames = mine ++ below := by
    split
    · rw [conditions_reportSpelling]
      exact split
    · exact split
  have closed : (r.closeFile setup { frame with lexer := rest } outer final).session.conditions
      = ⟨below⟩ := conditions_closeConditions _ reported base
  rwa [closed]

/-- A step without a token keeps a reader steady. -/
theorem IsSteady.goOn (steady : r.IsSteady setup) (consistent : r.Consistent setup)
    (stepped : r.step setup = .goOn next) : next.IsSteady setup := by
  have cases_of := r.stepped setup
  rw [stepped] at cases_of
  cases cases_of with
  | closes idle isOpen => exact .inl (.inl (consistent.isLive_closeFile isOpen _ _))
  | carriesOut idle => exact isSteady_afterDirective idle _
  | passesOver => exact steady

/-- When a steady reader gives a token, it stands between tokens. -/
theorem IsSteady.give (steady : r.IsSteady setup) (consistent : r.Consistent setup) {token : Token}
    (stepped : r.step setup = .give token next) : next.IsBetween := by
  have same : r.finish.2.session = r.session ∧ r.finish.2.status = r.status := by
    unfold finish
    split <;> exact ⟨rfl, rfl⟩
  have cases_of := r.stepped setup
  rw [stepped] at cases_of
  cases cases_of with
  | waits waiting =>
    obtain between | ⟨idle, -⟩ := steady
    · exact between
    · rw [waiting] at idle
      cases idle
  | finished isFinished =>
    obtain closed | aborted := isFinished.2
    · exact .inl (by rw [same.1]; exact consistent.isLive_of_nil closed)
    · exact .inr (same.2.trans aborted)
  | counts idle isOpen running here live =>
    refine .inl ?_
    unfold accept
    rwa [conditions_reportSpelling]

/-- What a reader passes is consistent and steady. -/
theorem Passes.steady (run : r.Passes setup passed) (consistent : r.Consistent setup)
    (steady : r.IsSteady setup) : passed.Consistent setup ∧ passed.IsSteady setup := by
  induction run with
  | here r => exact ⟨consistent, steady⟩
  | later stepped more ih =>
    exact ih (consistent.of_goOn stepped) (steady.goOn consistent stepped)

/-- A steady reader that is about to read its innermost file where it does not count. -/
theorem IsSteady.standsDead (steady : r.IsSteady setup) (consistent : r.Consistent setup)
    (isOpen : r.frames = frame :: outer) (idle : r.queued = []) (goesOn : r.status ≠ .aborted)
    (dead : r.session.conditions.isLive = false) : r.StandsDead setup frame outer := by
  have noticed : r.IsNoticed setup := by
    obtain (live | aborted) | ⟨-, noticed⟩ := steady
    · rw [dead] at live
      cases live
    · exact absurd aborted goesOn
    · exact noticed
  refine ⟨isOpen, idle, goesOn, noticed, dead, ?_⟩
  have layered := consistent.layered
  rw [isOpen] at layered
  obtain ⟨mine, below, split, base, -, -, live, followed, -⟩ := layered
  have fits := followed.fits
  have depth : r.session.conditions.depth = mine.length + below.length := by
    rw [ConditionStack.depth, split, List.length_append]
  -- The file has opened a conditional, since those of the other files count.
  have opened : 0 < mine.length := by
    apply List.length_pos_of_ne_nil
    rintro rfl
    rw [List.nil_append] at split
    rw [← split] at live
    exact absurd live (by rw [dead]; exact Bool.false_ne_true)
  rw [← base] at fits
  cases guard : frame.guard with
  | absent => trivial
  | inside name opened =>
    rw [guard] at fits
    simp only [Guard.Fits] at fits
    simp only [Guard.StaysIn]
    omega
  | unread =>
    rw [guard] at fits
    simp only [Guard.Fits] at fits
    omega
  | closed name =>
    rw [guard] at fits
    simp only [Guard.Fits] at fits
    omega

/-- Reading a file depends on the other files only through where the reader stands. -/
theorem readToken_withFrames (frames : List Frame)
    (place : ({ r with frames } : Reader).place = r.place) :
    ({ r with frames } : Reader).readToken setup frame outer = r.readToken setup frame outer := by
  rw [readToken_eq, readToken_eq]
  split
  · congr 1
    unfold closeFile reportSpelling Reader.checkAbort
    simp only []
    split
    · split
      · split <;> rfl
      · rfl
    · rfl
  · congr 1
    unfold Reader.afterDirective
    rw [place]
    simp only []
    cases (_ : Directive).execute setup r.place r.session with
    | mk action s => cases action <;> rfl
  · rfl

/-- The next step after the lines are gone over. -/
theorem StandsDead.step_after (stands : r.StandsDead setup frame outer) (last : Lexer) :
    ({ r with frames := { frame with lexer := last } :: outer } : Reader).step setup
      = r.readToken setup { frame with lexer := last } outer := by
  have idle : ({ r with frames := { frame with lexer := last } :: outer } : Reader).queued = [] :=
    stands.idle
  rw [step_of_readToken setup idle rfl stands.goesOn]
  exact readToken_withFrames _ (by simp only [Reader.place, stands.isOpen])

end Reader

/-! ## The same steps in both runs -/

/-- The two texts differ in lines that are isolated in each of them, and there are as many. -/
structure ExchangedLines (trigraphs : Bool) (language : Language) (before lines lines' after : Text) :
    Prop where
  first : IsolatedLines trigraphs language before lines after
  second : IsolatedLines trigraphs language before lines' after
  sameNumber : (Source.ofDecoded trigraphs lines).finish.line
    = (Source.ofDecoded trigraphs lines').finish.line

/-- The lexers look alike; or they stand in the same place of the main file, before the lines. The main
file is the first one that a run opens. -/
def Lexer.SameBut (setup : Setup) (before lines lines' after : Text) (l l' : Lexer) : Prop :=
  l.Alike .withoutOffsets l' ∨
    l.file.number = 1 ∧ l.Exchanged
      (.ofDecoded setup.config.trigraphs (before ++ (lines ++ after)))
      (.ofDecoded setup.config.trigraphs (before ++ (lines' ++ after))) setup.config.language
      (Source.ofDecoded setup.config.trigraphs before).text.length l'

theorem Lexer.SameBut.presentLine {setup : Setup} {before lines lines' after : Text} {l l' : Lexer}
    (same : l.SameBut setup before lines lines' after l') (line : Nat) (name : Option Text) :
    (l.presentLine line name).SameBut setup before lines lines' after (l'.presentLine line name) := by
  obtain alike | ⟨main, exchanged⟩ := same
  · exact .inl (alike.presentLine line name)
  · exact .inr ⟨main, exchanged.presentLine line name⟩

namespace Reader

/-- Whether the reader goes on in its main file from before the index to it or beyond. -/
def comesTo (stop : Nat) (r : Reader) : Bool :=
  match r.queued, r.frames with
  | [], frame :: _ =>
    frame.lexer.file.number = 1 && frame.lexer.index < stop
      && stop ≤ (frame.lexer.skipGap true).index
  | _, _ => false

section Exchange

variable {setup : Setup} {before lines lines' after : Text} {r r' : Reader}
  (same : r.Alike .withoutOffsets (Lexer.SameBut setup before lines lines' after) r')

include same

/-- Items that look alike are read in the same way. -/
theorem readToken_sameBut {frame frame' : Frame} {outer outer' : List Frame}
    (below : List.Forall₂ (Frame.Alike .withoutOffsets (Lexer.SameBut setup before lines lines' after))
      outer outer')
    (items : frame.lexer.item.1.seen .withoutOffsets = frame'.lexer.item.1.seen .withoutOffsets)
    (rest : Frame.Alike .withoutOffsets (Lexer.SameBut setup before lines lines' after)
      { frame with lexer := frame.lexer.item.2 } { frame' with lexer := frame'.lexer.item.2 }) :
    Step.Alike .withoutOffsets (Lexer.SameBut setup before lines lines' after)
      (r.readToken setup frame outer) (r'.readToken setup frame' outer') := by
  show Step.Alike _ _ _ (r'.readToken (setup.skipping setup.skipsGuarded) frame' outer')
  refine same.readToken (.inl rfl) below (View.isClear_withoutOffsets.reader r)
    (fun d _ _ => View.isClear_withoutOffsets.speaks d.args)
    (fun line name => rest.lexer.presentLine line name) items rest ?_
  intro d lexer header site site' guard guard' s s' here alike guards _ sites
  obtain rfl : guard = guard' := guards rfl
  have entering : Reader.Alike .withoutOffsets (Lexer.SameBut setup before lines lines' after)
      { r with session := s, frames := { frame with lexer, guard } :: outer }
      { r' with
        session := s', frames := { frame' with lexer := frame'.lexer.item.2, guard } :: outer' } := by
    rw [here] at rest
    exact (same.withSession alike).withFrames (.cons { rest with guard := fun _ => rfl } below)
  exact entering.enter (fun alike => .inl alike) header (entering.isSettled setup rfl header) sites

/-- The second reader stands as dead as the first one. -/
theorem StandsDead.of_alike {frame frame' : Frame} {outer outer' : List Frame}
    (stands : r.StandsDead setup frame outer)
    (top : Frame.Alike .withoutOffsets (Lexer.SameBut setup before lines lines' after) frame frame')
    (isOpen' : r'.frames = frame' :: outer') : r'.StandsDead setup frame' outer' where
  isOpen := isOpen'
  idle := by
    have both := same.queued
    rwa [stands.idle, List.map_nil, eq_comm, List.map_eq_nil_iff] at both
  goesOn := same.status ▸ stands.goesOn
  noticed := by
    have noticed := stands.noticed
    unfold IsNoticed at noticed ⊢
    rwa [← same.session.journal (v := .spaced .withoutOffsets) rfl, ← same.status]
  dead := same.session.isLive ▸ stands.dead
  stays := by
    rw [← top.guard rfl, ← same.session.depth]
    exact stands.stays

variable (exchanged : ExchangedLines setup.config.trigraphs setup.config.language before lines lines' after)
include exchanged

/-- The readers make steps that look alike, perhaps after each has gone over its lines. -/
theorem exists_step_alike
    (consistent : r.Consistent setup) (steady : r.IsSteady setup)
    (dead : r.comesTo (Source.ofDecoded setup.config.trigraphs before).text.length = true →
      r.session.conditions.isLive = false) :
    ∃ here here', r.Passes setup here ∧ r'.Passes setup here'
      ∧ Step.Alike .withoutOffsets (Lexer.SameBut setup before lines lines' after) (here.step setup)
        (here'.step setup) := by
  by_cases crosses : ∃ frame frame' outer outer',
      r.queued = [] ∧ r.status ≠ .aborted ∧ r.frames = frame :: outer ∧ r'.frames = frame' :: outer'
      ∧ frame.lexer.file.number = 1
      ∧ frame.lexer.Exchanged
        (.ofDecoded setup.config.trigraphs (before ++ (lines ++ after)))
        (.ofDecoded setup.config.trigraphs (before ++ (lines' ++ after))) setup.config.language
        (Source.ofDecoded setup.config.trigraphs before).text.length frame'.lexer
      ∧ frame.lexer.Crosses (Source.ofDecoded setup.config.trigraphs before).text.length
      ∧ frame'.lexer.Crosses (Source.ofDecoded setup.config.trigraphs before).text.length
  · obtain ⟨frame, frame', outer, outer', idle, goesOn, isOpen, isOpen', main, parts, crossed, crossed'⟩ :=
      crosses
    have frames := same.frames
    rw [isOpen, isOpen', List.forall₂_cons] at frames
    obtain ⟨top, below⟩ := frames
    have comes : r.comesTo (Source.ofDecoded setup.config.trigraphs before).text.length = true := by
      simp only [comesTo, idle, isOpen, main, parts.before.within.index_lt,
        crossed.index_le (Nat.le_of_lt parts.before.within.index_lt), decide_true, Bool.and_self]
    have stands := steady.standsDead consistent isOpen idle goesOn (dead comes)
    have stands' := stands.of_alike same top isOpen'
    obtain ⟨items, last, reads, nests, ends⟩ :=
      parts.before.exists_reads exchanged.first rfl rfl crossed
    obtain ⟨items', last', reads', nests', ends'⟩ :=
      parts.before'.exists_reads exchanged.second rfl rfl crossed'
    have later := (parts.alike_past exchanged.first exchanged.second exchanged.sameNumber rfl rfl
      rfl).item
    rw [← ends, ← ends'] at later
    refine ⟨_, _, stands.passes reads nests, stands'.passes reads' nests', ?_⟩
    rw [stands.step_after, stands'.step_after]
    exact readToken_sameBut same below later.1
      { top with lexer := .inl later.2.of_spaced, file := later.2.of_spaced.file }
  · refine ⟨r, r', .here r, .here r', ?_⟩
    show Step.Alike _ _ _ (r'.step (setup.skipping setup.skipsGuarded))
    refine same.step ?_
    intro frame outer frame' outer' idle goesOn isOpen isOpen'
    have frames := same.frames
    rw [isOpen, isOpen', List.forall₂_cons] at frames
    obtain ⟨top, below⟩ := frames
    obtain alike | ⟨main, parts⟩ := top.lexer
    · exact readToken_sameBut same below alike.item.1
        { top with lexer := .inl alike.item.2.of_spaced, file := alike.item.2.of_spaced.file }
    · obtain ⟨crossed, crossed'⟩ | ⟨items, rest⟩ := parts.item
      · exact absurd ⟨frame, frame', outer, outer', idle, goesOn, isOpen, isOpen', main, parts, crossed,
          crossed'⟩ crosses
      · have file := (Lexer.source_item parts.before.within.skips).2.1
        have file' := (Lexer.source_item parts.before'.within.skips).2.1
        refine readToken_sameBut same below (congrArg _ items) { top with lexer := ?_, file := ?_ }
        · exact .inr ⟨file ▸ main, rest⟩
        · simp only [file, file']
          exact top.file

end Exchange

/-- A reader that makes a step without a token, after others that it passes, has less to read. -/
theorem Passes.below_of_goOn {setup : Setup} {r passed next : Reader} (run : r.Passes setup passed)
    (stepped : passed.step setup = .goOn next) :
    Levels.Below (Frame.levels setup.config.maxIncludeDepth next.frames)
      (Frame.levels setup.config.maxIncludeDepth r.frames) := by
  induction run with
  | here r => exact Reader.below_of_goOn stepped
  | later first _ ih => exact (ih stepped).trans (Reader.below_of_goOn first)

/-- The readers of the two runs between two tokens. -/
structure Exchanges (setup : Setup) (before lines lines' after : Text) (r r' : Reader) : Prop where
  consistent : r.Consistent setup
  between : r.IsBetween
  alike : r.Alike .withoutOffsets (Lexer.SameBut setup before lines lines' after) r'

section Exchange

variable {setup : Setup} {before lines lines' after : Text}
  (exchanged : ExchangedLines setup.config.trigraphs setup.config.language before lines lines' after)
include exchanged

/-- The tokens that are pulled look the same. -/
theorem pull_exchanged {r r' : Reader}
    (same : r.Alike .withoutOffsets (Lexer.SameBut setup before lines lines' after) r')
    (consistent : r.Consistent setup) (steady : r.IsSteady setup)
    (dead : ∀ passed, r.Passes setup passed →
      passed.comesTo (Source.ofDecoded setup.config.trigraphs before).text.length = true →
        passed.session.conditions.isLive = false) :
    (r.pull setup).1.seen .withoutOffsets = (r'.pull setup).1.seen .withoutOffsets
      ∧ Exchanges setup before lines lines' after (r.pull setup).2 (r'.pull setup).2 := by
  induction size : Frame.levels setup.config.maxIncludeDepth r.frames using
    Levels.below_wf.induction generalizing r r' with
  | h size ih =>
    obtain ⟨here, here', run, run', steps⟩ :=
      exists_step_alike same exchanged consistent steady (dead r (.here r))
    obtain ⟨consistentHere, steadyHere⟩ := run.steady consistent steady
    rw [run.pull_eq, run'.pull_eq]
    cases stepped : here.step setup with
    | give token next =>
      rw [stepped] at steps
      generalize stepped' : here'.step setup = step' at steps
      cases steps with
      | give looks alike =>
        rw [pull_of_give stepped, pull_of_give stepped']
        exact ⟨looks, consistentHere.step (.inl stepped), steadyHere.give consistentHere stepped, alike⟩
    | goOn next =>
      rw [stepped] at steps
      generalize stepped' : here'.step setup = step' at steps
      cases steps with
      | goOn alike =>
        rw [pull_of_goOn stepped, pull_of_goOn stepped']
        refine ih _ (size ▸ run.below_of_goOn stepped) alike
          (consistentHere.of_goOn stepped) (steadyHere.goOn consistentHere stepped)
          (fun passed later => ?_) rfl
        exact dead passed (run.trans (.later stepped later))

/-- The readers of the two runs are twins. -/
theorem twins_exchanged :
    Twins .withoutOffsets setup setup.skipsGuarded
      (fun r => r.comesTo (Source.ofDecoded setup.config.trigraphs before).text.length = true →
        r.session.conditions.isLive = false)
      (Exchanges setup before lines lines' after) := by
  refine twins_of_alike View.isClear_withoutOffsets (.inl rfl) (fun same => same.alike) ?_
    fun same dead => pull_exchanged exchanged same.alike same.consistent (.inl same.between) dead
  intro r r' next next' same one _ alike
  refine ⟨same.consistent.of_same one.frames one.conditions one.guards, ?_, alike⟩
  obtain live | aborted := same.between
  · exact .inl (one.conditions ▸ live)
  · exact .inr (one.ended aborted)

end Exchange

end Reader

/-! ## The two runs -/

namespace Preprocessor

/-- The runs have come to the same but for offsets: the tokens, what has been reported, the macros, the
headers that were looked up, the files that are known to be guarded and the ones that are read only
once. -/
structure SameOutcome (one two : List Token × Preprocessor) : Prop where
  tokens : one.1.map (Token.seen .withoutOffsets) = two.1.map (Token.seen .withoutOffsets)
  status : one.2.reader.status = two.2.reader.status
  diagnostics : one.2.journal = two.2.journal
  macros : one.2.reader.session.macros.seen .withoutOffsets
    = two.2.reader.session.macros.seen .withoutOffsets
  lookups : one.2.reader.session.resolver = two.2.reader.session.resolver
  guards : one.2.reader.guards = two.2.reader.guards
  onceFiles : one.2.reader.onceFiles = two.2.reader.onceFiles

variable {setup : Setup} {p q : Preprocessor} {text text' name before lines lines' after : Text}

/-- The readers start in main files that differ in the exchanged lines. -/
theorem exchanges_openPreamble
    (exchanged : ExchangedLines setup.config.trigraphs setup.config.language before lines lines' after)
    (created : create setup = .ok p) :
    Reader.Exchanges setup before lines lines' after
      (openPreamble setup (p.mainReader setup
        (.ofDecoded setup.config.trigraphs (before ++ (lines ++ after))) name))
      (openPreamble setup (p.mainReader setup
        (.ofDecoded setup.config.trigraphs (before ++ (lines' ++ after))) name)) := by
  have isNew := isNew_of_create created
  have live : p.reader.session.conditions.isLive = true := by
    rw [isNew.unconditional]
    rfl
  have parts := Lexer.exchanged_ofSource exchanged.first exchanged.second ⟨name, name, 1⟩
  have session : p.reader.session.Alike .withoutOffsets p.reader.session := by
    obtain ⟨t, shows⟩ := Session.Shows.exists_shows .withoutOffsets p.reader.session
      fun files searchPath kept => by cases kept
    exact ⟨t, shows, shows⟩
  have mains : (p.mainReader setup
        (.ofDecoded setup.config.trigraphs (before ++ (lines ++ after))) name).Alike .withoutOffsets
      (Lexer.SameBut setup before lines lines' after) (p.mainReader setup
        (.ofDecoded setup.config.trigraphs (before ++ (lines' ++ after))) name) := by
    refine ⟨session, ?_, rfl, rfl, fun _ => rfl, fun _ => rfl, rfl, rfl, rfl⟩
    simp only [mainReader, Reader.openFrame, isNew.closed, isNew.number]
    exact .cons ⟨.inr ⟨rfl, parts⟩, rfl, rfl, rfl, rfl, rfl, rfl, rfl, fun _ => rfl⟩ .nil
  have opening : p.openMain setup
      (.ok (.ofDecoded setup.config.trigraphs (before ++ (lines ++ after)))) name = .ok _ :=
    isNew.openMain_eq_ok.mpr ⟨_, rfl, rfl⟩
  refine ⟨Reader.consistent_openMain created opening, .inl ?_, ?_⟩
  all_goals
    unfold openPreamble
    simp only []
    split
  · exact live
  · exact live
  · exact mains
  · exact mains.openFrame .inl ..

/-- Lines of the main file that do not count when the run comes to them can be exchanged for as many
others: the second run opens its text too, and however far the runs go, they come to the same but for
offsets. In both texts the conditionals of the lines have to be well nested, and no comment, no raw
string and no joined line may reach into the lines or out of them. What the lines are is not asked. -/
theorem sameOutcome_of_dead_lines (created : create setup = .ok p)
    (exchanged : ExchangedLines setup.config.trigraphs setup.config.language before lines lines' after)
    (decoded : Encoding.decode text = .ok (before ++ (lines ++ after)))
    (decoded' : Encoding.decode text' = .ok (before ++ (lines' ++ after)))
    (opened : p.openSource setup text name = .ok q)
    (dead : ∀ r, q.Passes setup r →
      r.comesTo (Source.ofDecoded setup.config.trigraphs before).text.length = true →
        r.session.conditions.isLive = false) :
    ∃ q', p.openSource setup text' name = .ok q'
      ∧ ∀ n, SameOutcome (q.tokensWithin setup n) (q'.tokensWithin setup n) := by
  have isNew := isNew_of_create created
  have source {text decoded : Text} (decodes : Encoding.decode text = .ok decoded) :
      Source.ofBytes text name setup.config.trigraphs
        = .ok (.ofDecoded setup.config.trigraphs decoded) := by
    rw [Source.ofBytes, decodes]
  rw [isNew.openSource_eq (source decoded), Except.ok.injEq] at opened
  subst opened
  refine ⟨_, isNew.openSource_eq (source decoded'), fun n => ?_⟩
  have twins : Twins .withoutOffsets (Reader.Exchanges setup before lines lines' after)
      { p with reader := openPreamble setup (p.mainReader setup
        (.ofDecoded setup.config.trigraphs (before ++ (lines ++ after))) name) }
      { p with reader := openPreamble setup (p.mainReader setup
        (.ofDecoded setup.config.trigraphs (before ++ (lines' ++ after))) name) } :=
    ⟨exchanges_openPreamble exchanged created, rfl, View.isClear_withoutOffsets.speaks _⟩
  have outcome := (Reader.twins_exchanged exchanged).tokensWithin twins dead
    (fun args _ => View.isClear_withoutOffsets.speaks args) n
  have alike := outcome.2.alike
  exact ⟨outcome.1, alike.status, alike.session.journal (v := .spaced .withoutOffsets) rfl,
    alike.session.macros, alike.session.resolver rfl, alike.guards rfl, alike.onceFiles⟩

/-! Two lines between `#ifdef A` and `#endif`, where `A` is not defined. -/

/-- No macros are defined first, and no name is a keyword. -/
def plainSetup : Setup where
  config := { standardMacros := false, language := .ofWords [] [] }

/-- The run that has opened a main file. -/
def plainRun (text : Text) : Preprocessor where
  reader := Reader.freshRun.mainReader plainSetup (.ofDecoded false text) ['m']

theorem openSource_plain {text : Text} (decoded : Encoding.decode text = .ok text) :
    Reader.freshRun.openSource plainSetup text ['m'] = .ok (plainRun text) := by
  have created : create plainSetup = .ok Reader.freshRun := rfl
  have source : Source.ofBytes text ['m'] plainSetup.config.trigraphs
      = .ok (.ofDecoded false text) := by
    rw [Source.ofBytes, decoded]
    rfl
  have noPreamble : plainSetup.config.preamble = [] := rfl
  rw [(isNew_of_create created).openSource_eq source, openPreamble]
  simp only [noPreamble, if_true]
  rfl

/-- What stands before the lines, the lines, what they are exchanged for, and what stands after
them. -/
def deadLines : Text × Text × Text × Text :=
  ("#ifdef A\n".toList, "x\ny\n".toList, "#error\n\"\n".toList, "#endif\nz\n".toList)

theorem deadLines_exchanged :
    ExchangedLines false (.ofWords [] []) deadLines.1 deadLines.2.1 deadLines.2.2.1 deadLines.2.2.2 where
  first :=
    { ends := by decide +kernel
      last := .inr ⟨"x\ny".toList, by decide +kernel, by decide +kernel⟩
      nested := Lexer.IsNested.of_closes (n := 9) (by decide +kernel)
      starts := by decide +kernel
      first := ⟨"#ifdef A".toList, by decide +kernel, by decide +kernel⟩ }
  second :=
    { ends := by decide +kernel
      last := .inr ⟨"#error\n\"".toList, by decide +kernel, by decide +kernel⟩
      nested := Lexer.IsNested.of_closes (n := 9) (by decide +kernel)
      starts := by decide +kernel
      first := ⟨"#ifdef A".toList, by decide +kernel, by decide +kernel⟩ }
  sameNumber := by decide +kernel

/-- Whether the lines do not count where the reader comes to them. -/
def skipsFrom (stop : Nat) (r : Reader) : Bool :=
  !r.comesTo stop || !r.session.conditions.isLive

theorem dead_of_walks {text : Text} {stop n : Nat}
    (walked : (plainRun text).reader.walks plainSetup (skipsFrom stop) n = true) :
    ∀ r, (plainRun text).Passes plainSetup r → r.comesTo stop = true →
      r.session.conditions.isLive = false := by
  intro r passed comes
  have checked := check_of_passes rfl rfl walked passed
  simpa [skipsFrom, comes] using checked

/-- What the lines are makes no difference, though the others are an error and half a string. -/
theorem sameOutcome_of_dead_lines_error :
    let text := deadLines.1 ++ (deadLines.2.1 ++ deadLines.2.2.2)
    let text' := deadLines.1 ++ (deadLines.2.2.1 ++ deadLines.2.2.2)
    ∃ q', Reader.freshRun.openSource plainSetup text' ['m'] = .ok q'
      ∧ ∀ n, SameOutcome ((plainRun text).tokensWithin plainSetup n)
        (q'.tokensWithin plainSetup n) := by
  intro text text'
  have created : create plainSetup = .ok Reader.freshRun := rfl
  have decoded : Encoding.decode text = .ok text := rfl
  have decoded' : Encoding.decode text' = .ok text' := rfl
  have walked : (plainRun text).reader.walks plainSetup
      (skipsFrom (Source.ofDecoded false deadLines.1).text.length) 20 = true := by
    decide +kernel
  exact sameOutcome_of_dead_lines created deadLines_exchanged decoded decoded'
    (openSource_plain decoded) (dead_of_walks walked)

/-! A raw string that is not closed before the lines is closed in the lines that they are exchanged for:
it runs into them, and they are no longer lines of a conditional. -/

/-- What stands before the lines, the lines, what they are exchanged for, and what stands after
them. -/
def enteredLines : Text × Text × Text × Text :=
  ("R\"(\n#ifdef A\n".toList, "a\n".toList, ")\"\n".toList, "#endif\n".toList)

/-- Whether the step gives a token with the lexeme. -/
def givesLexeme (lexeme : Text) : Reader.Step → Bool
  | .give token next => token.lexeme = lexeme && !token.isEnd && next.status = .ok
  | .goOn _ => false

/-- The lexeme of the first token of a run. -/
theorem exists_tokensWithin {text lexeme : Text} {n : Nat}
    (walked : (plainRun text).reader.walks plainSetup (fun _ => true) n = true)
    (gives : givesLexeme lexeme ((plainRun text).reader.step plainSetup) = true) (m : Nat) :
    ∃ token rest, ((plainRun text).tokensWithin plainSetup (m + 1)).1 = token :: rest
      ∧ token.lexeme = lexeme := by
  cases stepped : (plainRun text).reader.step plainSetup with
  | goOn next =>
    rw [stepped] at gives
    cases gives
  | give token next =>
    rw [stepped] at gives
    simp only [givesLexeme, Bool.and_eq_true, decide_eq_true_eq, Bool.not_eq_true'] at gives
    obtain ⟨⟨same, more⟩, ok⟩ := gives
    have given : (plainRun text).next plainSetup = (token, { reader := next }) := by
      rw [next_of_walks rfl rfl walked Bool.false_ne_true, Reader.pull_of_give stepped, give, isAborted,
        if_neg (by simp [ok])]
      rfl
    rw [tokensWithin, given]
    simp only [more, Bool.false_eq_true, if_false]
    exact ⟨token, _, rfl, same⟩

/-- If only the lines themselves are looked at, the runs may part: here the conditionals of both lines
are well nested, and no comment, no raw string and no joined line runs past them, and the first lines do
not count; but the tokens are not the same. -/
theorem not_sameOutcome_of_open_raw_string :
    let text := enteredLines.1 ++ (enteredLines.2.1 ++ enteredLines.2.2.2)
    let text' := enteredLines.1 ++ (enteredLines.2.2.1 ++ enteredLines.2.2.2)
    IsolatedLines false (.ofWords [] []) enteredLines.1 enteredLines.2.1 enteredLines.2.2.2
      ∧ OwnLines false (.ofWords [] []) enteredLines.2.2.1 enteredLines.2.2.2
      ∧ enteredLines.1.IsLines (enteredLines.2.2.1 ++ enteredLines.2.2.2)
      ∧ (Source.ofDecoded false enteredLines.2.1).finish.line
        = (Source.ofDecoded false enteredLines.2.2.1).finish.line
      ∧ Reader.freshRun.openSource plainSetup text ['m'] = .ok (plainRun text)
      ∧ Reader.freshRun.openSource plainSetup text' ['m'] = .ok (plainRun text')
      ∧ (∀ r, (plainRun text).Passes plainSetup r →
        r.comesTo (Source.ofDecoded false enteredLines.1).text.length = true →
          r.session.conditions.isLive = false)
      ∧ ∀ n, ¬SameOutcome ((plainRun text).tokensWithin plainSetup (n + 1))
        ((plainRun text').tokensWithin plainSetup (n + 1)) := by
  intro text text'
  have own : OwnLines false (.ofWords [] []) enteredLines.2.1 enteredLines.2.2.2 :=
    { ends := by decide +kernel
      last := .inr ⟨"a".toList, by decide +kernel, by decide +kernel⟩
      nested := Lexer.IsNested.of_closes (n := 9) (by decide +kernel) }
  refine ⟨{ own with
      starts := by decide +kernel
      first := ⟨"R\"(\n#ifdef A".toList, by decide +kernel, by decide +kernel⟩ }, ?_, by decide +kernel,
    by decide +kernel, openSource_plain rfl, openSource_plain rfl,
    dead_of_walks (n := 20) (by decide +kernel), fun n same => ?_⟩
  · exact {
      ends := by decide +kernel
      last := .inr ⟨")\"".toList, by decide +kernel, by decide +kernel⟩
      nested := Lexer.IsNested.of_closes (n := 9) (by decide +kernel) }
  · have walked : (plainRun text).reader.walks plainSetup (fun _ => true) 20 = true := by
      decide +kernel
    have walked' : (plainRun text').reader.walks plainSetup (fun _ => true) 20 = true := by
      decide +kernel
    have gives : givesLexeme "R\"(".toList ((plainRun text).reader.step plainSetup) = true := by
      decide +kernel
    have gives' : givesLexeme "R\"(\n#ifdef A\n)\"".toList
        ((plainRun text').reader.step plainSetup) = true := by
      decide +kernel
    obtain ⟨token, rest, first, lexeme⟩ := exists_tokensWithin walked gives n
    obtain ⟨token', rest', first', lexeme'⟩ := exists_tokensWithin walked' gives' n
    have looks := same.tokens
    rw [first, first', List.map_cons, List.map_cons, List.cons.injEq] at looks
    have lexemes : token.lexeme = token'.lexeme :=
      Token.congr_seen Token.lexeme (fun _ => rfl) looks.1
    rw [lexeme, lexeme'] at lexemes
    exact absurd lexemes (by decide)

end Preprocessor

end CPreprocessor
