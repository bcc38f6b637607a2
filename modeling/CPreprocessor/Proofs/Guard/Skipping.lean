/-
# Recorded guards only save work

A header is passed over where it has been recorded as guarded by a name that is defined.
The run that does not look guards up reads the header again, which gives no token and
changes nothing but reports, so the two runs stay twins. The one thing that could part
them is a header whose path leads to another file than the one it was found as; that no
include of the run finds such a header is what `tokensWithin_skipping` has to assume.
-/
import CPreprocessor.Proofs.Guard.Include
import CPreprocessor.Proofs.Include.Location
import CPreprocessor.Proofs.Run.Twins

namespace CPreprocessor

theorem View.isClear_unnumbered : View.IsClear .unnumbered :=
  ⟨rfl, rfl, rfl, rfl, rfl, rfl⟩

/-- The view hides what is left behind by a guarded header that is read again. -/
structure View.HidesRereading (v : View) : Prop where
  number : v.number = false
  guards : v.guards = false

theorem View.HidesRereading.reports {v : View} (hides : v.HidesRereading) : v.reports = false := by
  cases reports : v.reports with
  | false => rfl
  | true => exact absurd (v.reports_seen reports).2.2.2.2 (by rw [hides.guards]; exact nofun)

theorem View.hidesRereading_unnumbered : View.HidesRereading .unnumbered :=
  ⟨rfl, rfl⟩

namespace Reader

/-- If the next directive of the reader asks for a header, the path of the header leads to the file
that it was found as. -/
def EntersFound (setup : Setup) (r : Reader) : Prop :=
  ∀ frame outer d rest header site s, r.queued = [] → r.frames = frame :: outer →
    frame.lexer.item = (.directive d, rest) →
    d.execute setup r.place r.session = (.enter header site, s) →
    setup.files.canonical header.path = header.canonical

variable {setup : Setup} {r r' : Reader}

variable (setup) in
/-- Whether the reader enters what it found, by looking at its next directive. -/
def entersFound (r : Reader) : Bool :=
  match r.queued, r.frames with
  | [], frame :: _ =>
    match frame.lexer.item with
    | (.directive d, _) =>
      match d.execute setup r.place r.session with
      | (.enter header _, _) => setup.files.canonical header.path = header.canonical
      | _ => true
    | _ => true
  | _, _ => true

theorem EntersFound.of_check (checked : r.entersFound setup = true) : r.EntersFound setup := by
  intro frame outer d rest header site s idle isOpen here asked
  simpa only [entersFound, idle, isOpen, here, asked, decide_eq_true_eq] using checked

/-- The reader after a directive of its innermost file, before the header that the directive asks for
is entered. -/
def entering (r : Reader) (frame : Frame) (outer : List Frame) (d : Directive) (rest : Lexer)
    (s : Session) : Reader :=
  let guard := frame.guard.afterDirective d r.session.conditions.depth s.conditions.depth
  { r with session := s, frames := { frame with lexer := rest, guard } :: outer }

/-- A reader whose next directive asks for a header enters it. -/
theorem readToken_of_enter {frame : Frame} (outer : List Frame) {d : Directive} {rest : Lexer}
    {header : Header} {site : Token} {s : Session} (here : frame.lexer.item = (.directive d, rest))
    (asked : d.execute setup r.place r.session = (.enter header site, s)) :
    r.readToken setup frame outer
      = .goOn (((r.entering frame outer d rest s).enter setup header site).checkAbort setup) := by
  rw [readToken_eq, here]
  simp only [afterDirective, asked, act, entering]

/-- A header is open if an open file has its canonical path. -/
theorem openFile?_eq_none_iff (header : Header) :
    r.openFile? header = none ↔ ∀ file ∈ r.frames, file.canonical ≠ header.canonical := by
  simp only [openFile?, List.find?_eq_none, List.mem_reverse, decide_eq_true_eq, ne_eq]

/-- Without lookups of guards, only marked headers are passed over. -/
theorem isSettled_skipping (header : Header) :
    r.isSettled (setup.skipping false) header = r.onceFiles.contains header.canonical := by
  simp only [isSettled, Setup.skipping, Bool.false_and, Bool.or_false]

section Lenient

variable (lenient : setup.config.failFast = false)
include lenient

/-- A run that has ended early makes no step without a token. -/
theorem status_of_goOn {next : Reader} (stepped : r.step setup = .goOn next) :
    next.status ≠ .aborted := by
  unfold step at stepped
  split at stepped
  · cases stepped
  · cases stepped
  · split at stepped
    · cases stepped
    · rename_i goesOn
      rw [status_readToken lenient .endOfNothing (.inr stepped)]
      exact goesOn

end Lenient

/-! ## Reading a guarded header again -/

/-- The second reader goes on, without a token, to one that looks like the first one. -/
def CatchesUp (setup : Setup) (v : View) (related : Lexer → Lexer → Prop) (r r' : Reader) : Prop :=
  ∃ events last, r'.Reads setup events last ∧ events.filterMap Event.token? = []
    ∧ r.Alike v related last

variable {v : View} {related : Lexer → Lexer → Prop}

theorem Alike.catchesUp (same : r.Alike v related r') : CatchesUp setup v related r r' :=
  ⟨[], r', .done r', rfl, same⟩

/-- A file that was recorded as guarded is still guarded when it is opened as a header. -/
theorem Consistent.isGuarded (consistent : r.Consistent setup) (proper : setup.files.IsProper)
    (nonempty : r.frames ≠ []) {header : Header} {name : Text}
    (recorded : (header.canonical, name) ∈ r.guards)
    (found : setup.files.canonical header.path = header.canonical) {source : Source}
    (read : setup.files.readSource header.path setup.config.trigraphs = .ok source)
    (file : FileRef) : (Lexer.ofSource source file setup.config.language false).IsGuarded name := by
  -- The file was recorded under another path, perhaps, but it is the same file.
  obtain ⟨path, original, canonical, readFirst, guarded⟩ := consistent.recorded nonempty _ recorded
  obtain rfl : original = source :=
    FileSystem.source_eq_of_canonical proper readFirst read (canonical.trans found.symm)
  exact guarded file

section Rereading

variable (hides : v.HidesRereading) (lenient : setup.config.failFast = false)
  (proper : setup.files.IsProper) (same : r.Alike v related r') (consistent : r.Consistent setup)
include hides lenient proper same

include consistent in
/-- A header that is known to be guarded is read to its end. -/
theorem Alike.catchesUp_openHeader (nonempty : r.frames ≠ []) (idle : r.queued = [])
    (live : r.session.conditions.isLive = true) {header : Header} {name : Text}
    (found : setup.files.canonical header.path = header.canonical)
    (recorded : r.guards.lookup header.canonical = some name)
    (defined : r.session.macros.isDefined name = true) (site : Token) :
    CatchesUp (setup.skipping false) v related r
      (r'.openHeader (setup.skipping false) header site) := by
  rw [openHeader_skipping]
  unfold Reader.openHeader
  simp only []
  split
  · exact (same.report_right hides.reports site _ _).catchesUp
  · cases read : setup.files.readSource header.path setup.config.trigraphs with
    | error error => exact (same.report_right hides.reports site _ _).catchesUp
    | ok source =>
      have guarded :=
        consistent.isGuarded proper nonempty (mem_of_lookup recorded) found read .unknown
      have queued : r'.queued = [] := by
        have both := same.queued
        rw [idle, List.map_nil, eq_comm, List.map_eq_nil_iff] at both
        exact both
      have isOpen : r'.frames ≠ [] := by
        intro none
        have both := same.frames
        rw [none, List.forall₂_nil_right_iff] at both
        exact nonempty both
      obtain ⟨events, journal, guards, status, ending, reads, silent, kept⟩ :=
        reads_of_isGuarded (setup.skipping false)
          (r'.openFrame setup source header.path header.path
            (setup.files.canonical header.path) header.searchIndex (r'.place.includeDepth + 1) false)
          rfl queued (same.session.isLive ▸ live) rfl
          (guarded.of_alike (v := .blind) (Lexer.alike_ofSource _ _ rfl))
          ((same.session.isDefined name).symm.trans defined)
      refine ⟨events, _, reads, silent, ?_⟩
      have sameStatus : status = r'.status :=
        Reads.status (show (setup.skipping false).config.failFast = false from lenient) reads
      have sameEnding : ending = r'.ending := kept isOpen
      exact { same with
        session := same.session.annotated hides.reports r.session.journal journal
        guards := fun seen => absurd seen (by rw [hides.guards]; exact nofun)
        nextFileNumber := fun seen => absurd seen (by rw [hides.number]; exact nofun)
        status := same.status.trans sameStatus.symm
        ending := sameEnding ▸ same.ending }

variable (alike : ∀ {l l'}, Lexer.Alike v l l' → related l l')
include alike

include consistent in
/-- A header is entered in both runs, or passed over in the first one and read to its end in the
second one. -/
theorem Alike.catchesUp_enter (nonempty : r.frames ≠ []) (idle : r.queued = [])
    (live : r.session.conditions.isLive = true) {header : Header}
    (found : setup.files.canonical header.path = header.canonical) {site site' : Token}
    (looks : site.seen v.marks = site'.seen v.marks) :
    CatchesUp (setup.skipping false) v related (r.enter setup header site)
      (r'.enter (setup.skipping false) header site') := by
  by_cases settled : r.isSettled setup header = r'.isSettled (setup.skipping false) header
  · exact (same.enter alike header settled looks).catchesUp
  · -- The header is passed over because of its guard alone.
    rw [isSettled_skipping, ← same.onceFiles] at settled
    have notOnce : r.onceFiles.contains header.canonical = false := by
      cases once : r.onceFiles.contains header.canonical with
      | false => rfl
      | true => exact absurd (by rw [Reader.isSettled, once, Bool.true_or]) settled
    rw [notOnce, Bool.not_eq_false] at settled
    have skips : r.enter setup header site = r := by
      unfold Reader.enter
      rw [if_pos settled]
    have entersAgain : ¬r'.isSettled (setup.skipping false) header = true := by
      rw [isSettled_skipping, ← same.onceFiles, notOnce]
      exact Bool.false_ne_true
    rw [skips]
    unfold Reader.enter
    rw [if_neg entersAgain]
    cases r'.openFile? header with
    | some frame =>
      simp only []
      split
      · exact same.catchesUp
      · exact (same.report_right hides.reports site' _ _).catchesUp
    | none =>
      rw [Reader.isSettled, notOnce, Bool.false_or, Bool.and_eq_true] at settled
      obtain ⟨name, recorded, defined⟩ := (Option.any_eq_true _ _).mp settled.2
      exact same.catchesUp_openHeader hides lenient proper consistent nonempty idle live found recorded
        defined site'

include consistent in
/-- The readers read items that look alike in the same way, or the second one goes on to where the first
one is. -/
theorem Alike.readToken_skipping (clear : r.IsClear v setup) (found : r.EntersFound setup)
    (idle : r.queued = []) {frame frame' : Frame} {outer outer' : List Frame}
    (isOpen : r.frames = frame :: outer) (isOpen' : r'.frames = frame' :: outer')
    (speaks : ∀ d rest, frame.lexer.item = (.directive d, rest) → v.Speaks d.args)
    (presents : ∀ line name, related (frame.lexer.item.2.presentLine line name)
      (frame'.lexer.item.2.presentLine line name))
    (items : frame.lexer.item.1.seen v = frame'.lexer.item.1.seen v)
    (after : Frame.Alike v related { frame with lexer := frame.lexer.item.2 }
      { frame' with lexer := frame'.lexer.item.2 }) :
    Step.Alike v related (r.readToken setup frame outer)
        (r'.readToken (setup.skipping false) frame' outer')
      ∨ ∃ next next', r.readToken setup frame outer = .goOn next
        ∧ r'.readToken (setup.skipping false) frame' outer' = .goOn next'
        ∧ CatchesUp (setup.skipping false) v related next next' := by
  have frames := same.frames
  rw [isOpen, isOpen', List.forall₂_cons] at frames
  by_cases enters : ∃ d rest header site s, frame.lexer.item = (.directive d, rest)
      ∧ d.execute setup r.place r.session = (.enter header site, s)
  · obtain ⟨d, rest, header, site, s, here, asked⟩ := enters
    rw [here] at items after
    cases here' : frame'.lexer.item with
    | mk item' rest' =>
      rw [here'] at items after
      cases item' with
      | token given => cases items
      | finish final => cases items
      | directive d' =>
        have looks : d.seen v = d'.seen v := Item.directive.inj items
        have executed := @Alike.execute _ _ _ _ same setup false clear _ _ (speaks d rest here) looks
        rw [asked] at executed
        cases asked' : d'.execute (setup.skipping false) r'.place r'.session with
        | mk action s' =>
          rw [asked'] at executed
          cases action with
          | enter header' site' =>
            obtain ⟨rfl, sites⟩ := Action.enter.inj executed.1
            have read := readToken_of_enter outer here asked
            have read' := readToken_of_enter outer' here' asked'
            rw [checkAbort_of_lenient lenient] at read
            rw [checkAbort_of_lenient
              (show (setup.skipping false).config.failFast = false from lenient)] at read'
            have live := live_of_enter asked
            have wentOn := consistent.goOnAfter isOpen here (.inl rfl)
            rw [asked] at wentOn
            have top : Frame.Alike v related
                { frame with
                  lexer := rest
                  guard := frame.guard.afterDirective d r.session.conditions.depth s.conditions.depth }
                { frame' with
                  lexer := rest'
                  guard := frame'.guard.afterDirective d' r'.session.conditions.depth
                    s'.conditions.depth } :=
              { after with guard := same.guard_afterDirective frames.1 looks executed.2 }
            have shown : (r.entering frame outer d rest s).Alike v related
                (r'.entering frame' outer' d' rest' s') :=
              (same.withSession executed.2).withFrames (.cons top frames.2)
            refine .inr ⟨_, _, read, read', ?_⟩
            exact shown.catchesUp_enter hides lenient proper wentOn alike (List.cons_ne_nil _ _) idle
              (live.2 ▸ live.1) (found frame outer d rest header site s idle isOpen here asked) sites
          | nothing => cases executed.1
          | present line name => cases executed.1
          | pass => cases executed.1
          | once => cases executed.1
  · refine .inl (same.readToken (.inr lenient) frames.2 clear speaks presents items after ?_)
    intro d rest header site site' guard guard' s s' here _ _ asked _
    exact absurd ⟨d, rest, header, site, s, here, asked⟩ enters

end Rereading

/-! ## The two runs -/

/-- Readers that look alike, of which the first one knows its guards. -/
def LooksThrough (setup : Setup) (r r' : Reader) : Prop :=
  r.Consistent setup ∧ r.Alike .unnumbered (Lexer.Alike .unnumbered) r'

/-- The readers make steps that look alike, or the second one goes on to where the first one is. -/
theorem step_skipping (lenient : setup.config.failFast = false) (proper : setup.files.IsProper)
    (same : LooksThrough setup r r') (found : r.EntersFound setup) :
    Step.Alike .unnumbered (Lexer.Alike .unnumbered) (r.step setup)
        (r'.step (setup.skipping false))
      ∨ ∃ next next', r.step setup = .goOn next ∧ r'.step (setup.skipping false) = .goOn next'
        ∧ CatchesUp (setup.skipping false) .unnumbered (Lexer.Alike .unnumbered) next next' := by
  obtain ⟨consistent, alike⟩ := same
  have clear := View.isClear_unnumbered
  by_cases reads : r.queued = [] ∧ r.status ≠ .aborted ∧ r.frames ≠ []
  · obtain ⟨idle, goesOn, nonempty⟩ := reads
    obtain ⟨frame, outer, isOpen⟩ := List.exists_cons_of_ne_nil nonempty
    have frames := alike.frames
    rw [isOpen] at frames
    obtain ⟨frame', outer', top, below, isOpen'⟩ := List.forall₂_cons_left_iff.mp frames
    have idle' : r'.queued = [] := by
      have both := alike.queued
      rw [idle, List.map_nil, eq_comm, List.map_eq_nil_iff] at both
      exact both
    obtain ⟨items, after⟩ := top.lexer.item
    rw [step_of_readToken setup idle isOpen goesOn,
      step_of_readToken (setup.skipping false) idle' isOpen' (alike.status ▸ goesOn)]
    exact alike.readToken_skipping View.hidesRereading_unnumbered lenient proper consistent
      (fun same => same) (clear.reader r) found idle isOpen isOpen'
      (fun d _ _ => clear.speaks d.args) (fun line name => after.of_spaced.presentLine line name) items
      { top with lexer := after.of_spaced, file := after.of_spaced.file }
  · refine .inl (alike.step fun frame outer frame' outer' idle goesOn isOpen _ => ?_)
    exact absurd ⟨idle, goesOn, by rw [isOpen]; exact List.cons_ne_nil _ _⟩ reads

/-- The tokens that are pulled look the same. -/
theorem pull_skipping (lenient : setup.config.failFast = false) (proper : setup.files.IsProper)
    (same : LooksThrough setup r r')
    (found : ∀ passed, r.Passes setup passed → passed.EntersFound setup) :
    (r.pull setup).1.seen .unnumbered = (r'.pull (setup.skipping false)).1.seen .unnumbered
      ∧ LooksThrough setup (r.pull setup).2 (r'.pull (setup.skipping false)).2 := by
  fun_induction Reader.pull setup r generalizing r' with
  | case1 r token next stepped =>
    have steps := step_skipping lenient proper same (found r (.here r))
    have consistent := same.1.step (.inl stepped)
    rw [stepped] at steps
    obtain steps | ⟨after, after', went, -⟩ := steps
    · cases stepped' : r'.step (setup.skipping false) with
      | give token' next' =>
        rw [stepped'] at steps
        cases steps with
        | give looks alike =>
          rw [pull_of_give stepped']
          exact ⟨looks, consistent, alike⟩
      | goOn next' =>
        rw [stepped'] at steps
        cases steps
    · cases went
  | case2 r next stepped =>
    rename_i ih
    have steps := step_skipping lenient proper same (found r (.here r))
    have consistent := same.1.of_goOn stepped
    have foundLater : ∀ passed, next.Passes setup passed → passed.EntersFound setup :=
      fun passed later => found passed (.later stepped later)
    rw [stepped] at steps
    obtain steps | ⟨after, after', went, stepped', events, last, reads, silent, alike⟩ := steps
    · cases stepped' : r'.step (setup.skipping false) with
      | give token' next' =>
        rw [stepped'] at steps
        cases steps
      | goOn next' =>
        rw [stepped'] at steps
        cases steps with
        | goOn alike =>
          rw [pull_of_goOn stepped']
          exact ih ⟨consistent, alike⟩ foundLater
    · cases went
      have lenient' : (setup.skipping false).config.failFast = false := lenient
      rw [pull_of_goOn stepped',
        reads.pull_eq lenient' silent (status_of_goOn lenient' stepped')]
      exact ih ⟨consistent, alike⟩ foundLater

/-- The readers of the two runs are twins. -/
theorem twins_skipping (lenient : setup.config.failFast = false) (proper : setup.files.IsProper) :
    Twins .unnumbered setup false (EntersFound setup) (LooksThrough setup) :=
  twins_of_alike View.isClear_unnumbered (.inr lenient) (fun same => same.2)
    (fun same one _ alike => ⟨same.1.of_same one.frames one.conditions one.guards, alike⟩)
    fun same found => pull_skipping lenient proper same found

/-- A reader looks like itself where its lexers do. -/
theorem alike_self (sound : ∀ files searchPath, v.answers = some (files, searchPath) →
      r.session.resolver.IsSound files searchPath)
    (same : ∀ frame ∈ r.frames, related frame.lexer frame.lexer) : r.Alike v related r where
  session := by
    obtain ⟨t, shows⟩ := Session.Shows.exists_shows v.spaced r.session sound
    exact ⟨t, shows, shows⟩
  frames := by
    rw [List.forall₂_same]
    intro frame member
    exact ⟨same frame member, rfl, rfl, rfl, rfl, rfl, rfl, rfl, fun _ => rfl⟩
  queued := rfl
  onceFiles := rfl
  guards _ := rfl
  nextFileNumber _ := rfl
  status := rfl
  ending := rfl
  baseFile := rfl

/-- A run that has just opened its main file has read nothing of its files. -/
theorem lexer_openMain {p q : Preprocessor} {source : Except SourceError Source} {path : Text}
    (created : Preprocessor.create setup = .ok p)
    (opening : p.openMain setup source path = .ok q) :
    ∀ frame ∈ q.reader.frames, ∃ source file,
      frame.lexer = .ofSource source file setup.config.language false := by
  have isNew := Preprocessor.isNew_of_create created
  obtain ⟨text, rfl, rfl⟩ := isNew.openMain_eq_ok.mp opening
  unfold Preprocessor.openPreamble
  simp only []
  split
  · simp only [Preprocessor.mainReader, openFrame, isNew.closed, List.mem_singleton, forall_eq]
    exact ⟨_, _, rfl⟩
  · simp only [Preprocessor.mainReader, openFrame, isNew.closed, List.mem_cons, List.not_mem_nil,
      or_false, forall_eq_or_imp, forall_eq]
    exact ⟨⟨_, _, rfl⟩, ⟨_, _, rfl⟩⟩

/-- The reader of such a run looks like itself. -/
theorem looksThrough_openMain {p q : Preprocessor} {source : Except SourceError Source} {path : Text}
    (created : Preprocessor.create setup = .ok p) (opening : p.openMain setup source path = .ok q) :
    q.reader.LooksThrough setup q.reader := by
  refine ⟨consistent_openMain created opening, alike_self (fun _ _ kept => by cases kept) ?_⟩
  intro frame member
  obtain ⟨source, file, start⟩ := lexer_openMain created opening frame member
  rw [start]
  exact Lexer.alike_ofSource source _ rfl

/-- If the headers that a run enters are the ones that it found, it does not matter whether guarded
headers are passed over or read again: the tokens are the same but for the numbers of their files,
and so are the macros. For wherever a file is recorded as guarded by a name that is defined, nothing
would come of reading it again. -/
theorem tokensWithin_skipping {p p' q q' : Preprocessor} {source : Except SourceError Source}
    {path : Text} (created : Preprocessor.create setup = .ok p)
    (created' : Preprocessor.create (setup.skipping false) = .ok p')
    (opening : p.openMain setup source path = .ok q)
    (opening' : p'.openMain (setup.skipping false) source path = .ok q')
    (lenient : setup.config.failFast = false) (proper : setup.files.IsProper)
    (found : ∀ r, q.Passes setup r → r.EntersFound setup) (n : Nat) :
    (q.tokensWithin setup n).1.map (Token.seen .unnumbered)
        = (q'.tokensWithin (setup.skipping false) n).1.map (Token.seen .unnumbered)
      ∧ (q.tokensWithin setup n).2.reader.session.macros.seen .unnumbered
        = (q'.tokensWithin (setup.skipping false) n).2.reader.session.macros.seen .unnumbered
      ∧ ∀ r, q.Passes setup r → r.frames ≠ [] → r.queued = [] →
        r.session.conditions.isLive = true → ∀ header name source,
          (header.canonical, name) ∈ r.guards → r.session.macros.isDefined name = true →
          setup.files.canonical header.path = header.canonical →
          setup.files.readSource header.path setup.config.trigraphs = .ok source →
            r.RereadGivesNothing setup source header := by
  cases Except.ok.inj (created.symm.trans created')
  cases Except.ok.inj (opening.symm.trans opening')
  have twins := (twins_skipping lenient proper).tokensWithin
    ⟨looksThrough_openMain created opening, rfl, View.isClear_unnumbered.speaks _⟩ found
    (fun args _ => View.isClear_unnumbered.speaks args) n
  refine ⟨twins.1, twins.2.2.session.macros, ?_⟩
  intro r passed nonempty idle live header name source recorded defined opened read
  have consistent := (invariant_reachable.passes (.opened created opening) passed).consistent
  exact rereadGivesNothing_of_isGuarded idle live
    (consistent.isGuarded proper nonempty recorded opened read .unknown) defined header

/-! A guarded header that is included twice. -/

/-- The header. -/
def guardedHeader : Text :=
  "#ifndef A\n#define A\ny\n#endif\n".toList

/-- The header is called `a`, and no macros are defined first. -/
def guardedHeaderSetup : Setup where
  config := { standardMacros := false }
  files := { entries := [([['a']], .file guardedHeader)] }

/-- A text that includes the header twice. -/
def includedTwice : Text :=
  "#include \"a\"\n#include \"a\"\nx\n".toList

/-- The run that has opened the text. -/
def includedTwiceRun : Preprocessor where
  reader :=
    { freshRun.reader with
      opened := true
      baseFile := ['m']
      nextFileNumber := 2
      frames := [{
        lexer := .ofSource (.ofDecoded false includedTwice) ⟨['m'], ['m'], 1⟩ .standard false
        path := ['m']
        canonical := guardedHeaderSetup.files.canonical ['m']
        searchIndex := none
        includeDepth := 0
        conditionDepth := 0
        isPreamble := false }] }

theorem includedTwiceRun_walks :
    includedTwiceRun.reader.walks guardedHeaderSetup (entersFound guardedHeaderSetup) 20 = true := by
  decide +kernel

/-- Whether the header is passed over or read again, the tokens and the macros are the same. -/
theorem tokensWithin_skipping_includedTwice :
    (includedTwiceRun.tokensWithin guardedHeaderSetup 3).1.map (Token.seen .unnumbered)
        = (includedTwiceRun.tokensWithin (guardedHeaderSetup.skipping false) 3).1.map
          (Token.seen .unnumbered)
      ∧ (includedTwiceRun.tokensWithin guardedHeaderSetup 3).2.reader.session.macros.seen .unnumbered
        = (includedTwiceRun.tokensWithin (guardedHeaderSetup.skipping false)
          3).2.reader.session.macros.seen .unnumbered := by
  have created : Preprocessor.create guardedHeaderSetup = .ok freshRun := rfl
  have created' : Preprocessor.create (guardedHeaderSetup.skipping false) = .ok freshRun := rfl
  have opening : freshRun.openMain guardedHeaderSetup (.ok (.ofDecoded false includedTwice)) ['m']
      = .ok includedTwiceRun := rfl
  have opening' : freshRun.openMain (guardedHeaderSetup.skipping false)
      (.ok (.ofDecoded false includedTwice)) ['m'] = .ok includedTwiceRun := rfl
  have proper : guardedHeaderSetup.files.IsProper := by
    intro name member
    cases member
  have found (r : Reader) (passed : includedTwiceRun.Passes guardedHeaderSetup r) :
      r.EntersFound guardedHeaderSetup :=
    .of_check (Preprocessor.check_of_passes rfl rfl includedTwiceRun_walks passed)
  have same := tokensWithin_skipping created created' opening opening' rfl proper found 3
  exact ⟨same.1, same.2.1⟩

end Reader

end CPreprocessor
