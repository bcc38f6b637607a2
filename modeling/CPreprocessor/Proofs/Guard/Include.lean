/-
# Including a file that is open

An include of a header that is open is reported, or nothing is read for it. The second
is justified by the guard of the header, since a guarded file gives nothing where its
guard is defined. `include_open_file` says how far this goes: a guard that was recorded
at the end of a file stands around the whole file, but of the guard of an open file only
the lines so far are known, so the justification holds if the rest of the file keeps to
that guard.
-/
import CPreprocessor.Proofs.Guard.Readers
import CPreprocessor.Proofs.Guard.Reread
import CPreprocessor.Proofs.Run.Invariant
import CPreprocessor.Proofs.Run.Opening

namespace CPreprocessor.Reader

variable {setup : Setup}

/-- The readers that runs go through: from the opening of a main file, by steps of reading and by what
is done between them. -/
inductive Reachable (setup : Setup) : Reader → Prop where
  | opened {p q : Preprocessor} {source : Except SourceError Source} {path : Text}
      (created : Preprocessor.create setup = .ok p)
      (opening : p.openMain setup source path = .ok q) : Reachable setup q.reader
  | step {r next : Reader} {token : Token} (reachable : Reachable setup r)
      (stepped : r.step setup = .give token next ∨ r.step setup = .goOn next) :
      Reachable setup next
  | beside {r next : Reader} (reachable : Reachable setup r) (beside : r.Beside next) :
      Reachable setup next

theorem invariant_reachable : Invariant setup (Reachable setup) :=
  ⟨fun _ reachable stepped => .step reachable stepped,
    fun reachable between => .beside reachable between.toBeside⟩

/-- The reader after any number of tokens of a run is reachable. -/
theorem reachable_tokensWithin {p q : Preprocessor} {source : Except SourceError Source}
    {path : Text} (created : Preprocessor.create setup = .ok p)
    (opening : p.openMain setup source path = .ok q) (n : Nat) :
    (q.tokensWithin setup n).2.reader.Reachable setup :=
  invariant_reachable.tokensWithin (.opened created opening) n

/-- A reader that has just opened its main file is consistent. -/
theorem consistent_openMain {p q : Preprocessor} {source : Except SourceError Source}
    {path : Text} (created : Preprocessor.create setup = .ok p)
    (opening : p.openMain setup source path = .ok q) : q.reader.Consistent setup := by
  have isNew := Preprocessor.isNew_of_create created
  have frames := isNew.closed
  have guards := isNew.unguarded
  have conditions := isNew.unconditional
  obtain ⟨text, rfl, rfl⟩ := isNew.openMain_eq_ok.mp opening
  -- Both the main file and the preamble are opened before any conditional is.
  have layered (frame : Frame) (outer : List Frame) (followed : frame.IsFollowed 0)
      (base : frame.conditionDepth = 0) (others : Layered outer []) :
      Layered (frame :: outer) [] :=
    ⟨[], [], rfl, base.symm, by simp, by simp, rfl, followed, others⟩
  have started (frame : Frame) (source : Source) (file : FileRef)
      (start : frame.lexer = .ofSource source file setup.config.language false)
      (unread : frame.guard = .unread) (base : frame.conditionDepth = 0) :
      frame.IsFollowed 0 := by
    have followed := Frame.isFollowed_of_start start unread
    rwa [base] at followed
  have depth : p.reader.session.conditions.depth = 0 := by rw [conditions]; rfl
  have noFrames : p.reader.session.conditions.frames = [] := by rw [conditions]
  unfold Preprocessor.openPreamble
  simp only []
  split
  · refine ⟨?_, ?_, ?_, ?_⟩
    · simp only [Preprocessor.mainReader, openFrame, frames, noFrames]
      exact layered _ _ (started _ _ _ rfl rfl depth) depth rfl
    · simp only [Preprocessor.mainReader, openFrame, frames, List.mem_singleton]
      rintro frame rfl
      rfl
    · simp [Preprocessor.mainReader, openFrame, frames]
    · simp [Preprocessor.mainReader, openFrame, guards]
  · refine ⟨?_, ?_, ?_, ?_⟩
    · simp only [Preprocessor.mainReader, openFrame, frames, noFrames]
      exact layered _ _ (started _ _ _ rfl rfl depth) depth
        (layered _ _ (started _ _ _ rfl rfl depth) depth rfl)
    · simp only [Preprocessor.mainReader, openFrame, frames, List.mem_cons, List.not_mem_nil, or_false]
      rintro frame (rfl | rfl) <;> rfl
    · simp only [Preprocessor.mainReader, openFrame, frames]
      rintro frame member notPreamble
      simp only [List.dropLast_cons_of_ne_nil (List.cons_ne_nil _ _), List.dropLast_singleton,
        List.mem_singleton] at member
      rw [member] at notPreamble
      cases notPreamble
    · simp [Preprocessor.mainReader, openFrame, guards]

/-- The guard of every open file is what its lines so far say. -/
theorem Consistent.exists_followed {r : Reader} (consistent : r.Consistent setup) {file : Frame}
    (member : file ∈ r.frames) : ∃ depth, file.IsFollowed depth := by
  have layered := consistent.layered
  generalize r.session.conditions.frames = conditions at layered
  generalize r.frames = frames at member layered
  induction frames generalizing conditions with
  | nil => cases member
  | cons frame outer ih =>
    obtain ⟨mine, rest, -, -, -, -, -, followed, others⟩ := layered
    obtain rfl | later := List.mem_cons.mp member
    · exact ⟨_, followed⟩
    · exact ih rest later others

theorem Reachable.consistent {r : Reader} (reachable : r.Reachable setup) : r.Consistent setup := by
  induction reachable with
  | opened created opening => exact consistent_openMain created opening
  | step reachable stepped ih => exact ih.step stepped
  | beside reachable beside ih => exact ih.of_same beside.frames beside.conditions beside.guards

theorem mem_of_lookup {entries : List (Text × Text)} {key value : Text}
    (found : entries.lookup key = some value) : (key, value) ∈ entries := by
  obtain ⟨before, after, rfl, -⟩ := List.lookup_eq_some_iff.mp found
  simp

/-- If a text is read again as a header, no token comes of it and no other file is opened, and
afterwards the open files, the open conditionals and the macros are the same. -/
def RereadGivesNothing (setup : Setup) (r : Reader) (source : Source) (header : Header) : Prop :=
  ∃ events last,
    (r.openFrame setup source header.path header.path (setup.files.canonical header.path)
      header.searchIndex (r.place.includeDepth + 1) false).Reads setup events last
    ∧ events.filterMap Event.token? = []
    ∧ last.frames = r.frames
    ∧ last.session.conditions = r.session.conditions
    ∧ last.session.macros = r.session.macros
    ∧ last.nextFileNumber = r.nextFileNumber + 1

theorem rereadGivesNothing_of_isGuarded {r : Reader} {source : Source} {file : FileRef} {name : Text}
    (idle : r.queued = []) (live : r.session.conditions.isLive = true)
    (guarded : (Lexer.ofSource source file setup.config.language false).IsGuarded name)
    (defined : r.session.macros.isDefined name = true) (header : Header) :
    r.RereadGivesNothing setup source header := by
  obtain ⟨events, journal, guards, status, ending, reads, silent, -⟩ :=
    reads_of_isGuarded setup
      (r.openFrame setup source header.path header.path
        (setup.files.canonical header.path) header.searchIndex (r.place.includeDepth + 1) false)
      rfl idle live rfl (guarded.of_alike (v := .blind) (Lexer.alike_ofSource _ _ rfl)) defined
  exact ⟨events, _, reads, silent, rfl, rfl, rfl, rfl⟩

/-- A live include finds a header that is open and not marked to be read once. Then the include is
reported as a cycle; or nothing is read, and a name is defined that is the guard of the whole header
as it was read before, or of the lines of the header so far. In the first case reading the header
again would give no token and change no macro; in the second case this is so if the header turns out
to be guarded. -/
theorem include_open_file {r : Reader} {frame : Frame} {outer : List Frame} {d : Directive}
    {rest : Lexer} {header : Header} {site : Token} {s : Session} {file : Frame}
    (reachable : r.Reachable setup) (isOpen : r.frames = frame :: outer) (idle : r.queued = [])
    (here : frame.lexer.item = (.directive d, rest))
    (asked : d.execute setup r.place r.session = (.enter header site, s))
    (current : file ∈ r.frames) (same : file.canonical = header.canonical)
    (notOnce : header.canonical ∉ r.onceFiles) :
    let guard := frame.guard.afterDirective d r.session.conditions.depth s.conditions.depth
    let entering :=
      { r with session := s, frames := { frame with lexer := rest, guard } :: outer }
    let next := r.afterDirective setup { frame with lexer := rest } outer d
    next = (entering.report site .includeCycle header.path).checkAbort setup
      ∨ next = entering.checkAbort setup
        ∧ ((∃ path source, setup.files.canonical path = header.canonical
              ∧ setup.files.readSource path setup.config.trigraphs = .ok source
              ∧ entering.RereadGivesNothing setup source header)
          ∨ ∃ current ∈ entering.frames, ∃ name, current.canonical = header.canonical
              ∧ current.guard.name? = some name ∧ s.macros.isDefined name = true
              ∧ ∀ whole, (Lexer.ofSource current.lexer.source current.lexer.file
                    setup.config.language false).IsGuarded whole →
                  entering.RereadGivesNothing setup current.lexer.source header) := by
  intro guard entering next
  have consistent := reachable.consistent
  obtain ⟨live, conditions⟩ := live_of_enter asked
  have enteringLive : entering.session.conditions.isLive = true := by
    show s.conditions.isLive = true
    rw [conditions]
    exact live
  have moved : entering.Consistent setup := by
    have wentOn := consistent.goOnAfter isOpen here (.inl rfl)
    rw [asked] at wentOn
    exact wentOn
  have enteringIdle : entering.queued = [] := idle
  have entered : next = (entering.enter setup header site).checkAbort setup := by
    simp only [next, afterDirective, asked, act]
    rfl
  have stillOpen : ∃ current ∈ entering.frames, current.canonical = header.canonical := by
    rw [isOpen] at current
    obtain rfl | member := List.mem_cons.mp current
    · exact ⟨_, List.mem_cons_self, same⟩
    · exact ⟨file, List.mem_cons_of_mem _ member, same⟩
  rw [entered, Reader.enter]
  by_cases settled : entering.isSettled setup header = true
  · -- A guard of the header was recorded.
    rw [if_pos settled]
    refine .inr ⟨rfl, .inl ?_⟩
    have isGuarded : (entering.guards.lookup header.canonical).any entering.session.macros.isDefined
        = true := by
      have notMarked : entering.onceFiles.contains header.canonical = false := by
        simpa using notOnce
      rw [isSettled, notMarked, Bool.false_or, Bool.and_eq_true] at settled
      exact settled.2
    obtain ⟨name, lookup, defined⟩ := (Option.any_eq_true _ _).mp isGuarded
    obtain ⟨path, source, canonical, read, guarded⟩ :=
      moved.recorded (List.cons_ne_nil _ _) _ (mem_of_lookup lookup)
    exact ⟨path, source, canonical, read,
      rereadGivesNothing_of_isGuarded enteringIdle enteringLive (guarded .unknown) defined header⟩
  · rw [if_neg settled]
    cases found : entering.openFile? header with
    | none =>
      obtain ⟨current, member, same⟩ := stillOpen
      have absent := List.find?_eq_none.mp found current (List.mem_reverse.mpr member)
      simp [same] at absent
    | some current =>
      simp only []
      have member : current ∈ entering.frames :=
        List.mem_reverse.mp (List.mem_of_find?_eq_some found)
      have isHeader : current.canonical = header.canonical := by
        simpa using List.find?_some found
      split
      · rename_i defined
        refine .inr ⟨rfl, .inr ⟨current, member, ?_⟩⟩
        obtain ⟨name, soFar, defined⟩ := (Option.any_eq_true _ _).mp defined
        refine ⟨name, isHeader, soFar, defined, fun whole guarded => ?_⟩
        obtain ⟨depth, followed⟩ := moved.exists_followed member
        have known : name = whole := followed.name_of_isGuarded (by
          rw [moved.language current member]
          exact guarded) soFar
        exact rereadGivesNothing_of_isGuarded enteringIdle enteringLive guarded (known ▸ defined) header
      · exact .inl rfl

/-! A file that includes itself, without a guard. -/

/-- The text of the file. -/
def selfIncluding : Text :=
  "#include \"m\"\n".toList

/-- The file is called `m`, and no macros are defined first. -/
def selfIncludingSetup : Setup where
  config := { standardMacros := false }
  files := { entries := [([['m']], .file selfIncluding)] }

/-- A run before its main file is opened. -/
def freshRun : Preprocessor where
  reader :=
    { session :=
        { macros := MacroTable.addBuiltins {}
          resolver := { searchPath := [], cache := { capacity := 256, capacity_pos := by decide } } } }

/-- The frame of the file at its start. -/
def selfIncludingFrame : Frame where
  lexer := .ofSource (.ofDecoded false selfIncluding) ⟨['m'], ['m'], 1⟩ .standard false
  path := ['m']
  canonical := selfIncludingSetup.files.canonical ['m']
  searchIndex := none
  includeDepth := 0
  conditionDepth := 0
  isPreamble := false

/-- The reader that has opened the file. -/
def selfIncludingReader : Reader :=
  { freshRun.reader with
    opened := true, baseFile := ['m'], frames := [selfIncludingFrame], nextFileNumber := 2 }

/-- The first line of the file. -/
def selfIncludingLine : Directive :=
  (selfIncludingFrame.lexer.next.2.directive selfIncludingFrame.lexer.next.1).1

theorem selfIncludingReader_reachable :
    selfIncludingReader.Reachable selfIncludingSetup :=
  have opening : freshRun.openMain selfIncludingSetup (.ok (.ofDecoded false selfIncluding)) ['m']
      = .ok { freshRun with reader := selfIncludingReader } := rfl
  have created : Preprocessor.create selfIncludingSetup = .ok freshRun := rfl
  .opened created opening

/-- The action asks for the header that the file itself is. -/
def entersSelf : Action → Bool
  | .enter header _ => header.canonical = selfIncludingFrame.canonical
  | _ => false

theorem selfIncludingLine_facts :
    startsDirective selfIncludingFrame.lexer.next.1 = true
      ∧ selfIncludingFrame.lexer.next.1.isEnd = false
      ∧ entersSelf (selfIncludingLine.execute selfIncludingSetup selfIncludingReader.place
          selfIncludingReader.session).1 = true := by
  decide +kernel

/-- The include of the file in itself is reported, or nothing is read for it. -/
theorem include_open_file_self :
    ∃ header site s guard rest,
      selfIncludingLine.execute selfIncludingSetup selfIncludingReader.place
          selfIncludingReader.session = (.enter header site, s)
      ∧ let entering : Reader :=
          { selfIncludingReader with
            session := s, frames := [{ selfIncludingFrame with lexer := rest, guard }] }
        let next := selfIncludingReader.afterDirective selfIncludingSetup
          { selfIncludingFrame with lexer := rest } [] selfIncludingLine
        next = (entering.report site .includeCycle header.path).checkAbort selfIncludingSetup
          ∨ next = entering.checkAbort selfIncludingSetup := by
  obtain ⟨starts, more, asks⟩ := selfIncludingLine_facts
  cases asked : selfIncludingLine.execute selfIncludingSetup selfIncludingReader.place
    selfIncludingReader.session with
  | mk action s =>
    rw [asked] at asks
    cases action with
    | enter header site =>
      have isSelf : header.canonical = selfIncludingFrame.canonical := by
        simpa [entersSelf] using asks
      have included := include_open_file
        selfIncludingReader_reachable rfl rfl (Lexer.item_of_startsDirective more starts) asked
        List.mem_cons_self isSelf.symm List.not_mem_nil
      refine ⟨header, site, s,
        selfIncludingFrame.guard.afterDirective selfIncludingLine
          selfIncludingReader.session.conditions.depth s.conditions.depth,
        (selfIncludingFrame.lexer.next.2.directive selfIncludingFrame.lexer.next.1).2, rfl, ?_⟩
      obtain reported | ⟨dropped, -⟩ := included
      · exact .inl reported
      · exact .inr dropped
    | nothing => cases asks
    | present line name => cases asks
    | pass => cases asks
    | once => cases asks

end CPreprocessor.Reader
