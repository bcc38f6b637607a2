/-
# What a step does to the open files

A step of reading leaves the open files alone, reads on in the innermost of them, opens a
header on top of them, or closes the innermost one. `Reader.Moves` lists these moves with
what each of them does to the open conditionals, and every step of a consistent reader is
one of them (`Consistent.moves`). What is proved of the open files of a run is proved by
going through the four moves.
-/
import CPreprocessor.Proofs.Guard.Skipping

namespace CPreprocessor

/-- The frame holds the same file, read further. -/
structure Frame.GoesOn (frame next : Frame) : Prop where
  path : next.path = frame.path
  canonical : next.canonical = frame.canonical
  includeDepth : next.includeDepth = frame.includeDepth
  conditionDepth : next.conditionDepth = frame.conditionDepth
  isPreamble : next.isPreamble = frame.isPreamble

theorem Frame.GoesOn.trans {frame next later : Frame} (goes : frame.GoesOn next)
    (more : next.GoesOn later) : frame.GoesOn later where
  path := more.path.trans goes.path
  canonical := more.canonical.trans goes.canonical
  includeDepth := more.includeDepth.trans goes.includeDepth
  conditionDepth := more.conditionDepth.trans goes.conditionDepth
  isPreamble := more.isPreamble.trans goes.isPreamble

namespace Reader

/-- The frame has just been opened, in a place where `conditions` are open. -/
structure Starts (setup : Setup) (conditions : ConditionStack) (frame : Frame) : Prop where
  unread : ∃ source file, frame.lexer = .ofSource source file setup.config.language false
  guard : frame.guard = .unread
  conditionDepth : frame.conditionDepth = conditions.depth

/-- The reader is about to enter a header: its innermost file goes on with a directive that asks for
it. -/
structure AsksFor (setup : Setup) (r : Reader) (frame : Frame) (header : Header) : Prop where
  idle : r.queued = []
  running : r.status ≠ .aborted
  asks : ∃ d rest site s, frame.lexer.item = (.directive d, rest)
    ∧ d.execute setup r.place r.session = (.enter header site, s)

/-- What one step does to the open files and the open conditionals. -/
inductive Moves (setup : Setup) (r next : Reader) : Prop where
  /-- A token that waits is given, or the end. -/
  | stays (frames : next.frames = r.frames)
      (conditions : next.session.conditions = r.session.conditions)
  /-- The innermost file is read on, and only its own conditionals may change. -/
  | goesOn {frame frame' : Frame} {outer : List Frame} {mine mine' rest : List ConditionFrame}
      (isOpen : r.frames = frame :: outer) (frames : next.frames = frame' :: outer)
      (goes : frame.GoesOn frame') (base : rest.length = frame.conditionDepth)
      (before : r.session.conditions.frames = mine ++ rest)
      (after : next.session.conditions.frames = mine' ++ rest)
  /-- A header is opened, which is not open yet and not nested too deeply. -/
  | enters {frame frame' new : Frame} {outer : List Frame} {header : Header}
      (isOpen : r.frames = frame :: outer) (frames : next.frames = new :: frame' :: outer)
      (goes : frame.GoesOn frame') (asks : r.AsksFor setup frame header)
      (fresh : ∀ file ∈ r.frames, file.canonical ≠ header.canonical)
      (starts : Starts setup next.session.conditions new)
      (canonical : new.canonical = setup.files.canonical header.path)
      (deeper : new.includeDepth = frame.includeDepth + 1)
      (allowed : new.includeDepth ≤ setup.config.maxIncludeDepth)
      (conditions : next.session.conditions = r.session.conditions)
  /-- The innermost file is closed, with its conditionals. -/
  | closes {frame : Frame} {outer : List Frame} {mine : List ConditionFrame}
      (isOpen : r.frames = frame :: outer) (frames : next.frames = outer)
      (base : next.session.conditions.depth = frame.conditionDepth)
      (before : r.session.conditions.frames = mine ++ next.session.conditions.frames)

variable {setup : Setup} {r next : Reader} {frame : Frame} {outer : List Frame}

theorem Moves.of_beside {after : Reader} (moves : r.Moves setup next) (beside : next.Beside after) :
    r.Moves setup after := by
  have frames := beside.frames
  have conditions := beside.conditions
  cases moves with
  | stays same kept => exact .stays (frames.trans same) (conditions.trans kept)
  | goesOn isOpen same goes base before now =>
    exact .goesOn isOpen (frames.trans same) goes base before (conditions ▸ now)
  | enters isOpen same goes asks fresh starts canonical deeper allowed kept =>
    exact .enters isOpen (frames.trans same) goes asks fresh (conditions ▸ starts) canonical deeper
      allowed (conditions.trans kept)
  | closes isOpen same base before =>
    exact .closes isOpen (frames.trans same) (conditions ▸ base) (conditions ▸ before)

/-- The conditionals that a file has opened, and the others. -/
theorem Consistent.exists_layer (consistent : r.Consistent setup) (isOpen : r.frames = frame :: outer) :
    ∃ mine rest, r.session.conditions.frames = mine ++ rest ∧ rest.length = frame.conditionDepth
      ∧ Directive.Layer r.place mine rest := by
  have layered := consistent.layered
  rw [isOpen] at layered
  obtain ⟨mine, rest, split, base, here, below, -⟩ := layered
  have place : r.place.includeDepth = frame.includeDepth := by simp only [Reader.place, isOpen]
  exact ⟨mine, rest, split, base, ⟨by rwa [place], by rwa [place]⟩⟩

/-- Entering a header opens it or opens nothing. -/
theorem enter_cases (setup : Setup) (r : Reader) (header : Header) (site : Token) :
    (r.enter setup header site).frames = r.frames
        ∧ (r.enter setup header site).session.conditions = r.session.conditions
      ∨ (∀ file ∈ r.frames, file.canonical ≠ header.canonical)
        ∧ r.place.includeDepth + 1 ≤ setup.config.maxIncludeDepth
        ∧ ∃ source, r.enter setup header site =
            r.openFrame setup source header.path header.path (setup.files.canonical header.path)
              header.searchIndex (r.place.includeDepth + 1) false := by
  unfold Reader.enter
  split
  · exact .inl ⟨rfl, rfl⟩
  · split
    · split <;> exact .inl ⟨rfl, rfl⟩
    · rename_i notOpen
      unfold openHeader
      simp only []
      split
      · exact .inl ⟨rfl, rfl⟩
      · rename_i allowed
        split
        · exact .inl ⟨rfl, rfl⟩
        · exact .inr ⟨(openFile?_eq_none_iff header).mp notOpen, Nat.not_lt.mp allowed, _, rfl⟩

/-- A directive reads on in its file, or opens a header. -/
theorem Consistent.moves_afterDirective (consistent : r.Consistent setup)
    (isOpen : r.frames = frame :: outer) (idle : r.queued = []) (running : r.status ≠ .aborted)
    {d : Directive} {rest : Lexer} (here : frame.lexer.item = (.directive d, rest)) :
    r.Moves setup (r.afterDirective setup { frame with lexer := rest } outer d) := by
  obtain ⟨mine, below, before, base, layer⟩ := consistent.exists_layer isOpen
  obtain ⟨mine', -, -, after⟩ := d.exists_conditions_execute setup layer before
  unfold Reader.afterDirective
  refine Moves.of_beside ?_ (beside_checkAbort setup _)
  cases asked : (d.execute setup r.place r.session).1 with
  | nothing => exact .goesOn isOpen rfl ⟨rfl, rfl, rfl, rfl, rfl⟩ base before after
  | pass => exact .goesOn isOpen rfl ⟨rfl, rfl, rfl, rfl, rfl⟩ base before after
  | once => exact .goesOn isOpen rfl ⟨rfl, rfl, rfl, rfl, rfl⟩ base before after
  | present line name => exact .goesOn isOpen rfl ⟨rfl, rfl, rfl, rfl, rfl⟩ base before after
  | enter header site =>
    have executed : d.execute setup r.place r.session
        = (.enter header site, (d.execute setup r.place r.session).2) := Prod.ext asked rfl
    have kept := (live_of_enter executed).2
    simp only [act]
    obtain ⟨same, conditions⟩ | ⟨fresh, allowed, source, opened⟩ := enter_cases setup
      (r.entering frame outer d rest (d.execute setup r.place r.session).2) header site
    · exact .goesOn isOpen same ⟨rfl, rfl, rfl, rfl, rfl⟩ base before
        ((congrArg ConditionStack.frames conditions).trans after)
    · have place : (r.entering frame outer d rest
          (d.execute setup r.place r.session).2).place.includeDepth = frame.includeDepth := rfl
      have notOpen : ∀ file ∈ r.frames, file.canonical ≠ header.canonical := by
        rw [isOpen]
        intro file member
        obtain rfl | member := List.mem_cons.mp member
        · have top := fresh _ List.mem_cons_self
          exact top
        · exact fresh file (List.mem_cons_of_mem _ member)
      rw [place] at allowed opened
      have entered : (r.entering frame outer d rest
          (d.execute setup r.place r.session).2).enter setup header site = _ := opened
      simp only [entering] at entered
      rw [entered]
      exact .enters isOpen rfl ⟨rfl, rfl, rfl, rfl, rfl⟩
        ⟨idle, running, d, rest, site, _, here, executed⟩ notOpen ⟨⟨_, _, rfl⟩, rfl, rfl⟩ rfl rfl allowed
        kept

/-- Reading an item of the innermost file is one of the moves. -/
theorem Consistent.moves_readToken (consistent : r.Consistent setup)
    (isOpen : r.frames = frame :: outer) (idle : r.queued = []) (running : r.status ≠ .aborted)
    {token : Token} (read : r.readToken setup frame outer = .give token next
      ∨ r.readToken setup frame outer = .goOn next) : r.Moves setup next := by
  obtain ⟨mine, below, before, base, -⟩ := consistent.exists_layer isOpen
  rw [readToken_eq] at read
  split at read
  · rename_i final rest finish
    obtain read | read := read <;> cases read
    have reported : (if r.session.conditions.isLive then r.reportSpelling setup final.1
        else r).session.conditions.frames = mine ++ below := by
      split
      · rw [conditions_reportSpelling]
        exact before
      · exact before
    have closed : (r.closeFile setup { frame with lexer := rest } outer final).session.conditions
        = ⟨below⟩ := conditions_closeConditions _ reported base
    exact .closes isOpen rfl (by rw [closed]; exact base) (by rw [closed]; exact before)
  · rename_i d rest here
    obtain read | read := read <;> cases read
    exact consistent.moves_afterDirective isOpen idle running here
  · rename_i given rest here
    split at read
    · obtain read | read := read <;> cases read
      exact .goesOn isOpen (frames_reportSpelling _) ⟨rfl, rfl, rfl, rfl, rfl⟩ base before
        ((congrArg ConditionStack.frames (conditions_reportSpelling _ _)).trans before)
    · obtain read | read := read <;> cases read
      exact .goesOn isOpen rfl ⟨rfl, rfl, rfl, rfl, rfl⟩ base before before

/-- Every step of a consistent reader is one of the moves. -/
theorem Consistent.moves (consistent : r.Consistent setup) {token : Token}
    (stepped : r.step setup = .give token next ∨ r.step setup = .goOn next) : r.Moves setup next := by
  unfold Reader.step at stepped
  split at stepped
  · obtain stepped | stepped := stepped <;> cases stepped
    exact .stays rfl rfl
  · obtain stepped | stepped := stepped <;> cases stepped
    have same := beside_finish r
    exact .stays same.frames same.conditions
  · rename_i frame outer idle isOpen
    split at stepped
    · obtain stepped | stepped := stepped <;> cases stepped
      have same := beside_finish r
      exact .stays same.frames same.conditions
    · rename_i running
      exact consistent.moves_readToken isOpen idle running stepped

/-! ## Runs of moves -/

/-- The run comes from the first reader to the second one. -/
inductive Leads (setup : Setup) (r : Reader) : Reader → Prop where
  | refl : Leads setup r r
  | step {here next : Reader} {token : Token} (leads : Leads setup r here)
      (stepped : here.step setup = .give token next ∨ here.step setup = .goOn next) :
      Leads setup r next
  | beside {here next : Reader} (leads : Leads setup r here) (beside : here.Beside next) :
      Leads setup r next

/-- The reader after some steps. -/
def after (setup : Setup) : Nat → Reader → Reader
  | 0, r => r
  | n + 1, r =>
    match r.step setup with
    | .give _ next => after setup n next
    | .goOn next => after setup n next

theorem Reachable.after (reachable : r.Reachable setup) (n : Nat) :
    (r.after setup n).Reachable setup := by
  induction n generalizing r with
  | zero => exact reachable
  | succ n ih =>
    unfold Reader.after
    split
    · rename_i stepped
      exact ih (.step reachable (.inl stepped))
    · rename_i stepped
      exact ih (@Reachable.step _ _ _ .endOfNothing reachable (.inr stepped))

/-! ## The start of a run -/

/-- A run starts with its main file open, and with the preamble on top of it if there is one. -/
theorem frames_openMain {p q : Preprocessor} {source : Except SourceError Source} {path : Text}
    (created : Preprocessor.create setup = .ok p)
    (opening : p.openMain setup source path = .ok q) :
    ∃ main, Starts setup q.reader.session.conditions main ∧ main.includeDepth = 0
      ∧ (q.reader.frames = [main]
        ∨ ∃ preamble, Starts setup q.reader.session.conditions preamble
          ∧ preamble.includeDepth = 0 ∧ preamble.isPreamble = true
          ∧ q.reader.frames = [preamble, main]) := by
  have isNew := Preprocessor.isNew_of_create created
  obtain ⟨text, rfl, rfl⟩ := isNew.openMain_eq_ok.mp opening
  unfold Preprocessor.openPreamble
  simp only []
  split
  · exact ⟨_, ⟨⟨_, _, rfl⟩, rfl, rfl⟩, rfl,
      .inl (by simp only [Preprocessor.mainReader, openFrame, isNew.closed]; rfl)⟩
  · exact ⟨_, ⟨⟨_, _, rfl⟩, rfl, rfl⟩, rfl,
      .inr ⟨_, ⟨⟨_, _, rfl⟩, rfl, rfl⟩, rfl, rfl,
        by simp only [Preprocessor.mainReader, openFrame, isNew.closed]; rfl⟩⟩

end Reader

end CPreprocessor
