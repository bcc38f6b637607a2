/-
# A file does not disturb the conditionals around it

Whatever a file and its headers hold, the conditionals that were open when it was opened
stay as they are until it is closed, and then they are the ones that are open. The step
lemma is `Moves.keeps`: a move changes only conditionals that the innermost file has
opened itself, and every file that is open below has found fewer of them. The run lemma
is `Reachable.exists_opened`, which goes back to where a file was opened. An `#endif`,
`#else` or `#elif` without a conditional of its own file is reported once, and so is each
conditional that a file leaves open.
-/
import CPreprocessor.Proofs.Include.Nesting
import Mathlib.Data.List.Infix

namespace CPreprocessor

namespace Reader

variable {setup : Setup} {r next : Reader} {frame : Frame} {outer : List Frame}

/-! ## Conditionals below a file -/

/-- A file has found no fewer conditionals open than the files that include it. -/
theorem Layered.conditionDepth_le {conditions : List ConditionFrame}
    (layered : Layered (frame :: outer) conditions) {file : Frame} (member : file ∈ frame :: outer) :
    file.conditionDepth ≤ frame.conditionDepth := by
  induction outer generalizing frame conditions with
  | nil => rw [List.mem_singleton.mp member]
  | cons includer outer ih =>
    obtain ⟨-, rest, -, base, -, -, -, -, others⟩ := layered
    obtain ⟨mine, below, split, base', -⟩ := id others
    have fewer : includer.conditionDepth ≤ frame.conditionDepth := by
      rw [← base, ← base', split, List.length_append]
      exact Nat.le_add_left _ _
    obtain rfl | later := List.mem_cons.mp member
    · exact Nat.le_refl _
    · exact Nat.le_trans (ih others later) fewer

/-- A move keeps the conditionals that were open before the innermost file was opened. -/
theorem Moves.keeps (moves : r.Moves setup next) {base : List ConditionFrame}
    (kept : base <:+ r.session.conditions.frames)
    (below : ∀ frame outer, r.frames = frame :: outer → base.length ≤ frame.conditionDepth) :
    base <:+ next.session.conditions.frames := by
  cases moves with
  | stays same conditions => rwa [conditions]
  | enters isOpen same goes asks fresh starts canonical deeper allowed conditions => rwa [conditions]
  | @goesOn frame frame' outer mine mine' rest isOpen same goes length before after =>
    rw [before] at kept
    rw [after]
    have inRest : base <:+ rest :=
      List.suffix_of_suffix_length_le kept (List.suffix_append _ _)
        (length ▸ below frame outer isOpen)
    exact inRest.trans (List.suffix_append _ _)
  | @closes frame outer mine isOpen same length before =>
    rw [before] at kept
    refine List.suffix_of_suffix_length_le kept (List.suffix_append _ _) ?_
    have fits := below frame outer isOpen
    rwa [← length] at fits

/-! ## From the opening of a file on -/

/-- The run comes from the first reader to the second one, and at all times more files than `outer`
have been open. -/
inductive StaysAbove (setup : Setup) (outer : List Frame) (opened : Reader) : Reader → Prop where
  | here (isOpen : outer.length < opened.frames.length) : StaysAbove setup outer opened opened
  | step {r next : Reader} {token : Token} (stays : StaysAbove setup outer opened r)
      (stepped : r.step setup = .give token next ∨ r.step setup = .goOn next)
      (isOpen : outer.length < next.frames.length) : StaysAbove setup outer opened next
  | beside {r next : Reader} (stays : StaysAbove setup outer opened r) (beside : r.Beside next) :
      StaysAbove setup outer opened next

/-- The file in the frame on top of `outer` was opened in the reader `opened`, and has been open
since then. -/
structure OpenSince (setup : Setup) (opened r : Reader) (frame : Frame) (outer : List Frame) :
    Prop where
  reachable : opened.Reachable setup
  stays : StaysAbove setup outer opened r
  starts : ∃ inner first, opened.frames = inner ++ first :: outer
    ∧ Starts setup opened.session.conditions first ∧ first.GoesOn frame

theorem OpenSince.conditionDepth {opened : Reader} (since : OpenSince setup opened r frame outer) :
    frame.conditionDepth = opened.session.conditions.depth := by
  obtain ⟨inner, first, -, starts, goes⟩ := since.starts
  exact goes.conditionDepth.trans starts.conditionDepth

theorem OpenSince.goesOn {opened : Reader} {frame' : Frame}
    (since : OpenSince setup opened r frame outer) (goes : frame.GoesOn frame') :
    OpenSince setup opened r frame' outer := by
  obtain ⟨inner, first, isOpen, starts, went⟩ := since.starts
  exact ⟨since.reachable, since.stays, inner, first, isOpen, starts, went.trans goes⟩

/-- A file has just been opened. -/
theorem OpenSince.here (reachable : r.Reachable setup) {inner : List Frame}
    (isOpen : r.frames = inner ++ frame :: outer) (starts : Starts setup r.session.conditions frame) :
    OpenSince setup r r frame outer :=
  ⟨reachable, .here (by rw [isOpen, List.length_append, List.length_cons]; omega), inner, frame,
    isOpen, starts, ⟨rfl, rfl, rfl, rfl, rfl⟩⟩

/-- The files that are open after a move were open before, or one of them is a header that has just
been opened. -/
theorem Moves.cases_frames (moves : r.Moves setup next) {inner : List Frame}
    (isOpen : next.frames = inner ++ frame :: outer) :
    (∃ inner' frame', r.frames = inner' ++ frame' :: outer ∧ frame'.GoesOn frame)
      ∨ Starts setup next.session.conditions frame
        ∧ next.session.conditions = r.session.conditions := by
  have same : frame.GoesOn frame := ⟨rfl, rfl, rfl, rfl, rfl⟩
  cases moves with
  | stays frames => exact .inl ⟨inner, frame, frames.symm.trans isOpen, same⟩
  | closes was frames =>
    rw [frames] at isOpen
    exact .inl ⟨_ :: inner, frame, by rw [was, isOpen, List.cons_append], same⟩
  | goesOn was frames goes =>
    rw [frames] at isOpen
    cases inner with
    | nil =>
      obtain ⟨rfl, rfl⟩ := List.cons.inj isOpen
      exact .inl ⟨[], _, was, goes⟩
    | cons top inner =>
      obtain ⟨-, rfl⟩ := List.cons.inj isOpen
      exact .inl ⟨_ :: inner, frame, was, same⟩
  | enters was frames goes asks fresh starts canonical deeper allowed conditions =>
    rw [frames] at isOpen
    cases inner with
    | nil =>
      obtain ⟨rfl, rfl⟩ := List.cons.inj isOpen
      exact .inr ⟨starts, conditions⟩
    | cons new inner =>
      obtain ⟨-, rest⟩ := List.cons.inj isOpen
      cases inner with
      | nil =>
        obtain ⟨rfl, rfl⟩ := List.cons.inj rest
        exact .inl ⟨[], _, was, goes⟩
      | cons top inner =>
        obtain ⟨-, rfl⟩ := List.cons.inj rest
        exact .inl ⟨_ :: inner, frame, was, same⟩

/-- A file that is open was opened at some time, and the conditionals that were open then have stayed
as they were. -/
theorem Reachable.exists_opened (reachable : r.Reachable setup) {inner : List Frame}
    (isOpen : r.frames = inner ++ frame :: outer) :
    ∃ opened, OpenSince setup opened r frame outer
      ∧ opened.session.conditions.frames <:+ r.session.conditions.frames := by
  induction reachable generalizing inner frame outer with
  | @opened p q source path created opening =>
    have starts : Starts setup q.reader.session.conditions frame := by
      have member : frame ∈ q.reader.frames := by rw [isOpen]; simp
      obtain ⟨main, starts, -, alone | ⟨preamble, starts', -, -, both⟩⟩ :=
        frames_openMain created opening
      · rw [alone, List.mem_singleton] at member
        rwa [member]
      · rw [both, List.mem_cons, List.mem_singleton] at member
        obtain rfl | rfl := member
        · exact starts'
        · exact starts
    exact ⟨q.reader, .here (.opened created opening) isOpen starts, List.suffix_refl _⟩
  | @step r next token reachable stepped ih =>
    have moves := reachable.consistent.moves stepped
    obtain ⟨inner', frame', was, goes⟩ | ⟨starts, conditions⟩ := moves.cases_frames isOpen
    · obtain ⟨opened, since, kept⟩ := ih was
      have stillOpen : outer.length < next.frames.length := by
        rw [isOpen, List.length_append, List.length_cons]
        omega
      refine ⟨opened, { (since.goesOn goes) with stays := .step since.stays stepped stillOpen },
        moves.keeps kept ?_⟩
      intro top below isTop
      have layered := reachable.consistent.layered
      have member : frame' ∈ r.frames := by rw [was]; simp
      rw [isTop] at layered member
      have fewer := layered.conditionDepth_le member
      rwa [since.conditionDepth] at fewer
    · exact ⟨next, .here (.step reachable stepped) isOpen starts, List.suffix_refl _⟩
  | @beside r next reachable beside ih =>
    obtain ⟨opened, since, kept⟩ := ih (beside.frames ▸ isOpen)
    refine ⟨opened, { since with stays := .beside since.stays beside }, ?_⟩
    rwa [beside.conditions]

end Reader

/-! ## Reports -/

/-- The diagnostic of a token with the default severity of the problem. -/
def Journal.diagnoseAt (journal : Journal) (token : Token) (code : Code) (detail : Text) : Diagnostic :=
  journal.diagnose code.severity code token.file.shown token.line token.column detail

theorem Session.entries_report (s : Session) (token : Token) (code : Code) (detail : Text) :
    (s.report token code detail).journal.entries
      = s.journal.entries ++ [s.journal.diagnoseAt token code detail] := rfl

namespace Directive

/-- The directive goes on with a conditional or closes it. -/
def needsOpen (d : Directive) : Bool :=
  d.kind.goesOn || d.kind = .elseBranch || d.kind = .endif

/-- What is reported about the directive where no conditional is open. -/
def mismatch (d : Directive) : Code × Text :=
  if d.kind = .endif then (.mismatchedEndif, []) else (.mismatchedElse, d.title)

/-- A directive without its conditional is reported, and nothing else happens. -/
theorem execute_of_unmatched {d : Directive} (setup : Setup) {place : Place} {s : Session}
    (needs : d.needsOpen = true) (unmatched : present? place s = none) :
    d.execute setup place s = (.nothing, s.report d.hash d.mismatch.1 d.mismatch.2) := by
  have conditional : d.kind.isConditional = true := by
    cases kind : d.kind <;> simp_all [needsOpen, DirectiveKind.goesOn, DirectiveKind.isConditional]
  have notAsked : d.asks place s = false := by
    cases kind : d.kind <;>
      simp_all [asks, needsOpen, DirectiveKind.goesOn]
  rw [execute_of_isConditional _ _ _ _ conditional, notAsked]
  cases kind : d.kind <;> simp_all [needsOpen, DirectiveKind.goesOn, mismatch, turn, enterBranch,
    enterLast, closeCondition]

end Directive

namespace Reader

variable {setup : Setup} {r next : Reader} {frame : Frame} {outer : List Frame}

/-- The diagnostics of conditionals that a file leaves open. -/
def unterminated (journal : Journal) (conditions : List ConditionFrame) : List Diagnostic :=
  conditions.map fun c => journal.diagnoseAt c.opener .unterminatedCondition []

/-- Each conditional that a file leaves open is reported once, the outermost first. -/
theorem entries_closeConditions (frame : Frame) {s : Session} {mine rest : List ConditionFrame}
    (split : s.conditions.frames = mine ++ rest) (base : rest.length = frame.conditionDepth) :
    (closeConditions frame s).journal.entries
      = s.journal.entries ++ unterminated s.journal mine.reverse := by
  have reported (unclosed : List ConditionFrame) (t : Session) :
      (unclosed.foldl (fun s c => s.report c.opener .unterminatedCondition []) t).journal.entries
        = t.journal.entries ++ unterminated t.journal unclosed := by
    induction unclosed generalizing t with
    | nil => simp [unterminated]
    | cons c more ih =>
      rw [List.foldl_cons, ih, Session.entries_report, List.append_assoc]
      rfl
  simp only [closeConditions, ConditionStack.popAbove, ConditionStack.depth, split,
    List.length_append, base, Nat.add_sub_cancel, List.take_left]
  exact reported _ _

/-- The session at the end of a file, whose last token may be misspelt. -/
def atEnd (r : Reader) (final : Token) : Session :=
  if r.session.conditions.isLive then r.session.reportSpelling final else r.session

theorem session_atEnd (setup : Setup) (r : Reader) (final : Token) :
    (if r.session.conditions.isLive then r.reportSpelling setup final else r).session
      = r.atEnd final := by
  unfold atEnd
  split
  · obtain ⟨status, same⟩ := exists_reportSpelling setup r final
    rw [same]
  · rfl

theorem conditions_atEnd (r : Reader) (final : Token) :
    (r.atEnd final).conditions = r.session.conditions := by
  unfold atEnd
  split
  · unfold Session.reportSpelling
    split <;> rfl
  · rfl

/-- The conditionals that were open when a file was opened are open as long as the file is, unchanged
and below all others, and they are the ones that are open when it is closed; each other one is
reported then, once, the outermost first. A directive of the file that needs a conditional, where
it has none open, is reported once and changes no conditional. -/
theorem conditions_of_open_file (reachable : r.Reachable setup) {inner : List Frame}
    (isOpen : r.frames = inner ++ frame :: outer) :
    ∃ opened mine, OpenSince setup opened r frame outer
      ∧ r.session.conditions.frames = mine ++ opened.session.conditions.frames
      ∧ (inner = [] → r.queued = [] → r.status ≠ .aborted →
        (∀ final rest, frame.lexer.item = (.finish final, rest) →
          ∃ next, r.step setup = .goOn next ∧ next.frames = outer
            ∧ next.session.conditions = opened.session.conditions
            ∧ next.session.journal.entries = (r.atEnd final.1).journal.entries
              ++ unterminated (r.atEnd final.1).journal mine.reverse)
        ∧ ∀ d rest, frame.lexer.item = (.directive d, rest) → d.needsOpen = true → mine = [] →
          ∃ next, r.step setup = .goOn next
            ∧ next.session.conditions = r.session.conditions
            ∧ next.session.journal.entries = r.session.journal.entries
              ++ [r.session.journal.diagnoseAt d.hash d.mismatch.1 d.mismatch.2]) := by
  obtain ⟨opened, since, mine, split⟩ := reachable.exists_opened isOpen
  have base : opened.session.conditions.frames.length = frame.conditionDepth :=
    since.conditionDepth.symm
  refine ⟨opened, mine, since, split.symm, ?_⟩
  rintro rfl idle running
  refine ⟨?_, ?_⟩
  · intro final rest finish
    refine ⟨_, by rw [step_of_readToken setup idle isOpen running, readToken_eq, finish], rfl, ?_, ?_⟩
    all_goals
      have now : (r.atEnd final.1).conditions.frames
          = mine ++ opened.session.conditions.frames := by rw [conditions_atEnd, split]
      simp only [closeFile, session_atEnd]
    · exact conditions_closeConditions { frame with lexer := rest } now base
    · exact entries_closeConditions { frame with lexer := rest } now base
  · rintro d rest here needs rfl
    have layer : Directive.Layer r.place [] opened.session.conditions.frames := by
      obtain ⟨own, below, before, base', layer⟩ := reachable.consistent.exists_layer isOpen
      have same := List.append_inj' (before.symm.trans split.symm) (base'.trans base.symm)
      rwa [same.1, same.2] at layer
    have unmatched : Directive.present? r.place r.session = none := by
      have present := Directive.present?_of_layer r.session layer
      rwa [split, Session.within_self] at present
    have executed := Directive.execute_of_unmatched setup needs unmatched
    refine ⟨_, by rw [step_of_readToken setup idle isOpen running, readToken_eq, here], ?_, ?_⟩
    all_goals
      simp only [afterDirective, executed, act]
      obtain ⟨status, same⟩ := exists_checkAbort setup _
      rw [same]
      rfl

/-! A header that leaves a conditional open. -/

/-- The header, which is called `h`. -/
def unclosedSetup : Setup where
  config := { standardMacros := false }
  files := { entries := [([['h']], .file "#ifdef X\n".toList)] }

/-- The reader at the end of the header, which the main file includes. -/
def unclosedReader : Reader :=
  includingReader.after unclosedSetup 2

theorem unclosedReader_reachable : unclosedReader.Reachable unclosedSetup :=
  have opening : freshRun.openMain unclosedSetup (.ok (.ofDecoded false includingText)) ['m']
      = .ok { freshRun with reader := includingReader } := rfl
  have created : Preprocessor.create unclosedSetup = .ok freshRun := rfl
  Reachable.after (.opened created opening) 2

/-- The header is open with one conditional of its own, and nothing is left of it. -/
theorem unclosedReader_facts :
    unclosedReader.frames.map
        (fun file => (file.canonical, file.conditionDepth, file.lexer.next.1.isEnd))
      = [(['/', 'h'], 0, true), (['m'], 0, true)]
      ∧ unclosedReader.queued = [] ∧ unclosedReader.status = .ok
      ∧ unclosedReader.session.conditions.frames.map (·.live) = [false]
      ∧ unclosedReader.session.journal.entries = [] := by
  decide +kernel

/-- The header is closed with its conditional, which is reported. -/
theorem conditions_of_open_file_unclosed :
    ∃ next : Reader, unclosedReader.step unclosedSetup = .goOn next
      ∧ next.frames.map (·.canonical) = [['m']] ∧ next.session.conditions.frames = []
      ∧ next.session.journal.entries.map (·.code) = [.unterminatedCondition] := by
  obtain ⟨files, idle, status, conditions, silent⟩ := unclosedReader_facts
  obtain ⟨header, outer, isOpen, isHeader, others⟩ := List.map_eq_cons_iff.mp files
  obtain ⟨-, noneBefore, ends⟩ := Prod.ext_iff.mp isHeader |>.imp_right Prod.ext_iff.mp
  obtain ⟨condition, own, dead⟩ := List.map_eq_singleton_iff.mp conditions
  obtain ⟨opened, mine, since, split, closes⟩ :=
    conditions_of_open_file unclosedReader_reachable
      (show unclosedReader.frames = [] ++ header :: outer from isOpen)
  have noneThen : opened.session.conditions.frames = [] :=
    List.length_eq_zero_iff.mp (since.conditionDepth.symm.trans noneBefore)
  obtain ⟨next, stepped, frames, after, entries⟩ :=
    (closes rfl idle (by simp [status])).1 _ _ (Lexer.item_of_isEnd ends)
  rw [noneThen, List.append_nil, own] at split
  have isDead : unclosedReader.session.conditions.isLive = false := by
    simp only [ConditionStack.isLive, own, dead]
  have atEnd : unclosedReader.atEnd header.lexer.next.1 = unclosedReader.session := by
    rw [Reader.atEnd, isDead, if_neg Bool.false_ne_true]
  refine ⟨next, stepped, ?_, by rw [after, noneThen], ?_⟩
  · have canonical := congrArg (List.map Prod.fst) others
    rwa [List.map_map, ← frames] at canonical
  · rw [entries, atEnd, silent, ← split]
    rfl

end Reader

end CPreprocessor
