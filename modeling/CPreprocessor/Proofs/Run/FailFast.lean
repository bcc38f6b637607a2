/-
# Ending with the first error

A run that is to end with its first error asks after each token, each directive and each
expansion whether there has been one. So the call for a token in which the first error is
recorded gives the end of the file, and so does every later one, and nothing more is
recorded (`failFast_ends_run`). Two places do not ask: the end of a file, whose errors
are noticed at the next place that does, and a pragma operator whose operand is malformed,
which is still given; then the next call ends the run.
-/
import CPreprocessor.Proofs.Reading.Items
import CPreprocessor.Proofs.Reading.Nested
import CPreprocessor.Proofs.Include.Nesting
import Mathlib.Data.Nat.Find

namespace CPreprocessor

namespace Reader

variable {setup : Setup} {r next : Reader} {frame : Frame} {outer : List Frame}

/-! ## What a step records -/

theorem records_reportSpelling (setup : Setup) (r : Reader) (token : Token) :
    r.Records setup (r.reportSpelling setup token) := by
  unfold reportSpelling
  split
  · have spelled : r.Records setup { r with session := r.session.reportSpelling token } :=
      ⟨r.session.precedes_reportSpelling token, .inl rfl⟩
    exact spelled.trans (between_checkAbort setup _).toRecords
  · exact .refl setup r

theorem records_accept (setup : Setup) (r : Reader) (frame : Frame) (outer : List Frame)
    (token : Token) : r.Records setup (r.accept setup frame outer token) := by
  let taken := { r with frames := { frame with guard := frame.guard.afterToken } :: outer }
  have same : r.Records setup taken := ⟨.refl _, .inl rfl⟩
  exact same.trans (records_reportSpelling setup taken token)

theorem precedes_closeConditions (frame : Frame) (s : Session) :
    s.journal.Precedes (closeConditions frame s).journal := by
  have reported (unclosed : List ConditionFrame) (t : Session) :
      t.journal.Precedes
        (unclosed.foldl (fun s c => s.report c.opener .unterminatedCondition []) t).journal := by
    induction unclosed generalizing t with
    | nil => exact .refl _
    | cons c more ih => exact (t.precedes_report _ _ _).trans (ih _)
  unfold closeConditions
  exact reported _ { s with conditions := (s.conditions.popAbove frame.conditionDepth).2 }

theorem records_enter (setup : Setup) (r : Reader) (header : Header) (site : Token) :
    r.Records setup (r.enter setup header site) := by
  have reported (code : Code) (detail : Text) : r.Records setup (r.report site code detail) :=
    ⟨r.session.precedes_report _ _ _, .inl rfl⟩
  unfold enter
  split
  · exact .refl setup r
  · split
    · split
      · exact .refl setup r
      · exact reported _ _
    · unfold openHeader
      simp only []
      split
      · exact reported _ _
      · split
        · exact reported _ _
        · exact ⟨.refl _, .inl rfl⟩

theorem records_afterDirective (setup : Setup) (r : Reader) (frame : Frame) (outer : List Frame)
    (d : Directive) : r.Records setup (r.afterDirective setup frame outer d) := by
  have executed := d.precedes_execute setup r.place r.session
  have acted (changed : Reader) (session : changed.session = (d.execute setup r.place r.session).2)
      (status : changed.status = r.status) : r.Records setup changed :=
    ⟨session ▸ executed, .inl status⟩
  unfold afterDirective
  refine Records.trans ?_ (between_checkAbort setup _).toRecords
  cases (d.execute setup r.place r.session).1 with
  | nothing => exact acted _ rfl rfl
  | pass => exact acted _ rfl rfl
  | once => exact acted _ rfl rfl
  | present line name => exact acted _ rfl rfl
  | enter header site =>
    exact (acted { r with session := _, frames := _ } rfl rfl).trans
      (records_enter setup _ header site)

theorem records_closeFile (setup : Setup) (r : Reader) (frame : Frame) (outer : List Frame)
    (final : { token : Token // token.isEnd = true }) :
    r.Records setup (r.closeFile setup frame outer final) := by
  generalize reported : (if r.session.conditions.isLive then r.reportSpelling setup final.1 else r)
    = r'
  have spelled : r.Records setup r' := by
    rw [← reported]
    split
    · exact records_reportSpelling setup r final.1
    · exact .refl setup r
  have closed : r'.Records setup (r.closeFile setup frame outer final) := by
    unfold closeFile
    rw [reported]
    exact ⟨precedes_closeConditions frame r'.session, .inl rfl⟩
  exact spelled.trans closed

/-- A step adds reports, and ends the run only for an error. -/
theorem records_step {token : Token}
    (stepped : r.step setup = .give token next ∨ r.step setup = .goOn next) :
    r.Records setup next := by
  have cases_of := r.stepped setup
  obtain stepped | stepped := stepped
  all_goals
    rw [stepped] at cases_of
    cases cases_of
  case inl.waits => exact ⟨.refl _, .inl rfl⟩
  case inl.finished => exact (between_finish setup r).toRecords
  case inl.counts => exact records_accept setup r _ _ _
  case inr.closes => exact records_closeFile setup r _ _ _
  case inr.carriesOut => exact records_afterDirective setup r _ _ _
  case inr.passesOver => exact ⟨.refl _, .inl rfl⟩

/-- What a run records from some reader on is an invariant. -/
theorem invariant_records (setup : Setup) (start : Reader) : Invariant setup (start.Records setup) :=
  ⟨fun _ records stepped => records.trans (records_step stepped),
    fun records between => records.trans between.toRecords⟩

/-- A step in which an error is recorded ends the run, unless it closes a file. -/
theorem isNoticed_step (noticed : r.IsNoticed setup) {token : Token}
    (stepped : r.step setup = .give token next ∨ r.step setup = .goOn next) :
    next.IsNoticed setup
      ∨ ∃ frame outer final rest, r.frames = frame :: outer ∧ next.frames = outer
        ∧ frame.lexer.item = (.finish final, rest) := by
  have same (changed : Reader) (session : changed.session = r.session)
      (status : changed.status = r.status) : changed.IsNoticed setup := by
    unfold IsNoticed at noticed ⊢
    rwa [session, status]
  have cases_of := r.stepped setup
  obtain stepped | stepped := stepped
  all_goals
    rw [stepped] at cases_of
    cases cases_of
  case inl.waits => exact .inl (same _ rfl rfl)
  case inl.finished =>
    refine .inl ?_
    unfold finish
    split
    · exact noticed
    · exact same _ rfl rfl
  case inl.counts =>
    refine .inl ?_
    unfold accept reportSpelling
    split
    · exact isNoticed_checkAbort _
    · exact same _ rfl rfl
  case inr.closes frame outer final rest idle isOpen running here =>
    exact .inr ⟨frame, outer, final, rest, isOpen, rfl, here⟩
  case inr.carriesOut => exact .inl (isNoticed_checkAbort _)
  case inr.passesOver => exact .inl (same _ rfl rfl)

end Reader

/-! ## Calls for a token -/

namespace Preprocessor

variable {setup : Setup} {p : Preprocessor}

theorem records_expandNext (setup : Setup) (p : Preprocessor) :
    p.reader.Records setup (p.expandNext setup).2.reader :=
  (Reader.invariant_records _ p.reader).expandNext (.refl setup _)

theorem records_next (setup : Setup) (p : Preprocessor) :
    p.reader.Records setup (p.next setup).2.reader :=
  (Reader.invariant_records _ p.reader).next (.refl setup _)

theorem records_operator (setup : Setup) {p q : Preprocessor} {operand : PragmaOperand}
    (read : ((p.expandNext setup).2.checkAbort setup).readOperand setup (p.expandNext setup).1
      = (some operand, q)) :
    p.reader.Records setup
      (q.applyPragma setup (p.expandNext setup).1 operand.literal).2.reader := by
  have invariant : Reader.Invariant setup (p.reader.Records setup) :=
    Reader.invariant_records _ p.reader
  have operands := invariant.readOperand (p.expandNext setup).1
    (invariant.checkAbort (invariant.expandNext (.refl setup _)))
  rw [read] at operands
  exact invariant.applyPragma _ _ operands

/-- The end of the file is given, and nothing is recorded. -/
theorem finish_facts (p : Preprocessor) :
    p.finish.1.isEnd = true ∧ p.finish.2.isAborted = p.isAborted ∧ p.finish.2.journal = p.journal := by
  have kept : p.reader.finish.2.status = p.reader.status
      ∧ p.reader.finish.2.session = p.reader.session := by
    unfold Reader.finish
    split <;> exact ⟨rfl, rfl⟩
  refine ⟨p.reader.finish_isEnd.1, ?_, ?_⟩
  · simp only [finish, isAborted, kept.1]
  · simp only [finish, journal, kept.2]

@[simp] theorem journal_checkAbort (p : Preprocessor) :
    (p.checkAbort setup).journal = p.journal := by
  simp only [journal, checkAbort, Reader.checkAbort]
  split <;> rfl

@[simp] theorem journal_give (token : Token) (p : Preprocessor) :
    (give token p).2.journal = p.journal := by
  unfold give
  split
  · exact p.finish_facts.2.2
  · rfl

/-- The main file was read. -/
def IsOpen (p : Preprocessor) : Prop :=
  p.reader.status ≠ .fatal

theorem IsOpen.of_records {q : Preprocessor} (isOpen : p.IsOpen)
    (records : p.reader.Records setup q.reader) : q.IsOpen := by
  unfold IsOpen
  obtain same | ⟨-, aborted, -⟩ := records.status
  · rw [same]
    exact isOpen
  · rw [aborted]
    exact nofun

/-- A call in which the run ends while a token is expanded gives the end of the file. -/
theorem next_of_ended (running : ¬p.isAborted = true)
    (ended : ((p.expandNext setup).2.checkAbort setup).isAborted = true) :
    p.next setup = ((p.expandNext setup).2.checkAbort setup).finish := by
  rw [next_of_running running, give, if_pos ended]
  split <;> rfl

section FailFast

variable (failFast : setup.config.failFast = true)
include failFast

/-- Asking whether there has been an error ends the run if there has been one. -/
theorem isAborted_checkAbort (isOpen : p.IsOpen) (errors : 0 < p.journal.errorCount) :
    (p.checkAbort setup).isAborted = true := by
  have positive : 0 < p.reader.session.journal.errorCount := errors
  simp only [checkAbort, isAborted, Reader.checkAbort, failFast, positive, decide_true, Bool.true_and]
  split
  · rfl
  · rename_i notOk
    unfold IsOpen at isOpen
    cases status : p.reader.status <;> simp_all

/-- A token is given before any error has been recorded, or the run has ended. -/
theorem give_cases (isOpen : p.IsOpen) (token : Token) (pending : List Token) :
    let q := { p.checkAbort setup with pending }
    (give token q).2.journal.errorCount = 0
      ∨ (give token q).2.isAborted = true ∧ (give token q).1.isEnd = true := by
  intro q
  unfold give
  split
  · rename_i ended
    exact .inr ⟨q.finish_facts.2.1.trans ended, q.finish_facts.1⟩
  · rename_i goesOn
    have kept : q.journal = p.journal := journal_checkAbort p
    refine .inl (Nat.eq_zero_of_not_pos fun errors => goesOn ?_)
    exact isAborted_checkAbort failFast isOpen (kept ▸ errors)

/-- A call after an error ends the run. -/
theorem next_of_errors (isOpen : p.IsOpen) (errors : 0 < p.journal.errorCount) :
    (p.next setup).2.isAborted = true ∧ (p.next setup).1.isEnd = true := by
  by_cases aborted : p.isAborted = true
  · rw [next_of_aborted aborted]
    exact ⟨p.finish_facts.2.1.trans aborted, p.finish_facts.1⟩
  · have records := records_expandNext setup p
    have ended : ((p.expandNext setup).2.checkAbort setup).isAborted = true :=
      isAborted_checkAbort failFast (isOpen.of_records records)
        (Nat.lt_of_lt_of_le errors records.reports.errorCount_le)
    have final := ((p.expandNext setup).2.checkAbort setup).finish_facts
    rw [next_of_ended aborted ended]
    exact ⟨final.2.1.trans ended, final.1⟩

/-- A call that records an error ends the run, unless it gives a pragma operator. -/
theorem next_cases (isOpen : p.IsOpen) :
    (p.next setup).2.journal.errorCount = 0
      ∨ (p.next setup).2.isAborted = true ∧ (p.next setup).1.isEnd = true
      ∨ startsPragma (p.next setup).1 = true := by
  fun_induction Preprocessor.next setup p with
  | case1 p aborted => exact .inr (.inl ⟨p.finish_facts.2.1.trans aborted, p.finish_facts.1⟩)
  | case2 p running token q starts aborted =>
    exact .inr (.inl ⟨q.finish_facts.2.1.trans aborted, q.finish_facts.1⟩)
  | case3 p running token q starts goesOn q' read => exact .inr (.inr starts)
  | case4 p running token q starts goesOn operand q' read done applied =>
    have carried := records_operator setup read
    rw [applied] at carried
    exact (give_cases failFast (isOpen.of_records carried) (verbatim token) _).imp_right .inl
  | case5 p running token q starts goesOn operand q' read done applied ih =>
    have carried := records_operator setup read
    rw [applied] at carried
    exact ih (isOpen.of_records carried)
  | case6 p running token q plain =>
    have expanded := isOpen.of_records (records_expandNext setup p)
    exact (give_cases failFast expanded token q.pending).imp_right .inl

end FailFast

/-! ## Runs -/

/-- The run after some calls for a token. -/
def afterCalls (setup : Setup) (p : Preprocessor) : Nat → Preprocessor
  | 0 => p
  | n + 1 => ((afterCalls setup p n).next setup).2

theorem records_afterCalls (setup : Setup) (p : Preprocessor) (n : Nat) :
    p.reader.Records setup (p.afterCalls setup n).reader := by
  induction n with
  | zero => exact .refl setup _
  | succ n ih => exact ih.trans (records_next setup _)

theorem afterCalls_next (setup : Setup) (p : Preprocessor) (n : Nat) :
    (p.next setup).2.afterCalls setup n = p.afterCalls setup (n + 1) := by
  induction n with
  | zero => rfl
  | succ n ih => exact congrArg (fun q => (q.next setup).2) ih

theorem afterCalls_afterCalls (setup : Setup) (p : Preprocessor) (m n : Nat) :
    (p.afterCalls setup m).afterCalls setup n = p.afterCalls setup (m + n) := by
  induction n with
  | zero => rfl
  | succ n ih => exact congrArg (fun q => (q.next setup).2) ih

theorem tokensWithin_of_isEnd (isEnd : (p.next setup).1.isEnd = true) (n : Nat) :
    p.tokensWithin setup (n + 1) = ([(p.next setup).1], (p.next setup).2) := by
  rw [tokensWithin]
  simp only [isEnd, if_true]

theorem tokensWithin_of_more (more : (p.next setup).1.isEnd = false) (n : Nat) :
    p.tokensWithin setup (n + 1)
      = ((p.next setup).1 :: ((p.next setup).2.tokensWithin setup n).1,
          ((p.next setup).2.tokensWithin setup n).2) := by
  rw [tokensWithin]
  simp only [more, Bool.false_eq_true, if_false]

/-- A run that has just opened its main file has recorded nothing. -/
theorem openMain_facts {p q : Preprocessor} {source : Except SourceError Source} {path : Text}
    (created : create setup = .ok p) (opening : p.openMain setup source path = .ok q) :
    q.journal.entries = [] ∧ q.reader.status = .ok := by
  have isNew := isNew_of_create created
  obtain ⟨text, rfl, rfl⟩ := isNew.openMain_eq_ok.mp opening
  unfold openPreamble
  simp only []
  split <;> exact ⟨isNew.unreported, isNew.ok⟩

/-- Without an error the run has not ended. -/
theorem status_afterCalls {q : Preprocessor} (ok : q.reader.status = .ok) {n : Nat}
    (noError : (q.afterCalls setup n).journal.errorCount = 0) :
    (q.afterCalls setup n).reader.status = .ok := by
  obtain same | ⟨-, -, -, errors⟩ := (records_afterCalls setup q n).status
  · exact same.trans ok
  · exact absurd noError (Nat.ne_of_gt errors)

/-- Once a call has ended the run, every call gives the end of the file and records nothing. -/
theorem afterCalls_of_isAborted {q : Preprocessor} {n : Nat}
    (aborted : (q.afterCalls setup n).isAborted = true) {m : Nat} (later : n ≤ m) :
    ((q.afterCalls setup m).next setup).1.isEnd = true
      ∧ (q.afterCalls setup m).isAborted = true
      ∧ (q.afterCalls setup m).journal = (q.afterCalls setup n).journal := by
  induction later with
  | refl =>
    rw [next_of_aborted aborted]
    exact ⟨(finish_facts _).1, aborted, rfl⟩
  | @step m later ih =>
    obtain ⟨-, stillAborted, same⟩ := ih
    have finished : q.afterCalls setup (m + 1) = (q.afterCalls setup m).finish.2 := by
      rw [afterCalls, next_of_aborted stillAborted]
    obtain ⟨-, kept, journal⟩ := finish_facts (q.afterCalls setup m)
    rw [← finished] at kept journal
    rw [stillAborted] at kept
    rw [next_of_aborted kept]
    exact ⟨(finish_facts _).1, kept, journal.trans same⟩

/-- The first error is recorded in the call for a token after `n` others, and the run ends with that
call or, if it gives a pragma operator, with the next one: `k` calls later the end of the file is
given, and then it is given for ever and nothing more is recorded. -/
structure EndsAfter (setup : Setup) (q : Preprocessor) (n k : Nat) : Prop where
  before : ∀ m, m ≤ n → (q.afterCalls setup m).journal.errorCount = 0
    ∧ (q.afterCalls setup m).reader.status = .ok
  error : 0 < (q.afterCalls setup (n + 1)).journal.errorCount
  delay : k = 0 ∨ k = 1 ∧ startsPragma ((q.afterCalls setup n).next setup).1 = true
  ends : ((q.afterCalls setup (n + k)).next setup).1.isEnd = true
  after : ∀ m, n + k < m → ((q.afterCalls setup m).next setup).1.isEnd = true
    ∧ (q.afterCalls setup m).isAborted = true
    ∧ (q.afterCalls setup m).journal = (q.afterCalls setup (n + k + 1)).journal

/-- The call that records the first error ends the run. -/
theorem exists_endsAfter (failFast : setup.config.failFast = true) {q : Preprocessor}
    (fresh : q.journal.errorCount = 0) (ok : q.reader.status = .ok)
    (errs : ∃ n, 0 < (q.afterCalls setup (n + 1)).journal.errorCount) :
    ∃ n k, q.EndsAfter setup n k := by
  obtain ⟨n, error, first⟩ : ∃ n, 0 < (q.afterCalls setup (n + 1)).journal.errorCount
      ∧ ∀ m, m < n → ¬0 < (q.afterCalls setup (m + 1)).journal.errorCount :=
    ⟨Nat.find errs, Nat.find_spec errs, fun m => Nat.find_min errs⟩
  have noError (m : Nat) (early : m ≤ n) : (q.afterCalls setup m).journal.errorCount = 0 := by
    cases m with
    | zero => exact fresh
    | succ m => exact Nat.eq_zero_of_not_pos (first m early)
  have before (m : Nat) (early : m ≤ n) :=
    And.intro (noError m early) (status_afterCalls ok (noError m early))
  have isOpen (m : Nat) : (q.afterCalls setup m).IsOpen :=
    IsOpen.of_records (by rw [IsOpen, ok]; exact nofun) (records_afterCalls setup q m)
  obtain none | ⟨aborted, ends⟩ | pragma := next_cases failFast (isOpen n)
  · exact absurd none (Nat.ne_of_gt error)
  · exact ⟨n, 0, before, error, .inl rfl, ends, fun m later =>
      afterCalls_of_isAborted (n := n + 1) aborted later⟩
  · obtain ⟨aborted, ends⟩ := next_of_errors failFast (isOpen (n + 1)) error
    exact ⟨n, 1, before, error, .inr ⟨rfl, pragma⟩, ends, fun m later =>
      afterCalls_of_isAborted (n := n + 1 + 1) aborted later⟩

/-- If a run is to end with its first error, there is none, or the call in which the first one is
recorded is the last one in which anything is recorded, but for a pragma operator with a malformed
operand, after which there is one more. While files are read, a step in which an error is recorded
ends the run at once, unless it closes a file. A main file that cannot be read is one error. -/
theorem failFast_ends_run {p : Preprocessor} (failFast : setup.config.failFast = true)
    (created : create setup = .ok p) :
    (∀ q source path, p.openMain setup source path = .ok q →
      (∀ n, (q.afterCalls setup n).journal.errorCount = 0
        ∧ (q.afterCalls setup n).reader.status = .ok)
      ∨ ∃ n k, q.EndsAfter setup n k)
    ∧ (∀ (r next : Reader) (token : Token), r.IsNoticed setup →
      r.step setup = .give token next ∨ r.step setup = .goOn next →
        next.IsNoticed setup
          ∨ ∃ frame outer final rest, r.frames = frame :: outer ∧ next.frames = outer
            ∧ frame.lexer.item = (.finish final, rest))
    ∧ ∀ name cause, (p.failRun name cause).1.status = .fatal
      ∧ (p.failRun name cause).1.errorCount = 1
      ∧ (p.failRun name cause).1.diagnostics.length = 1 := by
  refine ⟨fun q source path opening => ?_,
    fun r next token noticed stepped => Reader.isNoticed_step noticed stepped, ?_⟩
  · obtain ⟨nothing, ok⟩ := openMain_facts created opening
    have fresh : q.journal.errorCount = 0 := by
      rw [Journal.errorCount, Journal.count, nothing]
      rfl
    by_cases errs : ∃ n, 0 < (q.afterCalls setup (n + 1)).journal.errorCount
    · exact .inr (exists_endsAfter failFast fresh ok errs)
    · refine .inl fun n => ?_
      have noError : (q.afterCalls setup n).journal.errorCount = 0 := by
        cases n with
        | zero => exact fresh
        | succ n => exact Nat.eq_zero_of_not_pos fun error => errs ⟨n, error⟩
      exact ⟨noError, status_afterCalls ok noError⟩
  · obtain ⟨cache, rfl⟩ := Reader.exists_create created
    exact fun name cause => ⟨rfl, rfl, rfl⟩

/-! A main file that starts with an error. -/

/-- A run ends with its first error, and no macros are defined first. -/
def strictSetup : Setup where
  config := { standardMacros := false, failFast := true }

/-- The main file. -/
def erroneousText : Text :=
  "#error\nx\n".toList

/-- The run that has opened the main file. -/
def erroneousRun : Preprocessor where
  reader :=
    { Reader.freshRun.reader with
      opened := true
      baseFile := ['m']
      nextFileNumber := 2
      frames := [{
        lexer := .ofSource (.ofDecoded false erroneousText) ⟨['m'], ['m'], 1⟩ .standard false
        path := ['m']
        canonical := strictSetup.files.canonical ['m']
        searchIndex := none
        includeDepth := 0
        conditionDepth := 0
        isPreamble := false }] }

/-- The step gives no token and ends the run with an error. -/
def stopsAtError : Reader.Step → Bool
  | .goOn next =>
    0 < next.session.journal.errorCount && next.status = .aborted && next.queued.isEmpty
  | .give _ _ => false

theorem erroneousRun_stops : stopsAtError (erroneousRun.reader.step strictSetup) = true := by
  decide +kernel

/-- The first call ends the run. -/
theorem failFast_ends_run_erroneous : ∃ n k, erroneousRun.EndsAfter strictSetup n k := by
  have created : create strictSetup = .ok Reader.freshRun := rfl
  have opening : Reader.freshRun.openMain strictSetup (.ok (.ofDecoded false erroneousText)) ['m']
      = .ok erroneousRun := rfl
  obtain clean | ends := (failFast_ends_run rfl created).1 _ _ _ opening
  · -- The step that reads the line records the error.
    have stops := erroneousRun_stops
    cases stepped : erroneousRun.reader.step strictSetup with
    | give token next =>
      rw [stepped] at stops
      cases stops
    | goOn next =>
      rw [stepped] at stops
      simp only [stopsAtError, Bool.and_eq_true, decide_eq_true_eq, List.isEmpty_iff] at stops
      obtain ⟨⟨errors, aborted⟩, idle⟩ := stops
      have pulled : erroneousRun.reader.pull strictSetup = next.finish :=
        (Reader.pull_of_goOn stepped).trans (Reader.pull_of_isFinished ⟨idle, .inr aborted⟩)
      let ended : Preprocessor := { reader := next }
      obtain ⟨isEnd, -, same⟩ := ended.finish_facts
      have taken : erroneousRun.take strictSetup = ended.finish := by
        rw [take, show erroneousRun.pending = [] from rfl, pulled]
        rfl
      have expanded : erroneousRun.expandNext strictSetup = ended.finish :=
        expandNext_of_none taken (called?_of_isEnd isEnd)
      have given : erroneousRun.next strictSetup
          = give ended.finish.1 (ended.finish.2.checkAbort strictSetup) := by
        rw [next_of_running (by decide), expanded, if_neg]
        rw [startsPragma_of_isEnd isEnd]
        exact Bool.false_ne_true
      have none := (clean 1).1
      rw [afterCalls, afterCalls, given, journal_give, journal_checkAbort, same] at none
      exact absurd none (Nat.ne_of_gt errors)
  · exact ends

end Preprocessor

end CPreprocessor
