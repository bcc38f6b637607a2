/-
# A run that ends with its first error

The run that ends with its first error and the one that goes on make the same steps until
the first of them ends (`Preprocessor.next_ending`). From then on the first run is at the
end of its file wherever it reads, also in the middle of a call, and an error is recorded
in the other one as well. What the first run gives is therefore a beginning of what the
other one gives (`failFast_truncates`), but for one place that does not ask whether the run
has ended: a pragma operator is still given when the run ends while its operand is read.
-/
import CPreprocessor.Proofs.Run.FailFast

namespace CPreprocessor

/-- The setup in which runs end with their first error, or do not. -/
def Setup.ending (setup : Setup) (failFast : Bool) : Setup :=
  { setup with config := { setup.config with failFast } }

theorem Setup.directsAs_ending (setup : Setup) :
    (setup.ending true).DirectsAs (setup.ending false) :=
  ⟨rfl, rfl, rfl, rfl, rfl⟩

namespace Reader

variable {setup : Setup} {r strict lenient : Reader}

/-- The run of the first reader has been ended, and an error has been recorded in the second one. -/
structure IsCut (strict lenient : Reader) : Prop where
  ended : strict.status = .aborted
  error : 0 < lenient.session.journal.errorCount

/-- A run that has ended stays so. -/
theorem Records.ended {next : Reader} (goesOn : r.Records setup next) (ended : r.status = .aborted) :
    next.status = .aborted := by
  obtain same | ⟨-, aborted, -⟩ := goesOn.status
  · exact same.trans ended
  · exact aborted

theorem IsCut.of_records (cut : strict.IsCut lenient) {next next' : Reader}
    (goesOn : strict.Records (setup.ending true) next)
    (goesOn' : lenient.Records (setup.ending false) next') : next.IsCut next' where
  ended := goesOn.ended cut.ended
  error := Nat.lt_of_lt_of_le cut.error goesOn'.reports.errorCount_le

/-! ## Steps -/

theorem checkAbort_ending (setup : Setup) (r : Reader) :
    r.checkAbort (setup.ending true) = r.checkAbort (setup.ending false)
      ∨ (r.checkAbort (setup.ending true)).IsCut (r.checkAbort (setup.ending false)) := by
  rw [checkAbort_of_lenient (rfl : (setup.ending false).config.failFast = false)]
  unfold checkAbort
  split
  · rename_i aborts
    simp only [Bool.and_eq_true, decide_eq_true_eq] at aborts
    exact .inr ⟨rfl, aborts.1.2⟩
  · exact .inl rfl

theorem reportSpelling_ending (setup : Setup) (r : Reader) (token : Token) :
    r.reportSpelling (setup.ending true) token = r.reportSpelling (setup.ending false) token
      ∨ (r.reportSpelling (setup.ending true) token).IsCut
        (r.reportSpelling (setup.ending false) token) := by
  unfold reportSpelling
  split
  · exact checkAbort_ending setup _
  · exact .inl rfl

/-- A file is closed in the same way, unless the report at its end ends the run. -/
theorem closeFile_ending (setup : Setup) (r : Reader) (frame : Frame) (outer : List Frame)
    (final : { token : Token // token.isEnd = true }) :
    r.closeFile (setup.ending true) frame outer final
        = r.closeFile (setup.ending false) frame outer final
      ∨ (r.closeFile (setup.ending true) frame outer final).IsCut
        (r.closeFile (setup.ending false) frame outer final) := by
  have reported :
      (if r.session.conditions.isLive then r.reportSpelling (setup.ending true) final.1 else r)
          = (if r.session.conditions.isLive then r.reportSpelling (setup.ending false) final.1 else r)
        ∨ (if r.session.conditions.isLive then r.reportSpelling (setup.ending true) final.1
            else r).IsCut
          (if r.session.conditions.isLive then r.reportSpelling (setup.ending false) final.1
            else r) := by
    split
    · exact reportSpelling_ending setup r final.1
    · exact .inl rfl
  unfold closeFile
  generalize (if r.session.conditions.isLive then r.reportSpelling (setup.ending true) final.1 else r)
    = strict at reported
  generalize (if r.session.conditions.isLive then r.reportSpelling (setup.ending false) final.1
    else r) = lenient at reported
  obtain rfl | cut := reported
  · exact .inl rfl
  · exact .inr ⟨cut.ended, Nat.lt_of_lt_of_le cut.error
      (precedes_closeConditions frame lenient.session).errorCount_le⟩

theorem act_ending (setup : Setup) (r : Reader) (frame : Frame) (outer : List Frame) (d : Directive)
    (action : Action) : r.act (setup.ending true) frame outer d action
      = r.act (setup.ending false) frame outer d action := by
  cases action <;> rfl

theorem afterDirective_ending (setup : Setup) (r : Reader) (frame : Frame) (outer : List Frame)
    (d : Directive) :
    r.afterDirective (setup.ending true) frame outer d
        = r.afterDirective (setup.ending false) frame outer d
      ∨ (r.afterDirective (setup.ending true) frame outer d).IsCut
        (r.afterDirective (setup.ending false) frame outer d) := by
  simp only [afterDirective, Directive.execute_congr setup.directsAs_ending, act_ending]
  exact checkAbort_ending setup _

/-- The reader after a step. -/
def Step.reader : Step → Reader
  | .give _ next => next
  | .goOn next => next

/-- A step is the same, unless it ends the run. -/
theorem step_ending (setup : Setup) (r : Reader) :
    r.step (setup.ending true) = r.step (setup.ending false)
      ∨ (r.step (setup.ending true)).reader.IsCut (r.step (setup.ending false)).reader := by
  unfold step
  split
  · exact .inl rfl
  · exact .inl rfl
  · split
    · exact .inl rfl
    · rw [readToken_eq, readToken_eq]
      split
      · exact (closeFile_ending setup r _ _ _).imp_left (congrArg Step.goOn)
      · exact (afterDirective_ending setup r _ _ _).imp_left (congrArg Step.goOn)
      · split
        · exact (reportSpelling_ending setup _ _).imp_left (congrArg (Step.give _))
        · exact .inl rfl

theorem records_step_pull (setup : Setup) (r : Reader) :
    (r.step setup).reader.Records setup (r.pull setup).2 := by
  cases stepped : r.step setup with
  | give token next =>
    rw [pull_of_give stepped]
    exact .refl setup _
  | goOn next =>
    rw [pull_of_goOn stepped]
    exact (invariant_records _ next).pull (.refl setup _)

/-- A token is the same, unless the run ends on the way to it. -/
theorem pull_ending (setup : Setup) (r : Reader) :
    r.pull (setup.ending true) = r.pull (setup.ending false)
      ∨ (r.pull (setup.ending true)).2.IsCut (r.pull (setup.ending false)).2 := by
  fun_induction pull (setup.ending true) r with
  | case1 r token after stepped =>
    have cases := step_ending setup r
    rw [stepped] at cases
    obtain same | cut := cases
    · rw [pull_of_give same.symm]
      exact .inl rfl
    · exact .inr (cut.of_records (.refl _ _) (records_step_pull _ r))
  | case2 r after stepped ih =>
    have cases := step_ending setup r
    rw [stepped] at cases
    obtain same | cut := cases
    · rw [pull_of_goOn same.symm]
      exact ih
    · exact .inr (cut.of_records ((invariant_records _ after).pull (.refl _ _))
        (records_step_pull _ r))

end Reader

namespace Preprocessor

open Reader (IsCut)

variable {setup : Setup} {p : Preprocessor}

/-! ## Arguments -/

theorem records_pull_gather (setup : Setup) (depth : Nat) (r : Reader) :
    (r.pull setup).2.Records setup (gather setup depth r).2 := by
  cases goesOn : Arguments.depthAfter depth [(r.pull setup).1] with
  | none =>
    rw [gather_of_none goesOn]
    exact .refl setup _
  | some inner =>
    rw [gather_of_some goesOn]
    exact (Reader.invariant_records _ _).gather (.refl setup _)

theorem gather_ending (setup : Setup) (depth : Nat) (r : Reader) :
    gather (setup.ending true) depth r = gather (setup.ending false) depth r
      ∨ (gather (setup.ending true) depth r).2.IsCut (gather (setup.ending false) depth r).2 := by
  have cut (depth : Nat) (r : Reader)
      (pulled : (r.pull (setup.ending true)).2.IsCut (r.pull (setup.ending false)).2) :
      (gather (setup.ending true) depth r).2.IsCut (gather (setup.ending false) depth r).2 :=
    pulled.of_records (records_pull_gather _ depth r) (records_pull_gather _ depth r)
  fun_induction gather (setup.ending true) depth r with
  | case1 depth r ended =>
    obtain same | pulled := Reader.pull_ending setup r
    · rw [same] at ended ⊢
      exact .inl (gather_of_none ended).symm
    · have ends := cut depth r pulled
      rw [gather_of_none ended] at ends
      exact .inr ends
  | case2 depth r inner goesOn more ih =>
    obtain same | pulled := Reader.pull_ending setup r
    · rw [gather_of_some (same ▸ goesOn), ← same]
      exact ih.imp_left fun equal => by rw [← equal]
    · have ends := cut depth r pulled
      rw [gather_of_some goesOn] at ends
      exact .inr ends

theorem gatherFrom_ending (setup : Setup) (opening : Token) (inner : List Token) (r : Reader) :
    gatherFrom (setup.ending true) opening inner r = gatherFrom (setup.ending false) opening inner r
      ∨ (gatherFrom (setup.ending true) opening inner r).2.IsCut
        (gatherFrom (setup.ending false) opening inner r).2 := by
  unfold gatherFrom
  split
  · exact .inl rfl
  · rename_i depth _
    exact (gather_ending setup depth r).imp_left fun same => by rw [same]

theorem gatherCall_ending (setup : Setup) (r : Reader) (pending : List Token) :
    gatherCall (setup.ending true) r pending = gatherCall (setup.ending false) r pending
      ∨ (gatherCall (setup.ending true) r pending).2.IsCut
        (gatherCall (setup.ending false) r pending).2 := by
  cases pending with
  | cons opening inner => exact gatherFrom_ending setup opening inner r
  | nil =>
    simp only [gatherCall]
    obtain same | cut := Reader.pull_ending setup r
    · rw [same]
      exact gatherFrom_ending setup _ _ _
    · exact .inr (cut.of_records ((Reader.invariant_records _ _).gatherFrom (.refl _ _))
        ((Reader.invariant_records _ _).gatherFrom (.refl _ _)))

theorem headOfMacro_ending (setup : Setup) (m : Macro) (site : Token) (p : Preprocessor) :
    headOfMacro (setup.ending true) m site p = headOfMacro (setup.ending false) m site p
      ∨ (headOfMacro (setup.ending true) m site p).2.IsCut
        (headOfMacro (setup.ending false) m site p).2 := by
  unfold headOfMacro
  split
  · exact (gatherCall_ending setup p.reader p.pending).imp_left fun same => by rw [same]
  · exact .inl rfl

/-! ## Expanded tokens -/

theorem take_ending (setup : Setup) (p : Preprocessor) :
    p.take (setup.ending true) = p.take (setup.ending false)
      ∨ (p.take (setup.ending true)).2.reader.IsCut (p.take (setup.ending false)).2.reader := by
  unfold take
  split
  · exact .inl rfl
  · exact (Reader.pull_ending setup p.reader).imp_left fun same => by rw [same]

theorem context_ending (setup : Setup) (r : Reader) :
    context (setup.ending true) r = context (setup.ending false) r :=
  Session.context_congr setup.directsAs_ending _ _

theorem replaceCall_ending (setup : Setup) (r : Reader) (c : Call) :
    replaceCall (setup.ending true) r c = replaceCall (setup.ending false) r c := by
  simp only [replaceCall, context_ending]

/-- What is done to a reader after the head of a call is known. -/
theorem records_head_expandNext {q : Preprocessor} {site : Token} {m : Macro}
    (taken : p.take setup = (site, q)) (called : Head.called? q.reader.session.macros site = some m) :
    (headOfMacro setup m site q).2.Records setup (p.expandNext setup).2.reader := by
  rw [expandNext_of_some taken called]
  have invariant := Reader.invariant_records setup (headOfMacro setup m site q).2
  have start := Reader.Records.refl setup (headOfMacro setup m site q).2
  generalize headOfMacro setup m site q = found at invariant start ⊢
  obtain ⟨head, r⟩ := found
  cases head with
  | plain token rest => exact start
  | builtin kind token rest =>
    exact invariant.withExpansion start (Expansion.precedes_expandBuiltin _ kind site _)
  | rejected code token rest => exact invariant.report start site code site.lexeme
  | call c =>
    exact invariant.expandNext (p := replaceCall setup r c)
      (invariant.withExpansion start (Expansion.precedes_expandCall _ c _))

theorem records_take_expandNext (setup : Setup) (p : Preprocessor) :
    (p.take setup).2.reader.Records setup (p.expandNext setup).2.reader := by
  cases taken : p.take setup with
  | mk site q =>
    cases called : Head.called? q.reader.session.macros site with
    | none =>
      rw [expandNext_of_none taken called]
      exact .refl setup _
    | some m =>
      exact Reader.Records.trans ((Reader.invariant_records _ q.reader).headOfMacro m site (.refl setup _))
        (records_head_expandNext taken called)

/-- An expanded token is the same, unless the run ends on the way to it. -/
theorem expandNext_ending (setup : Setup) (p : Preprocessor) :
    p.expandNext (setup.ending true) = p.expandNext (setup.ending false)
      ∨ (p.expandNext (setup.ending true)).2.reader.IsCut
        (p.expandNext (setup.ending false)).2.reader := by
  induction left : p.amount (setup.ending true) using
    (Prod.instWellFoundedRelation : WellFoundedRelation ((Levels × Nat) × Levels)).wf.induction
    generalizing p with
  | h left ih =>
    subst left
    obtain taken | cut := take_ending setup p
    · cases strict : p.take (setup.ending true) with
      | mk site q =>
        have lenient := taken.symm.trans strict
        cases called : Head.called? q.reader.session.macros site with
        | none => exact .inl (by
            rw [expandNext_of_none strict called, expandNext_of_none lenient called])
        | some m =>
          obtain head | cut := headOfMacro_ending setup m site q
          · cases found : headOfMacro (setup.ending true) m site q with
            | mk asked r =>
              have found' := head.symm.trans found
              rw [expandNext_of_some strict called, expandNext_of_some lenient called, found, found']
              cases asked with
              | plain token rest => exact .inl rfl
              | builtin kind token rest => exact .inl (by simp only [context_ending])
              | rejected code token rest => exact .inl rfl
              | call c =>
                simp only [← replaceCall_ending]
                exact ih _ (lex_of_less (less_of_replaceCall strict called found)) _ rfl
          · exact .inr (cut.of_records (records_head_expandNext strict called)
              (records_head_expandNext lenient called))
    · exact .inr (cut.of_records (records_take_expandNext _ p) (records_take_expandNext _ p))

/-! ## Pragma operators -/

theorem records_closeOperand (setup : Setup) (keyword opening literal : Token)
    (close : Token × Preprocessor) :
    close.2.reader.Records setup (closeOperand keyword opening literal close).2.reader := by
  unfold closeOperand
  split
  · exact .refl setup _
  · exact (Reader.invariant_records _ _).report (.refl setup _) _ _ _

theorem records_expandNext_readOperand (setup : Setup) (keyword : Token) (p : Preprocessor) :
    (p.expandNext setup).2.reader.Records setup (p.readOperand setup keyword).2.reader := by
  cases isOpen : (p.expandNext setup).1.isOpen with
  | false =>
    rw [readOperand_of_not_isOpen keyword isOpen]
    exact .refl setup _
  | true =>
    rw [readOperand_of_isOpen keyword isOpen]
    exact ((records_expandNext setup _).trans (records_expandNext setup _)).trans
      (records_closeOperand setup _ _ _ _)

/-- An operand is read in the same way, unless the run ends on the way. -/
theorem readOperand_ending (setup : Setup) (keyword : Token) (p : Preprocessor) :
    p.readOperand (setup.ending true) keyword = p.readOperand (setup.ending false) keyword
      ∨ (p.readOperand (setup.ending true) keyword).2.reader.IsCut
        (p.readOperand (setup.ending false) keyword).2.reader := by
  obtain opening | cut := expandNext_ending setup p
  · cases isOpen : (p.expandNext (setup.ending true)).1.isOpen with
    | false =>
      rw [readOperand_of_not_isOpen keyword isOpen, readOperand_of_not_isOpen keyword (opening ▸ isOpen),
        opening]
      exact .inl rfl
    | true =>
      rw [readOperand_of_isOpen keyword isOpen, readOperand_of_isOpen keyword (opening ▸ isOpen), opening]
      generalize p.expandNext (setup.ending false) = opening
      obtain literal | cut := expandNext_ending setup opening.2
      · rw [literal]
        generalize opening.2.expandNext (setup.ending false) = literal
        obtain close | cut := expandNext_ending setup literal.2
        · rw [close]
          exact .inl rfl
        · exact .inr (cut.of_records (records_closeOperand (setup.ending true) keyword _ _ _)
            (records_closeOperand (setup.ending false) keyword _ _ _))
      · exact .inr (cut.of_records
          ((records_expandNext _ _).trans (records_closeOperand (setup.ending true) keyword _ _ _))
          ((records_expandNext _ _).trans (records_closeOperand (setup.ending false) keyword _ _ _)))
  · exact .inr (cut.of_records (records_expandNext_readOperand _ keyword p)
      (records_expandNext_readOperand _ keyword p))

theorem applyPragma_ending (setup : Setup) (keyword literal : Token) (p : Preprocessor) :
    p.applyPragma (setup.ending true) keyword literal
      = p.applyPragma (setup.ending false) keyword literal := by
  have tokens : pragmaTokens (setup.ending true) keyword literal
      = pragmaTokens (setup.ending false) keyword literal := rfl
  simp only [applyPragma, tokens, executePragma, Directive.pragma_congr setup.directsAs_ending]

/-! ## Calls for a token -/

theorem isAborted_iff : p.isAborted = true ↔ p.reader.status = .aborted := by
  rw [isAborted, decide_eq_true_eq]

theorem records_afterOperand (setup : Setup) (keyword : Token)
    (found : Option PragmaOperand × Preprocessor) :
    found.2.reader.Records setup (afterOperand setup keyword found).2.reader := by
  obtain ⟨operand, q⟩ := found
  have invariant := Reader.invariant_records setup q.reader
  cases operand with
  | none => exact .refl setup _
  | some operand =>
    have applied := invariant.applyPragma keyword operand.literal (.refl setup _)
    unfold afterOperand
    simp only []
    split
    all_goals
      rename_i done
      rw [done] at applied
    · exact invariant.give (invariant.checkAbort applied)
    · exact invariant.next applied

/-- What is done in the call for a token once a token has been expanded. -/
theorem records_expandNext_next (setup : Setup) (running : ¬p.isAborted = true) :
    (p.expandNext setup).2.reader.Records setup (p.next setup).2.reader := by
  have invariant := Reader.invariant_records setup (p.expandNext setup).2.reader
  have asked := invariant.checkAbort (.refl setup _)
  by_cases ended : ((p.expandNext setup).2.checkAbort setup).isAborted = true
  · rw [next_of_ended running ended]
    exact invariant.finish asked
  · by_cases starts : startsPragma (p.expandNext setup).1 = true
    · rw [next_of_operator running starts ended]
      exact (invariant.readOperand _ asked).trans (records_afterOperand setup _ _)
    · rw [next_of_plain running starts]
      exact invariant.give asked

/-- A run that has ended gives the end of its file. -/
theorem isEnd_give (token : Token) (ended : p.isAborted = true) : (give token p).1.isEnd = true := by
  rw [give, if_pos ended]
  exact p.finish_facts.1

/-- If the run ends while an operand is read, nothing is given, or the operator itself. -/
theorem afterOperand_of_isAborted (keyword : Token) {found : Option PragmaOperand × Preprocessor}
    (ended : found.2.isAborted = true) :
    (afterOperand setup keyword found).1.isEnd = true
      ∨ (afterOperand setup keyword found).1 = keyword := by
  obtain ⟨operand, q⟩ := found
  cases operand with
  | none => exact .inr rfl
  | some operand =>
    have applied := (Reader.invariant_records setup q.reader).applyPragma keyword
      operand.literal (.refl setup _)
    have kept := applied.ended (isAborted_iff.mp ended)
    refine .inl ?_
    unfold afterOperand
    simp only []
    split
    all_goals
      rename_i done
      rw [done] at kept
    · exact isEnd_give _ (isAborted_iff.mpr ((Reader.beside_checkAbort setup _).ended kept))
    · rw [next_of_aborted (isAborted_iff.mpr kept)]
      exact (finish_facts _).1

/-- What is given after a check is the same, unless the check ends the run. -/
theorem give_ending (setup : Setup) (token : Token) (tokens : List Token) (p : Preprocessor) :
    give token ((p.checkAbort (setup.ending true)).pushBack tokens)
        = give token ((p.checkAbort (setup.ending false)).pushBack tokens)
      ∨ (give token ((p.checkAbort (setup.ending true)).pushBack tokens)).2.reader.IsCut
          (give token ((p.checkAbort (setup.ending false)).pushBack tokens)).2.reader
        ∧ (give token ((p.checkAbort (setup.ending true)).pushBack tokens)).1.isEnd = true := by
  obtain same | cut := Reader.checkAbort_ending setup p.reader
  · exact .inl (by simp only [checkAbort, same])
  · have ended : ((p.checkAbort (setup.ending true)).pushBack tokens).isAborted = true :=
      isAborted_iff.mpr cut.ended
    have given : (p.checkAbort (setup.ending true)).reader.Records setup
        (give token ((p.checkAbort (setup.ending true)).pushBack tokens)).2.reader :=
      (Reader.invariant_records setup _).give (.refl setup _)
    have journal := journal_give token ((p.checkAbort (setup.ending false)).pushBack tokens)
    refine .inr ⟨⟨given.ended cut.ended, ?_⟩, isEnd_give token ended⟩
    exact Nat.lt_of_lt_of_eq cut.error (congrArg Journal.errorCount journal.symm)

/-- A call gives the same, or it ends the run: it gives the end of the file, or the operator whose
operand it was reading. -/
theorem next_ending (setup : Setup) (p : Preprocessor) :
    p.next (setup.ending true) = p.next (setup.ending false)
      ∨ (p.next (setup.ending true)).2.reader.IsCut (p.next (setup.ending false)).2.reader
        ∧ ((p.next (setup.ending true)).1.isEnd = true
          ∨ startsPragma (p.next (setup.ending true)).1 = true) := by
  induction left : p.amount (setup.ending true) using
    (Prod.instWellFoundedRelation : WellFoundedRelation ((Levels × Nat) × Levels)).wf.induction
    generalizing p with
  | h left ih =>
    subst left
    by_cases aborted : p.isAborted = true
    · exact .inl (by rw [next_of_aborted aborted, next_of_aborted aborted])
    have goesOn (setup : Setup) := records_expandNext_next setup aborted
    obtain expanded | cut := expandNext_ending setup p
    · obtain asked | cut := Reader.checkAbort_ending setup (p.expandNext (setup.ending true)).2.reader
      · have asked : (p.expandNext (setup.ending true)).2.checkAbort (setup.ending true)
            = (p.expandNext (setup.ending false)).2.checkAbort (setup.ending false) := by
          rw [checkAbort, asked, expanded]
          rfl
        by_cases ended : ((p.expandNext (setup.ending true)).2.checkAbort
            (setup.ending true)).isAborted = true
        · exact .inl (by
            rw [next_of_ended aborted ended, next_of_ended aborted (asked ▸ ended), asked])
        by_cases starts : startsPragma (p.expandNext (setup.ending true)).1 = true
        · have strict := next_of_operator aborted starts ended
          have lenient := next_of_operator aborted (expanded ▸ starts) (asked ▸ ended)
          rw [strict, lenient, ← asked, ← expanded]
          obtain same | cut := readOperand_ending setup (p.expandNext (setup.ending true)).1
            ((p.expandNext (setup.ending true)).2.checkAbort (setup.ending true))
          · cases read : ((p.expandNext (setup.ending true)).2.checkAbort
                (setup.ending true)).readOperand (setup.ending true)
                (p.expandNext (setup.ending true)).1 with
            | mk operand q =>
              rw [← same, read]
              cases operand with
              | none => exact .inl rfl
              | some operand =>
                have less := less_of_pragma rfl starts read
                simp only [afterOperand, ← applyPragma_ending]
                cases applied : q.applyPragma (setup.ending true) (p.expandNext (setup.ending true)).1
                    operand.literal with
                | mk passes q =>
                  rw [applied] at less
                  cases passes with
                  | false => exact ih _ (lex_of_less less) q rfl
                  | true =>
                    exact (give_ending setup _ _ q).imp_right fun cut => ⟨cut.1, .inl cut.2⟩
          · refine .inr ⟨cut.of_records (records_afterOperand _ _ _) (records_afterOperand _ _ _),
              (afterOperand_of_isAborted _ (isAborted_iff.mpr cut.ended)).imp_right fun same => ?_⟩
            rw [same]
            exact starts
        · rw [next_of_plain aborted starts, next_of_plain aborted (expanded ▸ starts), asked, expanded]
          exact .inl rfl
      · have ended : ((p.expandNext (setup.ending true)).2.checkAbort
            (setup.ending true)).isAborted = true := isAborted_iff.mpr cut.ended
        have final := ((p.expandNext (setup.ending true)).2.checkAbort (setup.ending true)).finish_facts
        refine .inr ⟨⟨?_, ?_⟩, .inl ?_⟩
        · rw [next_of_ended aborted ended]
          exact isAborted_iff.mp (final.2.1.trans ended)
        · have error := cut.error
          rw [Reader.checkAbort_of_lenient (rfl : (setup.ending false).config.failFast = false),
            expanded] at error
          exact Nat.lt_of_lt_of_le error (goesOn _).reports.errorCount_le
        · rw [next_of_ended aborted ended]
          exact final.1
    · have ended : ((p.expandNext (setup.ending true)).2.checkAbort
          (setup.ending true)).isAborted = true :=
        isAborted_iff.mpr ((Reader.beside_checkAbort _ _).ended cut.ended)
      refine .inr ⟨cut.of_records (goesOn _) (goesOn _), .inl ?_⟩
      rw [next_of_ended aborted ended]
      exact (finish_facts _).1

/-! ## Runs -/

/-- The tokens before the end of the file. -/
def output (tokens : List Token) : List Token :=
  tokens.filter fun token => !token.isEnd

theorem records_next_tokensWithin (setup : Setup) (p : Preprocessor) (n : Nat) :
    (p.next setup).2.reader.Records setup (p.tokensWithin setup (n + 1)).2.reader := by
  cases ends : (p.next setup).1.isEnd with
  | true =>
    rw [tokensWithin_of_isEnd ends]
    exact .refl setup _
  | false =>
    rw [tokensWithin_of_more ends]
    exact (Reader.invariant_records _ _).tokensWithin (.refl setup _) n

/-- A run that has ended has no more tokens. -/
theorem output_of_isAborted (setup : Setup) (ended : p.isAborted = true) (n : Nat) :
    output (p.tokensWithin setup n).1 = [] := by
  have isEnd := p.finish_facts.1
  cases n with
  | zero => simp [tokensWithin, output, isEnd]
  | succ n =>
    rw [tokensWithin_of_isEnd (by rwa [next_of_aborted ended]), next_of_aborted ended]
    simp [output, isEnd]

/-- The call gives a pragma operator although the run ends while its operand is read. -/
structure EndsInOperand (setup : Setup) (p : Preprocessor) : Prop where
  running : p.isAborted = false
  gives : startsPragma (p.next setup).1 = true
  ends : (p.next setup).2.isAborted = true

/-- Tokens of a run are the first ones of others, but perhaps for the last token: it may be a pragma
operator that the run has given although it ended while the operand was read. -/
inductive Truncates (setup : Setup) (p : Preprocessor) (tokens others : List Token) : Prop where
  | first (isPrefix : tokens <+: others)
  | operator (before : List Token) (isPrefix : before <+: others)
      (ends : (p.afterCalls setup before.length).EndsInOperand setup)
      (same : tokens = before ++ [((p.afterCalls setup before.length).next setup).1])

theorem Truncates.cons {tokens others : List Token} (more : (p.next setup).2.Truncates setup tokens others)
    (token : Token) : p.Truncates setup (token :: tokens) (token :: others) := by
  cases more with
  | first isPrefix => exact .first (List.cons_prefix_cons.mpr ⟨rfl, isPrefix⟩)
  | operator before isPrefix ends same =>
    rw [afterCalls_next] at ends same
    exact .operator (token :: before) (List.cons_prefix_cons.mpr ⟨rfl, isPrefix⟩) ends
      (congrArg (token :: ·) same)

/-- Two runs give the same, or the one that ends with its first error gives what the other one gives
first, and there is an error in the other one. -/
theorem tokensWithin_ending (setup : Setup) (n : Nat) (p : Preprocessor) :
    p.tokensWithin (setup.ending true) n = p.tokensWithin (setup.ending false) n
      ∨ 0 < (p.tokensWithin (setup.ending false) n).2.journal.errorCount
        ∧ p.Truncates (setup.ending true) (output (p.tokensWithin (setup.ending true) n).1)
          (output (p.tokensWithin (setup.ending false) n).1) := by
  induction n generalizing p with
  | zero => exact .inl rfl
  | succ n ih =>
    obtain same | ⟨cut, given⟩ := next_ending setup p
    · cases ends : (p.next (setup.ending false)).1.isEnd with
      | true =>
        rw [tokensWithin_of_isEnd ends, tokensWithin_of_isEnd (same ▸ ends), same]
        exact .inl rfl
      | false =>
        have first (tokens : List Token) : output ((p.next (setup.ending false)).1 :: tokens)
            = (p.next (setup.ending false)).1 :: output tokens := by
          simp [output, ends]
        rw [tokensWithin_of_more ends, tokensWithin_of_more (same ▸ ends), same]
        refine (ih (p.next (setup.ending false)).2).imp (fun equal => by rw [equal])
          fun ⟨error, truncates⟩ => ⟨error, ?_⟩
        rw [← same] at truncates
        rw [first, first, ← same]
        exact truncates.cons _
    · have later := records_next_tokensWithin (setup.ending false) p n
      refine .inr ⟨Nat.lt_of_lt_of_le cut.error later.reports.errorCount_le, ?_⟩
      cases ends : (p.next (setup.ending true)).1.isEnd with
      | true =>
        rw [tokensWithin_of_isEnd ends]
        refine .first ?_
        simp [output, ends]
      | false =>
        rw [ends] at given
        have starts := given.resolve_left Bool.false_ne_true
        rw [tokensWithin_of_more ends]
        have nothing := output_of_isAborted (setup.ending true)
          (isAborted_iff.mpr cut.ended) n
        refine .operator [] List.nil_prefix ⟨?_, starts, isAborted_iff.mpr cut.ended⟩ ?_
        · refine Bool.eq_false_iff.mpr fun aborted => ?_
          have aborted : p.isAborted = true := aborted
          rw [next_of_aborted aborted, p.finish_facts.1] at ends
          cases ends
        · simp only [output] at nothing ⊢
          simp [ends, nothing, afterCalls]

/-- A main file that cannot be read is reported in the same way, and every other one is opened in the
same way. The run that ends with its first error then gives a beginning of what the other one gives, but
perhaps for a last pragma operator whose operand was not read; and if there is no error in the other
run, the two runs are the same. -/
theorem failFast_truncates (created : create (setup.ending true) = .ok p)
    (source : Except SourceError Source) (name : Text) :
    create (setup.ending false) = .ok p
      ∧ ∃ strict lenient,
        p.runOpened (setup.ending true) name (p.openMain (setup.ending true) source name) = .ok strict
        ∧ p.runOpened (setup.ending false) name (p.openMain (setup.ending false) source name)
          = .ok lenient
        ∧ (strict.1 = lenient.1
          ∨ 0 < lenient.1.errorCount ∧ ∃ q, p.openMain (setup.ending true) source name = .ok q
            ∧ q.Truncates (setup.ending true) (output strict.1.tokens) (output lenient.1.tokens)) := by
  have isNew := isNew_of_create created
  have opening : p.openMain (setup.ending true) source name
      = p.openMain (setup.ending false) source name := rfl
  refine ⟨created, ?_⟩
  cases source with
  | error cause => exact ⟨_, _, rfl, rfl, .inl rfl⟩
  | ok text =>
    have opened : p.openMain (setup.ending true) (.ok text) name = .ok
        { p with reader :=
          openPreamble (setup.ending true) (p.mainReader (setup.ending true) text name) } :=
      isNew.openMain_eq_ok.mpr ⟨text, rfl, rfl⟩
    rw [← opening, opened]
    refine ⟨_, _, rfl, rfl, ?_⟩
    obtain same | ⟨error, truncates⟩ := tokensWithin_ending setup greatestLength _
    · refine .inl ?_
      simp only [run]
      rw [same]
    · exact .inr ⟨error, _, rfl, truncates⟩

/-! A main file whose first error stands where a pragma operator looks for its operand. -/

/-- The main file. -/
def interruptedText : Text :=
  "_Pragma\n#error\n(\"once\")\n".toList

/-- The run that has opened the main file. -/
def interruptedRun : Preprocessor where
  reader := Reader.freshRun.mainReader strictSetup (.ofDecoded false interruptedText) ['m']

/-- The first step gives a pragma operator that calls no macro, and the next one ends the run. -/
def stopsAfterOperator (r : Reader) : Bool :=
  match r.step strictSetup with
  | .give token next =>
    startsPragma token && (Head.called? next.session.macros token).isNone
      && next.session.journal.errorCount = 0 && next.status = .ok
      && stopsAtError (next.step strictSetup)
  | .goOn _ => false

theorem interruptedRun_stops : stopsAfterOperator interruptedRun.reader = true := by
  decide +kernel

/-- The operator is given all the same. -/
theorem interruptedRun_endsInOperand : interruptedRun.EndsInOperand strictSetup := by
  have stops := interruptedRun_stops
  unfold stopsAfterOperator at stops
  cases stepped : interruptedRun.reader.step strictSetup with
  | goOn next =>
    rw [stepped] at stops
    cases stops
  | give token next =>
    rw [stepped] at stops
    simp only [Bool.and_eq_true, decide_eq_true_eq, Option.isNone_iff_eq_none] at stops
    obtain ⟨⟨⟨⟨starts, uncalled⟩, clean⟩, ok⟩, stops⟩ := stops
    cases again : next.step strictSetup with
    | give other after =>
      rw [again] at stops
      cases stops
    | goOn last =>
      rw [again] at stops
      simp only [stopsAtError, Bool.and_eq_true, decide_eq_true_eq, List.isEmpty_iff] at stops
      obtain ⟨⟨-, aborted⟩, idle⟩ := stops
      let ended : Preprocessor := { reader := last }
      have isEnd := ended.finish_facts.1
      have running : ¬interruptedRun.isAborted = true := by decide
      have expanded : interruptedRun.expandNext strictSetup = (token, { reader := next }) := by
        refine expandNext_of_none ?_ uncalled
        rw [take, show interruptedRun.pending = [] from rfl, Reader.pull_of_give stepped]
      have asked : (interruptedRun.expandNext strictSetup).2.checkAbort strictSetup
          = { reader := next } := by
        rw [expanded, checkAbort, Reader.checkAbort, clean]
        simp
      have nothing : Preprocessor.expandNext strictSetup { reader := next } = ended.finish := by
        refine expandNext_of_none ?_ (called?_of_isEnd isEnd)
        rw [take, Reader.pull_of_goOn again, Reader.pull_of_isFinished ⟨idle, .inr aborted⟩]
      have final : ended.finish.2.isAborted = true := by
        rw [ended.finish_facts.2.1]
        exact isAborted_iff.mpr aborted
      have given : interruptedRun.next strictSetup
          = (token, ended.finish.2.pushBack [ended.finish.1]) := by
        rw [next_of_operator running (by rw [expanded]; exact starts)
          (by rw [asked, isAborted, ok]; decide), asked, readOperand_of_not_isOpen, nothing, expanded]
        · rfl
        · rw [nothing]
          exact isOpen_of_isEnd isEnd
      refine ⟨Bool.eq_false_iff.mpr running, ?_, ?_⟩
      · rw [given]
        exact starts
      · rw [given]
        exact final

/-- The first error ends the run that has opened the file where the operator looks for its operand. -/
theorem failFast_truncates_interrupted :
    create (strictSetup.ending true) = .ok Reader.freshRun
      ∧ (Reader.freshRun.openMain (strictSetup.ending true) (.ok (.ofDecoded false interruptedText))
          ['m'] = .ok interruptedRun
        ∧ interruptedRun.EndsInOperand (strictSetup.ending true))
      ∧ ∃ strict lenient,
        Reader.freshRun.runOpened (strictSetup.ending true) ['m']
            (Reader.freshRun.openMain (strictSetup.ending true)
              (.ok (.ofDecoded false interruptedText)) ['m']) = .ok strict
        ∧ Reader.freshRun.runOpened (strictSetup.ending false) ['m']
            (Reader.freshRun.openMain (strictSetup.ending false)
              (.ok (.ofDecoded false interruptedText)) ['m']) = .ok lenient
        ∧ (strict.1 = lenient.1
          ∨ 0 < lenient.1.errorCount
            ∧ ∃ q, Reader.freshRun.openMain (strictSetup.ending true)
                (.ok (.ofDecoded false interruptedText)) ['m'] = .ok q
              ∧ q.Truncates (strictSetup.ending true) (output strict.1.tokens)
                (output lenient.1.tokens)) :=
  ⟨rfl, ⟨rfl, interruptedRun_endsInOperand⟩,
    (failFast_truncates (rfl : create (strictSetup.ending true) = .ok _)
      (.ok (.ofDecoded false interruptedText)) ['m']).2⟩

end Preprocessor

end CPreprocessor
