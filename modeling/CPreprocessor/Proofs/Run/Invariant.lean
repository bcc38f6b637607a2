/-
# What holds all along a run

A run changes its reader in two ways only: by a step of reading, and between steps, where
macros are expanded and pragma operators are carried out, in ways that touch neither
the open files nor the open conditionals nor the recorded guards (`Reader.Beside`), that
take no report back, and that end the run only for an error (`Reader.Between`). A
property of readers that both keep is an invariant, and holds of every reader that a
run goes through (`Invariant.tokensWithin`).
-/
import CPreprocessor.Preprocessor.Run
import CPreprocessor.Proofs.Directive.Layers
import CPreprocessor.Proofs.Directive.Reports

namespace CPreprocessor

namespace Reader

/-- The readers have the same files and conditionals open and the same guards recorded. A run that has
ended early has still done so. -/
structure Beside (r next : Reader) : Prop where
  frames : next.frames = r.frames
  queued : next.queued = r.queued
  guards : next.guards = r.guards
  conditions : next.session.conditions = r.session.conditions
  ended : r.status = .aborted → next.status = .aborted

theorem Beside.refl (r : Reader) : r.Beside r :=
  ⟨rfl, rfl, rfl, rfl, id⟩

/-- Reports have been added and none taken back, and if the run has been ended, it could go on before,
there is an error and the run is to end with its first one. -/
structure Records (setup : Setup) (r next : Reader) : Prop where
  reports : r.session.journal.Precedes next.session.journal
  status : next.status = r.status
    ∨ r.status = .ok ∧ next.status = .aborted ∧ setup.config.failFast = true
      ∧ 0 < next.session.journal.errorCount

/-- What happens to a reader between two steps. -/
structure Between (setup : Setup) (r next : Reader) : Prop extends r.Beside next, r.Records setup next

/-- A property that steps of reading keep, and what happens between them. -/
structure Invariant (setup : Setup) (P : Reader → Prop) : Prop where
  step : ∀ {r next} (token), P r →
    r.step setup = .give token next ∨ r.step setup = .goOn next → P next
  between : ∀ {r next}, P r → r.Between setup next → P next

theorem Records.refl (setup : Setup) (r : Reader) : r.Records setup r :=
  ⟨.refl _, .inl rfl⟩

theorem Records.trans {setup : Setup} {r next later : Reader} (records : r.Records setup next)
    (more : next.Records setup later) : r.Records setup later where
  reports := records.reports.trans more.reports
  status := by
    obtain same | ⟨ok, ended⟩ := more.status
    · obtain kept | ⟨ok, aborted, failFast, errors⟩ := records.status
      · exact .inl (same.trans kept)
      · exact .inr ⟨ok, same.trans aborted, failFast,
          Nat.lt_of_lt_of_le errors more.reports.errorCount_le⟩
    · obtain kept | ⟨-, aborted, -⟩ := records.status
      · exact .inr ⟨kept.symm.trans ok, ended⟩
      · rw [aborted] at ok
        cases ok

theorem Between.refl (setup : Setup) (r : Reader) : r.Between setup r :=
  ⟨.refl r, .refl setup r⟩

/-- Between two steps the reports grow, and nothing else of the reader matters. -/
theorem Between.of_reports (setup : Setup) {r next : Reader} (beside : r.Beside next)
    (reports : r.session.journal.Precedes next.session.journal) (status : next.status = r.status) :
    r.Between setup next :=
  ⟨beside, reports, .inl status⟩

theorem between_checkAbort (setup : Setup) (r : Reader) : r.Between setup (r.checkAbort setup) := by
  unfold checkAbort
  split
  · rename_i aborts
    simp only [Bool.and_eq_true, decide_eq_true_eq] at aborts
    exact ⟨⟨rfl, rfl, rfl, rfl, fun _ => rfl⟩, .refl _, .inr ⟨aborts.2, rfl, aborts.1⟩⟩
  · exact .refl setup r

theorem beside_checkAbort (setup : Setup) (r : Reader) : r.Beside (r.checkAbort setup) :=
  (between_checkAbort setup r).toBeside

theorem checkAbort_of_lenient {setup : Setup} (lenient : setup.config.failFast = false) (r : Reader) :
    r.checkAbort setup = r := by
  simp only [checkAbort, lenient, Bool.false_and, Bool.false_eq_true, if_false]

theorem between_finish (setup : Setup) (r : Reader) : r.Between setup r.finish.2 := by
  unfold finish
  split
  · exact .refl setup r
  · exact ⟨⟨rfl, rfl, rfl, rfl, id⟩, .refl _, .inl rfl⟩

theorem beside_finish (r : Reader) : r.Beside r.finish.2 :=
  (between_finish {} r).toBeside

end Reader

namespace Reader.Invariant

open Preprocessor

variable {setup : Setup} {P : Reader → Prop} (invariant : Invariant setup P)
include invariant

theorem pull {r : Reader} (holds : P r) : P (r.pull setup).2 := by
  fun_induction Reader.pull setup r with
  | case1 r token after stepped => exact invariant.step token holds (.inl stepped)
  | case2 r after stepped ih => exact ih (invariant.step .endOfNothing holds (.inr stepped))

theorem gather {depth : Nat} {r : Reader} (holds : P r) : P (gather setup depth r).2 := by
  fun_induction Preprocessor.gather setup depth r with
  | case1 depth r ends => exact invariant.pull holds
  | case2 depth r depth' goesOn more ih => exact ih (invariant.pull holds)

theorem gatherFrom {opening : Token} {inner : List Token} {r : Reader} (holds : P r) :
    P (gatherFrom setup opening inner r).2 := by
  unfold Preprocessor.gatherFrom
  split
  · exact holds
  · exact invariant.gather holds

theorem gatherCall {pending : List Token} {r : Reader} (holds : P r) :
    P (gatherCall setup r pending).2 := by
  cases pending with
  | cons opening inner => exact invariant.gatherFrom holds
  | nil => exact invariant.gatherFrom (invariant.pull holds)

theorem headOfMacro (m : Macro) (site : Token) {p : Preprocessor} (holds : P p.reader) :
    P (headOfMacro setup m site p).2 := by
  unfold Preprocessor.headOfMacro
  split
  · exact invariant.gatherCall holds
  · exact holds

theorem take {p : Preprocessor} (holds : P p.reader) : P (p.take setup).2.reader := by
  unfold Preprocessor.take
  split
  · exact holds
  · exact invariant.pull holds

theorem withExpansion {r : Reader} (holds : P r) {expansion : Expansion.State}
    (reports : r.session.journal.Precedes expansion.journal) : P (withExpansion r expansion) :=
  invariant.between holds (.of_reports setup ⟨rfl, rfl, rfl, rfl, id⟩ reports rfl)

theorem report {r : Reader} (holds : P r) (token : Token) (code : Code) (detail : Text) :
    P (r.report token code detail) :=
  invariant.between holds
    (.of_reports setup ⟨rfl, rfl, rfl, rfl, id⟩ (r.session.precedes_report token code detail) rfl)

theorem expandNext {p : Preprocessor} (holds : P p.reader) : P (p.expandNext setup).2.reader := by
  fun_induction Preprocessor.expandNext setup p with
  | case1 p site q taken notCalled =>
    have next := invariant.take holds
    rwa [taken] at next
  | case2 p site q taken m called token rest r found =>
    have next := invariant.take holds
    rw [taken] at next
    have next := invariant.headOfMacro m site next
    rwa [found] at next
  | case3 p site q taken m called kind token rest r found done =>
    have next := invariant.take holds
    rw [taken] at next
    have next := invariant.headOfMacro m site next
    rw [found] at next
    exact invariant.withExpansion next (Expansion.precedes_expandBuiltin _ kind site _)
  | case4 p site q taken m called code token rest r found =>
    have next := invariant.take holds
    rw [taken] at next
    have next := invariant.headOfMacro m site next
    rw [found] at next
    exact invariant.report next site code site.lexeme
  | case5 p site q taken m called c r found ih =>
    have next := invariant.take holds
    rw [taken] at next
    have next := invariant.headOfMacro m site next
    rw [found] at next
    exact ih (invariant.withExpansion next (Expansion.precedes_expandCall _ c _))

theorem readOperand (keyword : Token) {p : Preprocessor} (holds : P p.reader) :
    P (p.readOperand setup keyword).2.reader := by
  have opening := invariant.expandNext holds
  have literal := invariant.expandNext opening
  have close := invariant.expandNext literal
  unfold Preprocessor.readOperand
  simp only []
  split
  · exact opening
  · split
    · exact close
    · exact invariant.report close _ _ _

theorem applyPragma (keyword literal : Token) {p : Preprocessor} (holds : P p.reader) :
    P (p.applyPragma setup keyword literal).2.reader := by
  have executed (args : List Token) : P (p.executePragma setup keyword args).2.reader := by
    unfold Preprocessor.executePragma
    simp only []
    split
    · exact invariant.between holds
        (.of_reports setup ⟨rfl, rfl, rfl, Directive.conditions_pragma _ _ _ _, id⟩
          (Directive.precedes_pragma _ _ _ _) rfl)
    · exact holds
  have marked {q : Preprocessor} (holds : P q.reader) : P q.markOnce.reader := by
    unfold Preprocessor.markOnce
    split
    · exact holds
    · split
      · exact holds
      · exact invariant.between holds
          (.of_reports setup ⟨rfl, rfl, rfl, rfl, id⟩ (Journal.Precedes.refl _) rfl)
  unfold Preprocessor.applyPragma
  split
  · exact invariant.report holds _ _ _
  · rename_i args _
    have after := executed args
    split
    all_goals
      rename_i done
      rw [done] at after
    · exact marked after
    · exact after
    · exact after

theorem finish {p : Preprocessor} (holds : P p.reader) : P p.finish.2.reader :=
  invariant.between holds (Reader.between_finish setup p.reader)

theorem checkAbort {p : Preprocessor} (holds : P p.reader) : P (p.checkAbort setup).reader :=
  invariant.between holds (Reader.between_checkAbort setup p.reader)

theorem give {token : Token} {p : Preprocessor} (holds : P p.reader) : P (give token p).2.reader := by
  unfold Preprocessor.give
  split
  · exact invariant.finish holds
  · exact holds

theorem next {p : Preprocessor} (holds : P p.reader) : P (p.next setup).2.reader := by
  fun_induction Preprocessor.next setup p with
  | case1 p aborted => exact invariant.finish holds
  | case2 p running token q starts aborted =>
    exact invariant.finish (invariant.checkAbort (invariant.expandNext holds))
  | case3 p running token q starts goesOn q' read =>
    have operand := invariant.readOperand token
      (invariant.checkAbort (invariant.expandNext holds))
    rwa [read] at operand
  | case4 p running token q starts goesOn operand q' read q'' applied =>
    have after := invariant.readOperand token
      (invariant.checkAbort (invariant.expandNext holds))
    rw [read] at after
    have done := invariant.applyPragma token operand.literal after
    rw [applied] at done
    exact invariant.give (invariant.checkAbort done)
  | case5 p running token q starts goesOn operand q' read q'' applied ih =>
    have after := invariant.readOperand token
      (invariant.checkAbort (invariant.expandNext holds))
    rw [read] at after
    have done := invariant.applyPragma token operand.literal after
    rw [applied] at done
    exact ih done
  | case6 p running token q plain =>
    exact invariant.give (invariant.checkAbort (invariant.expandNext holds))

/-- An invariant that holds of a reader holds after any number of tokens. -/
theorem tokensWithin {p : Preprocessor} (holds : P p.reader) (n : Nat) :
    P (p.tokensWithin setup n).2.reader := by
  induction n generalizing p with
  | zero => exact invariant.finish holds
  | succ n ih =>
    have after := invariant.next holds
    unfold Preprocessor.tokensWithin
    simp only []
    split
    · exact after
    · exact ih after

end Reader.Invariant

end CPreprocessor
