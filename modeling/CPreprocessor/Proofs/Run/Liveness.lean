/-
# Conditionals of a run

A run changes the open conditionals by the operations on them alone: a conditional
directive carries out one of them at most, the end of a file closes what the file has
left open, and nothing else touches them (`Reader.leadsTo_step`). So what these operations keep holds
at every place of every run: the place counts exactly if every branch around it does
(`Preprocessor.isLive_tokensWithin_iff`).
-/
import CPreprocessor.Proofs.Condition.Liveness
import CPreprocessor.Proofs.Include.Separation
import CPreprocessor.Proofs.Run.Shape

namespace CPreprocessor

open ConditionStack (AreNested)

/-- The second conditionals come from the first ones by operations on them. -/
def ConditionStack.LeadsTo (conditions after : ConditionStack) : Prop :=
  ∃ operations, after = conditions.applyAll operations

namespace ConditionStack.LeadsTo

variable {conditions next after : ConditionStack}

theorem of_eq (same : after = conditions) : conditions.LeadsTo after :=
  ⟨[], same⟩

theorem one (operation : Operation) : conditions.LeadsTo (conditions.apply operation) :=
  ⟨[operation], rfl⟩

theorem trans (leads : conditions.LeadsTo next) (more : next.LeadsTo after) :
    conditions.LeadsTo after := by
  obtain ⟨operations, rfl⟩ := leads
  obtain ⟨others, rfl⟩ := more
  exact ⟨operations ++ others, List.foldl_append.symm⟩

theorem areNested (leads : conditions.LeadsTo after) (nested : AreNested conditions.frames) :
    AreNested after.frames := by
  obtain ⟨operations, rfl⟩ := leads
  exact nested.applyAll operations

end ConditionStack.LeadsTo

namespace Directive

variable (d : Directive) (setup : Setup) (place : Place) (s : Session)

theorem leadsTo_enterBranch {enter : ConditionFrame → Session}
    (enters : ∀ frame, s.conditions.LeadsTo (enter frame).conditions) :
    s.conditions.LeadsTo (d.enterBranch place s enter).conditions := by
  unfold enterBranch
  split
  · exact .of_eq rfl
  · split
    · exact .one .skipRest
    · exact enters _

theorem conditions_reportAnyToken (frame : ConditionFrame) :
    (d.reportAnyToken frame s).conditions = s.conditions := by
  unfold reportAnyToken
  split
  · exact d.conditions_reportExtra s 0
  · rfl

theorem leadsTo_turn (condition : Bool) :
    s.conditions.LeadsTo (d.turn place s condition).conditions := by
  unfold turn
  split
  · exact .one (.push d.hash condition place.includeDepth)
  · exact .one (.push d.hash condition place.includeDepth)
  · exact .one (.push d.hash condition place.includeDepth)
  · exact d.leadsTo_enterBranch place s fun _ => .one (.enterFurther condition)
  · exact d.leadsTo_enterBranch place s fun _ => .one (.enterFurther condition)
  · exact d.leadsTo_enterBranch place s fun _ => .one (.enterFurther condition)
  · refine d.leadsTo_enterBranch place s fun frame => ?_
    simp only [d.conditions_reportAnyToken s frame]
    exact .one .enterLast
  · unfold closeCondition
    split
    · exact .of_eq rfl
    · rename_i frame _
      simp only [d.conditions_reportAnyToken s frame]
      exact .one .pop
  · exact .of_eq rfl

/-- A directive changes the open conditionals by an operation on them or not at all. -/
theorem leadsTo_execute : s.conditions.LeadsTo (d.execute setup place s).2.conditions := by
  cases conditional : d.kind.isConditional with
  | false => exact .of_eq (d.conditions_execute setup place s conditional)
  | true =>
    rw [execute_of_isConditional _ _ _ _ conditional]
    simp only []
    split
    · have turned := d.leadsTo_turn place (d.holds setup place s).2 (d.holds setup place s).1
      rwa [conditions_holds] at turned
    · exact d.leadsTo_turn place s false

end Directive

namespace Reader

variable {setup : Setup} {r next : Reader}

/-- The conditionals that a file leaves open are closed at its end. -/
theorem leadsTo_closeFile (frame : Frame) (outer : List Frame)
    (final : { token : Token // token.isEnd = true }) :
    r.session.conditions.LeadsTo (r.closeFile setup frame outer final).session.conditions := by
  have ended : (if r.session.conditions.isLive then r.reportSpelling setup final.1
      else r).session.conditions = r.session.conditions := by
    rw [session_atEnd, conditions_atEnd]
  obtain ⟨journal, closed⟩ := exists_closeConditions frame
    (if r.session.conditions.isLive then r.reportSpelling setup final.1 else r).session
  rw [closeFile, closed, ended]
  exact .one (.popAbove frame.conditionDepth)

theorem leadsTo_afterDirective (frame : Frame) (outer : List Frame) (d : Directive) :
    r.session.conditions.LeadsTo (r.afterDirective setup frame outer d).session.conditions := by
  have executed := d.leadsTo_execute setup r.place r.session
  unfold afterDirective
  rw [(beside_checkAbort setup _).conditions]
  cases (d.execute setup r.place r.session).1 with
  | nothing => exact executed
  | enter header site =>
    refine executed.trans (.of_eq ?_)
    simp only [act]
    obtain ⟨-, kept⟩ | ⟨-, -, source, opened⟩ := enter_cases setup _ header site
    · exact kept
    · exact congrArg (·.session.conditions) opened
  | present number name => exact executed
  | pass => exact executed
  | once => exact executed

/-- A step of reading changes the open conditionals by operations on them alone. -/
theorem leadsTo_step {token : Token}
    (stepped : r.step setup = .give token next ∨ r.step setup = .goOn next) :
    r.session.conditions.LeadsTo next.session.conditions := by
  have cases_of := r.stepped setup
  obtain stepped | stepped := stepped
  all_goals
    rw [stepped] at cases_of
    cases cases_of
  case inl.waits => exact .of_eq rfl
  case inl.finished => exact .of_eq (beside_finish r).conditions
  case inl.counts => exact .of_eq (conditions_reportSpelling _ _)
  case inr.closes => exact leadsTo_closeFile _ _ _
  case inr.carriesOut => exact leadsTo_afterDirective _ _ _
  case inr.passesOver => exact .of_eq rfl

theorem invariant_leadsTo (setup : Setup) (conditions : ConditionStack) :
    Invariant setup fun r => conditions.LeadsTo r.session.conditions where
  step _ leads stepped := leads.trans (leadsTo_step stepped)
  between leads between := leads.trans (.of_eq between.conditions)

end Reader

namespace Preprocessor

variable {setup : Setup} {p q : Preprocessor}

/-- However far a main file is read, the conditionals that are open come from none by operations on
them. -/
theorem leadsTo_tokensWithin (created : create setup = .ok p) {source : Except SourceError Source}
    {name : Text} (opening : p.openMain setup source name = .ok q) (n : Nat) :
    ConditionStack.LeadsTo {} (q.tokensWithin setup n).2.reader.session.conditions := by
  refine (Reader.invariant_leadsTo setup {}).tokensWithin ?_ n
  rw [(openMain_keeps opening).2.2.1]
  exact .of_eq (isNew_of_create created).unconditional

/-- However far a main file is read, the place counts exactly if every branch around it does. -/
theorem isLive_tokensWithin_iff (created : create setup = .ok p)
    {source : Except SourceError Source} {name : Text}
    (opening : p.openMain setup source name = .ok q) (n : Nat) :
    let conditions := (q.tokensWithin setup n).2.reader.session.conditions
    conditions.isLive = true ↔ ∀ frame ∈ conditions.frames, frame.live = true :=
  ((leadsTo_tokensWithin created opening n).areNested .nil).isLive_iff

end Preprocessor

end CPreprocessor
