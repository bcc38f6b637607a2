/-
# Conditional directives

`#if` and its relatives open a conditional, `#elif` and its relatives and `#else`
go on with another branch, and `#endif` closes it. A condition is read only where
its value can matter.
-/
import CPreprocessor.Condition.Expression
import CPreprocessor.Directive.Query

namespace CPreprocessor

namespace Expansion

open Exposure

/-- The operand of `defined`, which is not expanded, and the tokens after it. -/
def definedOperand : List Token → List Token × List Token
  | [] => ([], [])
  | token :: rest =>
    if token.isOpen then
      match rest with
      | [] => ([token], [])
      | name :: after => if name.isEnd then ([token], rest) else ([token, name], after)
    else if token.isEnd then
      ([], token :: rest)
    else
      ([token], rest)

/-- The tokens that stay as they are after a token that stays. -/
def keptAfter (token : Token) (rest : List Token) : List Token × List Token :=
  if token.isNamed "defined".toList then definedOperand rest else ([], rest)

theorem sublist_keptAfter (token : Token) (rest : List Token) :
    (keptAfter token rest).2.Sublist rest := by
  unfold keptAfter definedOperand
  repeat' split
  all_goals simp

/-- Expand the tokens of a condition. What an operator `defined` asks about is not expanded, also
where expansion has brought the operator. -/
def expandCondition (ctx : Context) (tokens : List Token) (state : State) : List Token × State :=
  match _found : Head.read ctx.table tokens with
  | none => ([], state)
  | some (.plain token rest) =>
    let (more, state) := expandCondition ctx (keptAfter token rest).2 state
    (token :: (keptAfter token rest).1 ++ more, state)
  | some (.builtin kind site rest) =>
    let (token, state) := expandBuiltin ctx kind site state
    let (more, state) := expandCondition ctx rest state
    (token :: more, state)
  | some (.rejected code site rest) =>
    let (more, state) :=
      expandCondition ctx (keptAfter site rest).2 (state.report site code site.lexeme)
    (site :: (keptAfter site rest).1 ++ more, state)
  | some (.call c) =>
    let replaced := expandCall ctx c state
    expandCondition ctx (replaced.1 ++ c.rest) replaced.2
  termination_by levels ctx.names tokens
  decreasing_by
    · exact (atMost_of_sublist (sublist_keptAfter _ _)).trans_below (fewer_of_plain _found)
    · exact fewer_of_builtin _found
    · exact (atMost_of_sublist (sublist_keptAfter _ _)).trans_below (fewer_of_rejected _found)
    · exact fewer_of_expandCall _found _

end Expansion

namespace Directive

/-- The value of the expression after the directive's name: questions are answered, macros are
expanded, and questions that expansion has brought are answered. A condition without a value is
false. -/
def expressionHolds (d : Directive) (setup : Setup) (place : Place) (s : Session) : Bool × Session :=
  let fail (failure : Failure) (s : Session) : Bool × Session :=
    (false, s.report (failure.token.getD d.nameToken) failure.code failure.detail)
  match Query.answerAll setup place d.args (s.reportSpellings d.args) with
  | (.error failure, s) => fail failure s
  | (.ok tokens, s) =>
    let (expanded, expansion) :=
      Expansion.expandCondition (s.context setup place) tokens s.expansion
    match Query.answerAll setup place expanded { s with expansion } with
    | (.error failure, s) => fail failure s
    | (.ok operands, s) =>
      let (value, journal) := evaluateCondition operands d.nameToken s.journal
      (value.any Value.isTrue, { s with expansion := { s.expansion with journal } })

/-- Whether the name after the directive's name is defined, or is not. Without a name the condition
is false. -/
def nameHolds (d : Directive) (wanted : Bool) (s : Session) : Bool × Session :=
  match d.macroName? s with
  | (none, s) => (false, s)
  | (some name, s) => (Query.isDefined s name.lexeme == wanted, d.reportExtra 1 s)

/-- The condition of a directive. -/
def holds (d : Directive) (setup : Setup) (place : Place) (s : Session) : Bool × Session :=
  match d.kind with
  | .ifdef | .elifdef => d.nameHolds true s
  | .ifndef | .elifndef => d.nameHolds false s
  | _ => d.expressionHolds setup place s

/-- Open a conditional. Where nothing counts, its condition is not read. -/
def openCondition (d : Directive) (setup : Setup) (place : Place) (s : Session) : Session :=
  let (condition, s) := if s.conditions.isLive then d.holds setup place s else (false, s)
  { s with conditions := s.conditions.push d.hash condition place.includeDepth }

/-- The innermost conditional, if the present file opened it. -/
def present? (place : Place) (s : Session) : Option ConditionFrame :=
  s.conditions.top?.filter (·.includeDepth = place.includeDepth)

/-- Go on with another branch of a conditional, if it is open and its last branch has not been
read. -/
def enterBranch (d : Directive) (place : Place) (s : Session) (enter : ConditionFrame → Session) :
    Session :=
  match present? place s with
  | none => s.report d.hash .mismatchedElse d.title
  | some frame =>
    if frame.branch = .last then
      let s := s.report d.hash .elseAfterElse d.title
      { s with conditions := s.conditions.skipRest }
    else
      enter frame

/-- Go on with a further branch. Its condition is read only if it can be chosen. -/
def enterFurther (d : Directive) (setup : Setup) (place : Place) (s : Session) : Session :=
  d.enterBranch place s fun _ =>
    let (condition, s) :=
      if s.conditions.needsCondition then d.holds setup place s else (false, s)
    { s with conditions := s.conditions.enterFurther condition }

/-- Report tokens after a directive that takes none, where it counts. -/
def reportAnyToken (d : Directive) (frame : ConditionFrame) (s : Session) : Session :=
  if frame.parentLive then d.reportExtra 0 s else s

/-- Go on with the last branch. -/
def enterLast (d : Directive) (place : Place) (s : Session) : Session :=
  d.enterBranch place s fun frame =>
    let s := d.reportAnyToken frame s
    { s with conditions := s.conditions.enterLast }

/-- Close a conditional. -/
def closeCondition (d : Directive) (place : Place) (s : Session) : Session :=
  match present? place s with
  | none => s.report d.hash .mismatchedEndif []
  | some frame =>
    let s := d.reportAnyToken frame s
    { s with conditions := s.conditions.pop }

end Directive

end CPreprocessor
