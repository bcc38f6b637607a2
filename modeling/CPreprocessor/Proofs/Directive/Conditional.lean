/-
# Carrying out conditional directives

The condition of a directive is judged without regard to the open conditionals, and
judging it leaves them as they are (`holds_within`). A conditional directive judges its
condition exactly where `Directive.asks` says so, and then it changes nothing but the
open conditionals and the reports (`execute_of_isConditional`).
-/
import CPreprocessor.Directive.Execute

namespace CPreprocessor

namespace DirectiveKind

/-- The directive opens a conditional. -/
def opens : DirectiveKind → Bool
  | ifExpression | ifdef | ifndef => true
  | _ => false

/-- The directive goes on with a branch that has a condition. -/
def goesOn : DirectiveKind → Bool
  | elif | elifdef | elifndef => true
  | _ => false

theorem isConditional_of_opens {kind : DirectiveKind} (opens : kind.opens = true) :
    kind.isConditional = true := by
  cases kind <;> simp_all [DirectiveKind.opens, isConditional]

theorem isConditional_of_goesOn {kind : DirectiveKind} (goesOn : kind.goesOn = true) :
    kind.isConditional = true := by
  cases kind <;> simp_all [DirectiveKind.goesOn, isConditional]

end DirectiveKind

namespace Session

/-- The session with other open conditionals. -/
def within (s : Session) (conditions : ConditionStack) : Session :=
  { s with conditions }

variable (s : Session) (conditions : ConditionStack)

@[simp] theorem conditions_within : (s.within conditions).conditions = conditions := rfl

@[simp] theorem within_within (other : ConditionStack) :
    (s.within conditions).within other = s.within other := rfl

@[simp] theorem within_self : s.within s.conditions = s := rfl

variable {s conditions} in
theorem within_of_conditions {s : Session} {conditions : ConditionStack}
    (same : s.conditions = conditions) : s.within conditions = s := by
  rw [← same, s.within_self]

@[simp] theorem report_within (token : Token) (code : Code) (detail : Text) :
    (s.within conditions).report token code detail
      = (s.report token code detail).within conditions := rfl

@[simp] theorem reportSpelling_within (token : Token) :
    (s.within conditions).reportSpelling token = (s.reportSpelling token).within conditions := by
  unfold reportSpelling
  split <;> rfl

@[simp] theorem reportSpellings_within (tokens : List Token) :
    (s.within conditions).reportSpellings tokens
      = (s.reportSpellings tokens).within conditions := by
  induction tokens generalizing s with
  | nil => rfl
  | cons token rest ih =>
    have unfolded (t : Session) : t.reportSpellings (token :: rest)
        = (t.reportSpelling token).reportSpellings rest := rfl
    rw [unfolded, unfolded, reportSpelling_within, ih]

theorem readHeaderName_within (setup : Setup) (place : Place) (tokens : List Token) :
    (s.within conditions).readHeaderName setup place tokens
      = ((s.readHeaderName setup place tokens).1, (s.readHeaderName setup place tokens).2.1,
        (s.readHeaderName setup place tokens).2.2.within conditions) := by
  unfold readHeaderName
  split
  · rfl
  · split <;> rfl

theorem findHeader_within (setup : Setup) (place : Place) (next : Bool) (name : IncludeName) :
    (s.within conditions).findHeader setup place next name
      = ((s.findHeader setup place next name).1,
        (s.findHeader setup place next name).2.within conditions) :=
  rfl

/-- The session in which `frame` is the innermost conditional and `outer` are the others. -/
def inside (s : Session) (frame : ConditionFrame) (outer : List ConditionFrame) : Session :=
  s.within ⟨frame :: outer⟩

theorem isLive_inside (frame : ConditionFrame) (outer : List ConditionFrame) :
    (s.inside frame outer).conditions.isLive = frame.live :=
  rfl

/-- The session with another journal. -/
def annotated (s : Session) (journal : Journal) : Session :=
  { s with expansion := { s.expansion with journal } }

theorem exists_reportSpelling (s : Session) (token : Token) :
    ∃ journal, s.reportSpelling token = s.annotated journal := by
  unfold reportSpelling
  split
  · exact ⟨_, rfl⟩
  · exact ⟨s.expansion.journal, rfl⟩

end Session

namespace Query

variable (setup : Setup) (place : Place) (conditions : ConditionStack)

theorem answer_within (site : Token) (s : Session) (query : Query) :
    query.answer setup place site (s.within conditions)
      = ((query.answer setup place site s).1,
        (query.answer setup place site s).2.within conditions) := by
  cases query with
  | defined name => rfl
  | feature => rfl
  | header onward inner =>
    simp only [answer, Session.readHeaderName_within]
    generalize s.readHeaderName setup place inner = found
    obtain ⟨name?, tokens, s⟩ := found
    cases name? with
    | none => rfl
    | some name =>
      simp only [Session.findHeader_within]
      split <;> rfl

/-- Answering goes from question to question. -/
theorem answerAll_cons (token : Token) (rest : List Token) (s : Session) :
    answerAll setup place (token :: rest) s =
      match read? token rest with
      | none =>
        ((answerAll setup place rest s).1.map (token :: ·), (answerAll setup place rest s).2)
      | some (.error wrong) => (.error ⟨.invalidExpression, token, wrong.detail⟩, s)
      | some (.ok (query, after)) =>
        match query.answer setup place token s with
        | (.error wrong, s) => (.error ⟨.invalidExpression, token, wrong.detail⟩, s)
        | (.ok value, s) =>
          ((answerAll setup place after s).1.map (answerToken token value :: ·),
            (answerAll setup place after s).2) := by
  rw [answerAll]
  split
  · simp only [*]
  · simp only [*]
  · rename_i query after found
    cases answered : query.answer setup place token s with
    | mk given last => cases given <;> simp only [found, answered]

theorem answerAll_within (tokens : List Token) (s : Session) :
    answerAll setup place tokens (s.within conditions)
      = ((answerAll setup place tokens s).1,
        (answerAll setup place tokens s).2.within conditions) := by
  fun_induction answerAll setup place tokens s with
  | case1 s => rw [answerAll]
  | case2 token rest s found more s' step ih => simp only [answerAll_cons, found, ih, step]
  | case3 token rest s wrong found => simp only [answerAll_cons, found]
  | case4 token rest s query after found wrong s' answered =>
    simp only [answerAll_cons, found, answer_within, answered]
  | case5 token rest s query after found value s' answered more s'' step ih =>
    simp only [answerAll_cons, found, answer_within, answered, ih, step]

end Query

namespace Directive

variable (d : Directive) (setup : Setup) (place : Place) (s : Session) (conditions : ConditionStack)

@[simp] theorem reportExtra_within (used : Nat) :
    d.reportExtra used (s.within conditions) = (d.reportExtra used s).within conditions := by
  unfold reportExtra
  split <;> rfl

theorem exists_reportExtra (used : Nat) :
    ∃ journal, d.reportExtra used s = s.annotated journal := by
  unfold reportExtra
  split
  · exact ⟨s.expansion.journal, rfl⟩
  · exact ⟨_, rfl⟩

theorem macroName?_within :
    d.macroName? (s.within conditions)
      = ((d.macroName? s).1, (d.macroName? s).2.within conditions) := by
  unfold macroName?
  split
  · rfl
  · split
    · rfl
    · split <;> rfl

theorem nameHolds_within (wanted : Bool) :
    d.nameHolds wanted (s.within conditions)
      = ((d.nameHolds wanted s).1, (d.nameHolds wanted s).2.within conditions) := by
  simp only [nameHolds, macroName?_within]
  generalize d.macroName? s = found
  obtain ⟨name?, s⟩ := found
  cases name? with
  | none => rfl
  | some name => simp only [reportExtra_within]; rfl

theorem expressionHolds_within :
    d.expressionHolds setup place (s.within conditions)
      = ((d.expressionHolds setup place s).1,
        (d.expressionHolds setup place s).2.within conditions) := by
  simp only [expressionHolds, Session.reportSpellings_within, Query.answerAll_within]
  generalize Query.answerAll setup place d.args (s.reportSpellings d.args) = answered
  obtain ⟨outcome, s⟩ := answered
  cases outcome with
  | error failure => rfl
  | ok tokens =>
    simp only []
    have same : ({ s.within conditions with
          expansion := (Expansion.expandCondition ((s.within conditions).context setup place) tokens
            (s.within conditions).expansion).2 } : Session) =
        ({ s with expansion := (Expansion.expandCondition (s.context setup place) tokens
            s.expansion).2 } : Session).within conditions := rfl
    rw [same, Query.answerAll_within]
    have context : (s.within conditions).context setup place = s.context setup place := rfl
    have expansion : (s.within conditions).expansion = s.expansion := rfl
    rw [context, expansion]
    generalize Query.answerAll setup place _ _ = again
    obtain ⟨outcome, s⟩ := again
    cases outcome <;> rfl

/-- A condition does not depend on the open conditionals, and judging it does not change them. -/
theorem holds_within :
    d.holds setup place (s.within conditions)
      = ((d.holds setup place s).1, (d.holds setup place s).2.within conditions) := by
  unfold holds
  split
  · exact nameHolds_within ..
  · exact nameHolds_within ..
  · exact nameHolds_within ..
  · exact nameHolds_within ..
  · exact expressionHolds_within ..

theorem conditions_holds : (d.holds setup place s).2.conditions = s.conditions := by
  have same := holds_within d setup place s s.conditions
  rw [Session.within_self] at same
  rw [same]
  rfl

/-- Carrying out the directive judges its condition. -/
def asks : Bool :=
  match d.kind with
  | .ifExpression | .ifdef | .ifndef => s.conditions.isLive
  | .elif | .elifdef | .elifndef =>
    (present? place s).any (·.branch ≠ .last) && s.conditions.needsCondition
  | _ => false

/-- The session after a conditional directive whose condition is known. -/
def turn (condition : Bool) : Session :=
  match d.kind with
  | .ifExpression | .ifdef | .ifndef =>
    { s with conditions := s.conditions.push d.hash condition place.includeDepth }
  | .elif | .elifdef | .elifndef =>
    d.enterBranch place s fun _ => { s with conditions := s.conditions.enterFurther condition }
  | .elseBranch => d.enterLast place s
  | .endif => d.closeCondition place s
  | _ => s

theorem openCondition_eq :
    d.openCondition setup place s =
      if s.conditions.isLive then
        { (d.holds setup place s).2 with
          conditions :=
            s.conditions.push d.hash (d.holds setup place s).1 place.includeDepth }
      else
        { s with conditions := s.conditions.push d.hash false place.includeDepth } := by
  unfold openCondition
  by_cases live : s.conditions.isLive = true
  · simp only [live, if_true, conditions_holds]
  · simp only [live, Bool.false_eq_true, if_false]

/-- The innermost conditional of the present file depends on the open conditionals alone. -/
theorem present?_congr {s t : Session} (same : s.conditions = t.conditions) :
    present? place s = present? place t := by
  unfold present?
  rw [same]

variable {place} in
theorem present?_inside {frame : ConditionFrame} (outer : List ConditionFrame)
    (here : frame.includeDepth = place.includeDepth) :
    present? place (s.inside frame outer) = some frame := by
  simp [present?, Session.inside, ConditionStack.top?, Option.filter, here]

theorem enterFurther_eq :
    d.enterFurther setup place s =
      if (present? place s).any (·.branch ≠ .last) && s.conditions.needsCondition then
        d.enterBranch place (d.holds setup place s).2 fun _ =>
          { (d.holds setup place s).2 with
            conditions := s.conditions.enterFurther (d.holds setup place s).1 }
      else
        d.enterBranch place s fun _ =>
          { s with conditions := s.conditions.enterFurther false } := by
  have same : present? place (d.holds setup place s).2 = present? place s :=
    present?_congr place (conditions_holds d setup place s)
  unfold enterFurther enterBranch
  rw [same]
  cases found : present? place s with
  | none => simp
  | some frame =>
    by_cases last : frame.branch = .last
    · simp [last]
    · by_cases needs : s.conditions.needsCondition = true
      · simp [last, needs, conditions_holds]
      · simp [last, needs]

/-- A conditional directive judges its condition where it asks for it, and then only turns to
another branch. -/
theorem execute_of_isConditional (conditional : d.kind.isConditional = true) :
    d.execute setup place s =
      (.nothing,
        if d.asks place s then d.turn place (d.holds setup place s).2 (d.holds setup place s).1
        else d.turn place s false) := by
  unfold execute
  rw [if_pos (by simp [conditional])]
  unfold carryOut asks turn
  cases kind : d.kind
  all_goals simp only [kind, DirectiveKind.isConditional, Bool.false_eq_true] at conditional ⊢
  all_goals try simp only [openCondition_eq, enterFurther_eq, conditions_holds]
  all_goals rfl

end Directive

end CPreprocessor
