/-
# Lookups of headers

A session counts the lookups in the cache of its resolver. Only `#include` and the
questions of conditions look for headers, and the count never goes down: if judging a
condition has not changed it, no part of the condition has looked for a relative name
(`Query.lookups_le_answerAll`).
-/
import CPreprocessor.Proofs.Directive.Macros
import CPreprocessor.Proofs.Include.Answers

namespace CPreprocessor

namespace Session

variable (s : Session)

/-- The number of lookups in the cache. -/
def lookups : Nat :=
  s.resolver.lookups

@[simp] theorem lookups_report (token : Token) (code : Code) (detail : Text) :
    (s.report token code detail).lookups = s.lookups := rfl

@[simp] theorem lookups_reportSpellings (tokens : List Token) :
    (s.reportSpellings tokens).lookups = s.lookups := by
  obtain ⟨journal, reported⟩ := s.exists_reportSpellings tokens
  rw [reported]
  rfl

@[simp] theorem lookups_readHeaderName (setup : Setup) (place : Place) (tokens : List Token) :
    (s.readHeaderName setup place tokens).2.2.lookups = s.lookups := by
  unfold readHeaderName
  split
  · rfl
  · split <;> rfl

/-- A relative name is looked up, an absolute one is not. -/
theorem lookups_findHeader (setup : Setup) (place : Place) (next : Bool) (name : IncludeName) :
    (s.findHeader setup place next name).2.lookups
      = s.lookups + if Path.isAbsolute name.name then 0 else 1 := by
  rw [findHeader_eq_ask, ← name_headerQuestion place next name]
  exact Resolver.lookups_ask _ _ _

theorem lookups_findHeader_of_isAbsolute (setup : Setup) (place : Place) (next : Bool)
    {name : IncludeName} (absolute : Path.isAbsolute name.name = true) :
    (s.findHeader setup place next name).2.lookups = s.lookups := by
  rw [lookups_findHeader, if_pos absolute, Nat.add_zero]

theorem lookups_le_findHeader (setup : Setup) (place : Place) (next : Bool) (name : IncludeName) :
    s.lookups ≤ (s.findHeader setup place next name).2.lookups := by
  rw [lookups_findHeader]
  exact Nat.le_add_right _ _

/-- From `s` to `s'` there are as many lookups as from `t` to `t'`. -/
def SameLookups (s s' t t' : Session) : Prop :=
  s'.lookups + t.lookups = t'.lookups + s.lookups

namespace SameLookups

variable {s s' s'' t t' t'' : Session}

theorem refl (s t : Session) : SameLookups s s t t :=
  Nat.add_comm _ _

theorem of_eq (same : s'.lookups = s.lookups) (same' : t'.lookups = t.lookups) :
    SameLookups s s' t t' := by
  unfold SameLookups
  omega

theorem trans (first : SameLookups s s' t t') (second : SameLookups s' s'' t' t'') :
    SameLookups s s'' t t'' := by
  unfold SameLookups at *
  omega

theorem findHeader (setup : Setup) (place : Place) {place' : Place} (next : Bool) (name : IncludeName) :
    SameLookups s (s.findHeader setup place next name).2 t (t.findHeader setup place' next name).2 := by
  unfold SameLookups
  rw [lookups_findHeader, lookups_findHeader]
  omega

/-- If one side looks nothing up on the whole, but does not need to where the first part of it does
not, one side looks nothing up in the rest. -/
theorem rest {p : Prop} (first : SameLookups s s' t t')
    (still : p ∨ s''.lookups = s.lookups ∨ t''.lookups = t.lookups)
    (here : p ∨ s'.lookups = s.lookups ∨ t'.lookups = t.lookups) :
    p ∨ s''.lookups = s'.lookups ∨ t''.lookups = t'.lookups := by
  unfold SameLookups at first
  obtain found | still := still
  · exact .inl found
  · exact here.imp_right fun here => by omega

/-- If one side does not look anything up, the other one does not either. -/
theorem eq_iff (same : SameLookups s s' t t') : s'.lookups = s.lookups ↔ t'.lookups = t.lookups := by
  unfold SameLookups at same
  omega

end SameLookups

end Session

namespace Query

variable (setup : Setup) (place : Place)

theorem lookups_le_answer (site : Token) (s : Session) (query : Query) :
    s.lookups ≤ (query.answer setup place site s).2.lookups := by
  cases query with
  | defined name => exact Nat.le_refl _
  | feature => exact Nat.le_refl _
  | header onward inner =>
    have read := s.lookups_readHeaderName setup place inner
    simp only [answer]
    split
    all_goals
      rename_i found
      rw [found] at read
    · split
      · exact read.symm.trans_le (Session.lookups_le_findHeader _ _ _ _ _)
      · exact read.symm.le
    · exact read.symm.le

/-- Answering questions does not lower the number of lookups. -/
theorem lookups_le_answerAll (tokens : List Token) (s : Session) :
    s.lookups ≤ (answerAll setup place tokens s).2.lookups := by
  fun_induction answerAll setup place tokens s with
  | case1 s => exact Nat.le_refl _
  | case2 token rest s found more s' step ih => rwa [step] at ih
  | case3 token rest s wrong found => exact Nat.le_refl _
  | case4 token rest s query after found wrong s' answered =>
    have here := lookups_le_answer setup place token s query
    rwa [answered] at here
  | case5 token rest s query after found value s' answered more s'' step ih =>
    have here := lookups_le_answer setup place token s query
    rw [answered] at here
    rw [step] at ih
    exact here.trans ih

/-- If there are no lookups from the first question on, there are none for the first one. -/
theorem lookups_answer_of_answerAll {query : Query} {token : Token} {rest after : List Token}
    {s : Session} (asked : read? token rest = some (.ok (query, after)))
    (still : (answerAll setup place (token :: rest) s).2.lookups = s.lookups) :
    (query.answer setup place token s).2.lookups = s.lookups := by
  have grows := lookups_le_answer setup place token s query
  refine le_antisymm (le_trans ?_ still.le) grows
  rw [answerAll_cons, asked]
  simp only []
  cases query.answer setup place token s with
  | mk answer s' =>
    cases answer with
    | error wrong => exact Nat.le_refl _
    | ok value => exact lookups_le_answerAll setup place after s'

end Query

namespace Directive

variable (d : Directive) (setup : Setup) (place : Place) (s : Session)

/-- The lookups of an expression are those of its questions, before and after it is expanded. -/
theorem lookups_expressionHolds :
    (d.expressionHolds setup place s).2.lookups =
      match Query.answerAll setup place d.args (s.reportSpellings d.args) with
      | (.error _, s) => s.lookups
      | (.ok tokens, s) =>
        (Query.answerAll setup place
          (Expansion.expandCondition (s.context setup place) tokens s.expansion).1
          { s with
            expansion :=
              (Expansion.expandCondition (s.context setup place) tokens s.expansion).2 }).2.lookups := by
  unfold expressionHolds
  cases Query.answerAll setup place d.args (s.reportSpellings d.args) with
  | mk answered s' =>
    cases answered with
    | error failure => rfl
    | ok tokens =>
      simp only []
      generalize Query.answerAll setup place _ _ = last
      obtain ⟨answered, s''⟩ := last
      cases answered <;> rfl

variable {setup place s} in
/-- If an expression looks nothing up, its questions before it is expanded do not. -/
theorem lookups_answerAll_of_expressionHolds
    (still : (d.expressionHolds setup place s).2.lookups = s.lookups) :
    (Query.answerAll setup place d.args (s.reportSpellings d.args)).2.lookups
      = (s.reportSpellings d.args).lookups := by
  have grows := Query.lookups_le_answerAll setup place d.args (s.reportSpellings d.args)
  refine le_antisymm (le_trans ?_ (still.trans (s.lookups_reportSpellings d.args).symm).le) grows
  rw [lookups_expressionHolds]
  cases Query.answerAll setup place d.args (s.reportSpellings d.args) with
  | mk answered s' =>
    cases answered with
    | error failure => exact Nat.le_refl _
    | ok tokens =>
      have again := Query.lookups_le_answerAll setup place
        (Expansion.expandCondition (s'.context setup place) tokens s'.expansion).1
        { s' with
          expansion := (Expansion.expandCondition (s'.context setup place) tokens s'.expansion).2 }
      exact again

@[simp] theorem lookups_reportExtra (used : Nat) : (d.reportExtra used s).lookups = s.lookups := by
  obtain ⟨journal, reported⟩ := d.exists_reportExtra s used
  rw [reported]
  rfl

@[simp] theorem lookups_macroName? : (d.macroName? s).2.lookups = s.lookups := by
  unfold macroName?
  split
  · rfl
  · split
    · rfl
    · split <;> rfl

@[simp] theorem lookups_nameHolds (wanted : Bool) :
    (d.nameHolds wanted s).2.lookups = s.lookups := by
  have named := d.lookups_macroName? s
  unfold nameHolds
  split
  all_goals
    rename_i found
    rw [found] at named
  · exact named
  · exact (lookups_reportExtra ..).trans named

/-- An include looks up the header that it names, unless the name is absolute. -/
theorem lookups_includeHeader :
    (d.includeHeader setup place s).2.lookups = s.lookups +
      match d.args, (s.readHeaderName setup place d.args).1 with
      | _ :: _, some name => if Path.isAbsolute name.name then 0 else 1
      | _, _ => 0 := by
  have read := s.lookups_readHeaderName setup place d.args
  unfold includeHeader
  split
  · rename_i nothing
    simp only [nothing]
    rfl
  · rename_i first rest given
    split
    all_goals
      rename_i found
      rw [found] at read ⊢
      simp only [given]
    · exact read
    · rename_i name tokens s'
      split
      all_goals
        rename_i last looked
        have counted := congrArg (fun result => result.2.lookups) looked
        simp only [Session.lookups_findHeader] at counted
        rw [← read]
        refine Eq.trans counted.symm ?_
        split <;> rfl

theorem lookups_define : (d.define s).lookups = s.lookups := by
  have named := d.lookups_macroName? s
  unfold define
  split
  all_goals
    rename_i found
    rw [found] at named
  · exact named
  · have spelled := (Session.lookups_reportSpellings _ d.args).trans named
    simp only []
    split
    · exact spelled
    · split <;> exact spelled

theorem lookups_undef : (d.undef s).lookups = s.lookups := by
  have named := d.lookups_macroName? s
  unfold undef
  split
  all_goals
    rename_i found
    rw [found] at named
  · exact named
  · exact (lookups_reportExtra ..).trans ((Session.lookups_reportSpellings _ d.args).trans named)

theorem lookups_pragma : (d.pragma setup place s).2.lookups = s.lookups := by
  unfold pragma
  repeat' split
  all_goals first
    | rfl
    | exact d.lookups_reportExtra s 1

theorem lookups_presentLine : (d.presentLine setup place s).2.lookups = s.lookups := by
  have read : (d.lineArguments setup place s).2.lookups = s.lookups := by
    unfold lineArguments
    split
    · rfl
    · simp only []
      split <;> exact s.lookups_reportSpellings d.args
  unfold presentLine
  split
  · rfl
  · simp only []
    split
    · exact read
    · simp only []
      split
      · split <;> exact read
      · exact read

/-- A directive whose condition is known looks for no header. -/
theorem lookups_turn (condition : Bool) : (d.turn place s condition).lookups = s.lookups := by
  have branch (enter : ConditionFrame → Session) (entered : ∀ frame, (enter frame).lookups = s.lookups) :
      (d.enterBranch place s enter).lookups = s.lookups := by
    unfold enterBranch
    split
    · rfl
    · split
      · rfl
      · exact entered _
  have extra (frame : ConditionFrame) : (d.reportAnyToken frame s).lookups = s.lookups := by
    unfold reportAnyToken
    split
    · exact d.lookups_reportExtra s 0
    · rfl
  unfold turn
  split
  · rfl
  · rfl
  · rfl
  · exact branch _ fun _ => rfl
  · exact branch _ fun _ => rfl
  · exact branch _ fun _ => rfl
  · exact branch _ extra
  · unfold closeCondition
    split
    · rfl
    · exact extra _
  · rfl

end Directive

end CPreprocessor
