/-
# Reports are added and never taken back

Macro expansion, conditions and directives add reports to the journal, and what was
reported before stays in it (`Journal.Precedes`). There is one lemma for each function;
expansion follows the heads of the token list as always. Hence the number of errors never
goes down (`Journal.Precedes.errorCount_le`).
-/
import CPreprocessor.Proofs.Directive.Conditional
import Mathlib.Data.List.Infix

namespace CPreprocessor

/-- What is in the first journal stands at the front of the second one. -/
def Journal.Precedes (before after : Journal) : Prop :=
  before.entries <+: after.entries

namespace Journal.Precedes

variable {a b c : Journal}

@[refl] theorem refl (journal : Journal) : journal.Precedes journal :=
  List.prefix_refl _

theorem trans (ab : a.Precedes b) (bc : b.Precedes c) : a.Precedes c :=
  List.IsPrefix.trans ab bc

theorem report (journal : Journal) (token : Token) (code : Code) (detail : Text) :
    journal.Precedes (journal.report token code detail) :=
  List.prefix_append _ _

/-- There are no fewer errors later. -/
theorem errorCount_le (ab : a.Precedes b) : a.errorCount ≤ b.errorCount :=
  List.Sublist.countP_le (List.IsPrefix.sublist ab)

end Journal.Precedes

/-! ## Expansion -/

/-- Expanding the argument only adds reports. -/
def Argument.Adds (argument : Argument) : Prop :=
  ∀ state : Expansion.State, state.journal.Precedes (argument.expand state).2.journal

namespace Substitution

variable (language : Language) (s : Substitution)

theorem precedes_paste (left right : Token) (state : Expansion.State) :
    state.journal.Precedes (paste language left right state).2.journal := by
  unfold paste
  split
  · exact .refl _
  · exact .report _ _ _ _

theorem precedes_pasteOn (hash : Token) (operands : List Token) :
    s.state.journal.Precedes (pasteOn language s hash operands).state.journal := by
  cases operands with
  | nil => exact .refl _
  | cons right rest =>
    simp only [pasteOn]
    split
    · exact .refl _
    · exact .refl _
    · exact precedes_paste language _ right s.state

variable {args : List Argument} (adds : ∀ argument ∈ args, argument.Adds)
include adds

theorem precedes_expandArgument (position : Nat) :
    s.state.journal.Precedes (expandArgument args s position).2.state.journal := by
  unfold expandArgument
  split
  · exact .refl _
  · split
    · exact .refl _
    · rename_i argument found
      have added := adds argument (List.mem_of_getElem? found)
      exact added s.state

theorem precedes_apply (content : List Token) (operation : Operation) :
    s.state.journal.Precedes (s.apply language args content operation).state.journal := by
  cases operation with
  | copy token => exact .refl _
  | argument token position => exact precedes_expandArgument s adds position
  | leftOperand token position =>
    simp only [apply]
    split <;> exact .refl _
  | stringize hash position => exact .refl _
  | comma token position => exact .refl _
  | pasteArgument paste position => exact precedes_pasteOn language s paste _
  | pasteOptional paste inner => exact precedes_pasteOn language s paste content
  | pasteToken paste token => exact precedes_pasteOn language s paste [token]
  | optional token inner beforePaste =>
    simp only [apply]
    split <;> exact .refl _

theorem precedes_run (p : Parameters) (tokens : List Token) :
    s.state.journal.Precedes (run language p args tokens s).state.journal := by
  fun_induction run language p args tokens s with
  | case1 s => exact .refl _
  | case2 token rest s head content s' inner _ outer =>
    have here : s.state.journal.Precedes s'.state.journal := by
      simp only [s', content]
      split
      · exact inner
      · exact .refl _
    exact (here.trans (precedes_apply language s' adds content.result head.1)).trans outer

end Substitution

namespace Expansion

variable (ctx : Context)

theorem precedes_expandBuiltin (kind : Builtin) (site : Token) (state : State) :
    state.journal.Precedes (expandBuiltin ctx kind site state).2.journal := by
  unfold expandBuiltin
  simp only []
  split <;> exact .refl _

theorem precedes_expandAll (tokens : List Token) (state : State) :
    state.journal.Precedes (expandAll ctx tokens state).2.journal := by
  fun_induction expandAll ctx tokens state with
  | case1 tokens s found => exact .refl _
  | case2 tokens s token rest found more after expanded ih =>
    rwa [expanded] at ih
  | case3 tokens s kind site rest found token t built more after expanded ih =>
    have here := precedes_expandBuiltin ctx kind site s
    rw [built] at here
    rw [expanded] at ih
    exact here.trans ih
  | case4 tokens s code site rest found more after expanded ih =>
    rw [expanded] at ih
    exact (Journal.Precedes.report _ _ _ _).trans ih
  | case5 tokens s c found args done inner =>
    rename_i ih
    have adds : ∀ argument ∈ args, argument.Adds := by
      intro argument member
      obtain ⟨⟨written, isArgument⟩, -, rfl⟩ := List.mem_map.mp member
      exact fun t => inner written isArgument t
    exact (Substitution.precedes_run ctx.language { state := s } adds _ _).trans ih

theorem precedes_expandCall (c : Call) (state : State) :
    state.journal.Precedes (expandCall ctx c state).2.journal := by
  refine Substitution.precedes_run ctx.language { state } ?_ _ _
  intro argument member
  obtain ⟨written, -, rfl⟩ := List.mem_map.mp member
  exact fun t => precedes_expandAll ctx written t

theorem precedes_expandCondition (tokens : List Token) (state : State) :
    state.journal.Precedes (expandCondition ctx tokens state).2.journal := by
  fun_induction expandCondition ctx tokens state with
  | case1 tokens s found => exact .refl _
  | case2 tokens s token rest found more after expanded ih =>
    rwa [expanded] at ih
  | case3 tokens s kind site rest found token t built more after expanded ih =>
    have here := precedes_expandBuiltin ctx kind site s
    rw [built] at here
    rw [expanded] at ih
    exact here.trans ih
  | case4 tokens s code site rest found more after expanded ih =>
    rw [expanded] at ih
    exact (Journal.Precedes.report _ _ _ _).trans ih
  | case5 tokens s c found replaced ih => exact (precedes_expandCall ctx c s).trans ih

end Expansion

/-! ## Sessions and conditions -/

namespace Session

variable (s : Session) (setup : Setup) (place : Place)

theorem precedes_report (token : Token) (code : Code) (detail : Text) :
    s.journal.Precedes (s.report token code detail).journal :=
  .report _ _ _ _

theorem precedes_reportSpelling (token : Token) :
    s.journal.Precedes (s.reportSpelling token).journal := by
  unfold reportSpelling
  split
  · exact s.precedes_report _ _ _
  · exact .refl _

theorem precedes_reportSpellings (tokens : List Token) :
    s.journal.Precedes (s.reportSpellings tokens).journal := by
  induction tokens generalizing s with
  | nil => exact .refl _
  | cons token rest ih => exact (s.precedes_reportSpelling token).trans (ih _)

theorem precedes_expand (tokens : List Token) :
    s.journal.Precedes (s.expand setup place tokens).2.journal :=
  Expansion.precedes_expandAll _ tokens s.expansion

theorem precedes_readHeaderName (tokens : List Token) :
    s.journal.Precedes (s.readHeaderName setup place tokens).2.2.journal := by
  unfold readHeaderName
  split
  · exact .refl _
  · split
    · exact s.precedes_expand setup place tokens
    · exact .refl _

end Session

namespace Query

variable (setup : Setup) (place : Place)

theorem precedes_answer (site : Token) (s : Session) (query : Query) :
    s.journal.Precedes (query.answer setup place site s).2.journal := by
  cases query with
  | defined name => exact .refl _
  | feature => exact .refl _
  | header onward inner =>
    have read := s.precedes_readHeaderName setup place inner
    simp only [answer]
    split
    all_goals
      rename_i found
      rw [found] at read
    · split <;> exact read
    · exact read

theorem precedes_answerAll (tokens : List Token) (s : Session) :
    s.journal.Precedes (answerAll setup place tokens s).2.journal := by
  fun_induction answerAll setup place tokens s with
  | case1 s => exact .refl _
  | case2 token rest s found more s' step ih => rwa [step] at ih
  | case3 token rest s wrong found => exact .refl _
  | case4 token rest s query after found wrong s' answered =>
    have here := precedes_answer setup place token s query
    rwa [answered] at here
  | case5 token rest s query after found value s' answered more s'' step ih =>
    have here := precedes_answer setup place token s query
    rw [answered] at here
    rw [step] at ih
    exact here.trans ih

end Query

theorem precedes_evaluateCondition (tokens : List Token) (directive : Token) (journal : Journal) :
    journal.Precedes (evaluateCondition tokens directive journal).2 := by
  unfold evaluateCondition
  split
  · exact .report _ _ _ _
  · split
    · exact .refl _
    · exact .report _ _ _ _

/-! ## Directives -/

namespace Directive

variable (d : Directive) (setup : Setup) (place : Place) (s : Session)

theorem precedes_reportExtra (used : Nat) : s.journal.Precedes (d.reportExtra used s).journal := by
  unfold reportExtra
  split
  · exact .refl _
  · exact s.precedes_report _ _ _

theorem precedes_macroName? : s.journal.Precedes (d.macroName? s).2.journal := by
  unfold macroName?
  split
  · exact s.precedes_report _ _ _
  · split
    · exact s.precedes_report _ _ _
    · split
      · exact s.precedes_report _ _ _
      · exact .refl _

theorem precedes_define : s.journal.Precedes (d.define s).journal := by
  have named := d.precedes_macroName? s
  unfold define
  split
  all_goals
    rename_i found
    rw [found] at named
  · exact named
  · have spelled := named.trans (Session.precedes_reportSpellings _ d.args)
    simp only []
    split
    · exact spelled.trans (Session.precedes_report _ _ _ _)
    · split
      · exact spelled.trans (Session.precedes_report _ _ _ _)
      · exact spelled

theorem precedes_undef : s.journal.Precedes (d.undef s).journal := by
  have named := d.precedes_macroName? s
  unfold undef
  split
  all_goals
    rename_i found
    rw [found] at named
  · exact named
  · have spelled := named.trans (Session.precedes_reportSpellings _ d.args)
    simp only []
    generalize Session.reportSpellings _ d.args = t at spelled
    exact spelled.trans (d.precedes_reportExtra { t with macros := t.macros.erase _ } 1)

theorem precedes_includeHeader :
    s.journal.Precedes (d.includeHeader setup place s).2.journal := by
  unfold includeHeader
  split
  · exact s.precedes_report _ _ _
  · have read := s.precedes_readHeaderName setup place d.args
    split
    all_goals
      rename_i found
      rw [found] at read
    · exact read.trans (Session.precedes_report _ _ _ _)
    · rename_i name tokens t
      let shorter : Directive := { d with args := tokens }
      have extra := read.trans (shorter.precedes_reportExtra t name.consumed)
      simp only []
      split
      all_goals
        rename_i looked
        have kept : (shorter.reportExtra name.consumed t).journal = _ :=
          congrArg (·.2.journal) looked
        rw [kept] at extra
      · exact extra
      · exact extra.trans (Session.precedes_report _ _ _ _)

theorem precedes_expressionHolds :
    s.journal.Precedes (d.expressionHolds setup place s).2.journal := by
  have first := (s.precedes_reportSpellings d.args).trans
    (Query.precedes_answerAll setup place d.args _)
  unfold expressionHolds
  simp only []
  split
  all_goals
    rename_i answered
    rw [answered] at first
  · exact first.trans (Session.precedes_report _ _ _ _)
  · rename_i tokens t
    have expanded := first.trans
      (Expansion.precedes_expandCondition (t.context setup place) tokens t.expansion)
    let after := Expansion.expandCondition (t.context setup place) tokens t.expansion
    have again := expanded.trans
      (Query.precedes_answerAll setup place after.1 { t with expansion := after.2 })
    split
    all_goals
      rename_i answered
      rw [answered] at again
    · exact again.trans (Session.precedes_report _ _ _ _)
    · exact again.trans (precedes_evaluateCondition _ _ _)

theorem precedes_holds : s.journal.Precedes (d.holds setup place s).2.journal := by
  have name (wanted : Bool) : s.journal.Precedes (d.nameHolds wanted s).2.journal := by
    have named := d.precedes_macroName? s
    unfold nameHolds
    split
    all_goals
      rename_i found
      rw [found] at named
    · exact named
    · exact named.trans (d.precedes_reportExtra _ 1)
  unfold holds
  split
  · exact name _
  · exact name _
  · exact name _
  · exact name _
  · exact d.precedes_expressionHolds setup place s

/-- Going on with a branch only adds reports if entering the branch does. -/
theorem precedes_enterBranch (enter : ConditionFrame → Session)
    (entered : ∀ frame, s.journal.Precedes (enter frame).journal) :
    s.journal.Precedes (d.enterBranch place s enter).journal := by
  unfold enterBranch
  split
  · exact s.precedes_report _ _ _
  · split
    · exact s.precedes_report _ _ _
    · exact entered _

theorem precedes_reportAnyToken (frame : ConditionFrame) :
    s.journal.Precedes (d.reportAnyToken frame s).journal := by
  unfold reportAnyToken
  split
  · exact d.precedes_reportExtra s 0
  · exact .refl _

theorem precedes_turn (condition : Bool) :
    s.journal.Precedes (d.turn place s condition).journal := by
  unfold turn
  split
  · exact .refl _
  · exact .refl _
  · exact .refl _
  · exact d.precedes_enterBranch place s _ fun _ => .refl _
  · exact d.precedes_enterBranch place s _ fun _ => .refl _
  · exact d.precedes_enterBranch place s _ fun _ => .refl _
  · exact d.precedes_enterBranch place s _ fun frame => d.precedes_reportAnyToken s frame
  · unfold closeCondition
    split
    · exact s.precedes_report _ _ _
    · exact d.precedes_reportAnyToken s _
  · exact .refl _

theorem precedes_pragma : s.journal.Precedes (d.pragma setup place s).2.journal := by
  have message (code : Code) (tokens : List Token) :
      s.journal.Precedes (d.reportMessage setup place code tokens s).journal :=
    (s.precedes_expand setup place tokens).trans (Session.precedes_report _ _ _ _)
  unfold pragma
  repeat' split
  all_goals first
    | exact .refl _
    | exact d.precedes_reportExtra s 1
    | exact message _ _

theorem precedes_presentLine : s.journal.Precedes (d.presentLine setup place s).2.journal := by
  have read : s.journal.Precedes (d.lineArguments setup place s).2.journal := by
    have spelled := s.precedes_reportSpellings d.args
    unfold lineArguments
    split
    · exact .refl _
    · simp only []
      split
      · exact spelled.trans (Session.precedes_expand _ setup place d.args)
      · exact spelled
  unfold presentLine
  split
  · exact .refl _
  · simp only []
    split
    · exact read.trans (Session.precedes_report _ _ _ _)
    · simp only []
      split
      · split
        · exact read
        · exact read.trans (Session.precedes_report _ _ _ _)
      · exact read

/-- A directive only adds reports. -/
theorem precedes_execute : s.journal.Precedes (d.execute setup place s).2.journal := by
  cases conditional : d.kind.isConditional with
  | true =>
    rw [execute_of_isConditional _ _ _ _ conditional]
    simp only []
    split
    · exact (d.precedes_holds setup place s).trans (d.precedes_turn place _ _)
    · exact d.precedes_turn place s false
  | false =>
    unfold execute
    split
    · unfold carryOut
      split
      all_goals first
        | exact .refl _
        | exact s.precedes_report _ _ _
        | exact d.precedes_define s
        | exact d.precedes_undef s
        | exact d.precedes_includeHeader setup place s
        | exact d.precedes_pragma setup place s
        | exact d.precedes_presentLine setup place s
        | (rename_i kind; rw [kind] at conditional; cases conditional)
    · exact .refl _

end Directive

end CPreprocessor
