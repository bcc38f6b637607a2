/-
# Directives and open conditionals

A directive changes only the conditionals that the present file has opened: one that is
not conditional changes none (`conditions_execute`), and a conditional one opens, turns
or closes the innermost of them (`exists_conditions_execute`).
-/
import CPreprocessor.Proofs.Directive.Conditional

namespace CPreprocessor

namespace Session

variable (s : Session)

@[simp] theorem conditions_report (token : Token) (code : Code) (detail : Text) :
    (s.report token code detail).conditions = s.conditions := rfl

@[simp] theorem conditions_reportSpelling (token : Token) :
    (s.reportSpelling token).conditions = s.conditions := by
  obtain ⟨journal, reported⟩ := s.exists_reportSpelling token
  rw [reported]
  rfl

@[simp] theorem conditions_reportSpellings (tokens : List Token) :
    (s.reportSpellings tokens).conditions = s.conditions := by
  have same := s.reportSpellings_within s.conditions tokens
  rw [within_self] at same
  rw [same]
  rfl

@[simp] theorem conditions_expand (setup : Setup) (place : Place) (tokens : List Token) :
    (s.expand setup place tokens).2.conditions = s.conditions := rfl

@[simp] theorem conditions_readHeaderName (setup : Setup) (place : Place) (tokens : List Token) :
    (s.readHeaderName setup place tokens).2.2.conditions = s.conditions :=
  congrArg (·.2.2.conditions) (s.readHeaderName_within s.conditions setup place tokens)

@[simp] theorem conditions_findHeader (setup : Setup) (place : Place) (next : Bool)
    (name : IncludeName) : (s.findHeader setup place next name).2.conditions = s.conditions := rfl

end Session

namespace Directive

variable (d : Directive) (setup : Setup) (place : Place) (s : Session)

@[simp] theorem conditions_reportExtra (used : Nat) :
    (d.reportExtra used s).conditions = s.conditions := by
  obtain ⟨journal, reported⟩ := d.exists_reportExtra s used
  rw [reported]
  rfl

@[simp] theorem conditions_macroName? : (d.macroName? s).2.conditions = s.conditions :=
  congrArg (·.2.conditions) (d.macroName?_within s s.conditions)

theorem conditions_define : (d.define s).conditions = s.conditions := by
  have named := d.conditions_macroName? s
  unfold define
  split
  · rename_i found
    rwa [found] at named
  · rename_i name t found
    rw [found] at named
    simp only []
    split
    · simpa using named
    · split <;> simpa using named

theorem conditions_undef : (d.undef s).conditions = s.conditions := by
  have named := d.conditions_macroName? s
  unfold undef
  split
  · rename_i found
    rwa [found] at named
  · rename_i name t found
    rw [found] at named
    simpa using named

theorem conditions_includeHeader :
    (d.includeHeader setup place s).2.conditions = s.conditions := by
  unfold includeHeader
  split
  · rfl
  · have read := s.conditions_readHeaderName setup place d.args
    split
    · rename_i found
      rw [found] at read
      exact read
    · rename_i name tokens t found
      rw [found] at read
      simp only []
      have same : (({ d with args := tokens } : Directive).reportExtra name.consumed t).conditions
          = s.conditions :=
        (conditions_reportExtra _ t name.consumed).trans read
      split
      · rename_i looked
        exact (congrArg (·.2.conditions) looked).symm.trans same
      · rename_i looked
        exact (congrArg (·.2.conditions) looked).symm.trans same

theorem conditions_pragma : (d.pragma setup place s).2.conditions = s.conditions := by
  unfold pragma
  repeat' split
  all_goals first | rfl | exact d.conditions_reportExtra s 1

theorem conditions_presentLine : (d.presentLine setup place s).2.conditions = s.conditions := by
  have read : (d.lineArguments setup place s).2.conditions = s.conditions := by
    unfold lineArguments
    split
    · rfl
    · simp only []
      split
      · rw [Session.conditions_expand, Session.conditions_reportSpellings]
      · rw [Session.conditions_reportSpellings]
  unfold presentLine
  split
  · rfl
  · simp only []
    split
    · exact read
    · simp only []
      split
      · split <;> exact read
      · exact read

/-- A directive that is not conditional does not change the open conditionals. -/
theorem conditions_execute (other : d.kind.isConditional = false) :
    (d.execute setup place s).2.conditions = s.conditions := by
  unfold execute
  split
  · unfold carryOut
    split
    all_goals first
      | rfl
      | exact d.conditions_define s
      | exact d.conditions_undef s
      | exact d.conditions_includeHeader setup place s
      | exact d.conditions_pragma setup place s
      | exact d.conditions_presentLine setup place s
      | (rename_i kind; rw [kind] at other; cases other)
  · rfl

/-- The number of conditionals that a directive leaves open, of `n` that its file has open. -/
def leavesOpen (n : Nat) : Nat :=
  if d.kind.opens then n + 1 else if d.kind = .endif then n - 1 else n

/-- The innermost conditionals, which a file has opened itself, and the others. -/
structure Layer (place : Place) (mine rest : List ConditionFrame) : Prop where
  here : ∀ c ∈ mine, c.includeDepth = place.includeDepth
  below : ∀ c ∈ rest, c.includeDepth < place.includeDepth

variable {place} {mine rest : List ConditionFrame}

theorem present?_of_layer (layer : Layer place mine rest) :
    present? place (s.within ⟨mine ++ rest⟩) = mine.head? := by
  cases mine with
  | cons c more =>
    simp [present?, ConditionStack.top?, layer.here c List.mem_cons_self]
  | nil =>
    cases rest with
    | nil => rfl
    | cons c more =>
      have below := layer.below c List.mem_cons_self
      simp [present?, ConditionStack.top?, Option.filter, Nat.ne_of_lt below]

/-- The present file has opened some of the innermost conditionals, and the directive opens another one
or is about these. -/
structure Tops (place : Place) (mine rest : List ConditionFrame) : Prop where
  here : ∀ c ∈ mine, c.includeDepth = place.includeDepth
  present : d.kind.opens = true ∨ present? place (s.within ⟨mine ++ rest⟩) = mine.head?

theorem Layer.tops (layer : Layer place mine rest) : d.Tops s place mine rest :=
  ⟨layer.here, .inr (present?_of_layer s layer)⟩

/-- A conditional directive changes only the conditionals that it is about. -/
theorem exists_conditions_turn (tops : d.Tops s place mine rest) (condition : Bool)
    (conditional : d.kind.isConditional = true) :
    ∃ mine', (∀ c ∈ mine', c.includeDepth = place.includeDepth)
      ∧ mine'.length = d.leavesOpen mine.length
      ∧ (d.turn place (s.within ⟨mine ++ rest⟩) condition).conditions.frames = mine' ++ rest := by
  by_cases opens : d.kind.opens = true
  · let live := (⟨mine ++ rest⟩ : ConditionStack).isLive
    let opened : ConditionFrame :=
      ⟨.first, d.hash, live && condition, if live then condition else true, live, place.includeDepth⟩
    refine ⟨opened :: mine, ?_, by simp [leavesOpen, opens], ?_⟩
    · intro c member
      obtain rfl | member := List.mem_cons.mp member
      · rfl
      · exact tops.here c member
    · cases kind : d.kind <;> simp [kind, DirectiveKind.opens] at opens
      all_goals
        simp only [turn, kind]
        rfl
  · have present := tops.present.resolve_left opens
    cases mine with
    | nil =>
      have stays : d.leavesOpen 0 = 0 := by simp [leavesOpen, opens]
      refine ⟨[], tops.here, stays.symm, ?_⟩
      cases kind : d.kind <;> simp [kind, DirectiveKind.opens, DirectiveKind.isConditional] at opens conditional
      all_goals
        simp only [turn, kind, enterBranch, enterLast, closeCondition, present, List.head?_nil]
        rfl
    | cons c more =>
      have others : ∀ e ∈ more, e.includeDepth = place.includeDepth := fun e member =>
        tops.here e (List.mem_cons_of_mem _ member)
      have changed (c' : ConditionFrame) (same : c'.includeDepth = c.includeDepth) :
          ∀ e ∈ c' :: more, e.includeDepth = place.includeDepth := by
        intro e member
        obtain rfl | member := List.mem_cons.mp member
        · exact same.trans (tops.here c List.mem_cons_self)
        · exact others e member
      by_cases closes : d.kind = .endif
      · refine ⟨more, others, by simp [leavesOpen, closes, DirectiveKind.opens], ?_⟩
        simp only [turn, closes, closeCondition, present, List.head?_cons, reportAnyToken]
        split <;> simp [ConditionStack.pop]
      · by_cases last : c.branch = .last
        · refine ⟨{ c with live := false, taken := true } :: more, changed _ rfl,
            by simp [leavesOpen, opens, closes], ?_⟩
          cases kind : d.kind <;>
            simp [kind, DirectiveKind.opens, DirectiveKind.isConditional] at opens conditional closes
          all_goals
            simp only [turn, kind, enterBranch, enterLast, present, List.head?_cons, if_pos last]
            rfl
        · have kinds : d.kind.goesOn = true ∨ d.kind = .elseBranch := by
            cases kind : d.kind <;>
              simp_all [DirectiveKind.opens, DirectiveKind.goesOn, DirectiveKind.isConditional]
          obtain goesOn | isElse := kinds
          · let live := !c.taken && c.parentLive && condition
            refine ⟨{ c with branch := .further, live, taken := c.taken || live } :: more,
              changed _ rfl, by simp [leavesOpen, opens, closes], ?_⟩
            cases kind : d.kind <;> simp [kind, DirectiveKind.goesOn] at goesOn
            all_goals
              simp only [turn, kind, enterBranch, present, List.head?_cons, if_neg last]
              rfl
          · refine ⟨{ c with
                branch := .last, live := !c.taken && c.parentLive, taken := true } :: more,
              changed _ rfl, by simp [leavesOpen, opens, closes], ?_⟩
            simp only [turn, isElse, enterBranch, enterLast, present, List.head?_cons, if_neg last,
              reportAnyToken]
            split <;> simp [ConditionStack.enterLast, ConditionStack.modifyTop]

variable {s} in
/-- A directive changes only the conditionals that it is about. -/
theorem Tops.exists_conditions_execute (tops : d.Tops s place mine rest)
    (split : s.conditions.frames = mine ++ rest) :
    ∃ mine', (∀ c ∈ mine', c.includeDepth = place.includeDepth)
      ∧ mine'.length = d.leavesOpen mine.length
      ∧ (d.execute setup place s).2.conditions.frames = mine' ++ rest := by
  have within (t : Session) (same : t.conditions = s.conditions) : t.within ⟨mine ++ rest⟩ = t :=
    Session.within_of_conditions (by rw [same, ← split])
  cases conditional : d.kind.isConditional with
  | false =>
    refine ⟨mine, tops.here, ?_, ?_⟩
    · cases kind : d.kind <;>
        simp_all [leavesOpen, DirectiveKind.isConditional, DirectiveKind.opens]
    · rw [d.conditions_execute setup place s conditional, split]
  | true =>
    rw [execute_of_isConditional _ _ _ _ conditional]
    simp only []
    by_cases asks : d.asks place s = true
    · have turned := d.exists_conditions_turn (d.holds setup place s).2 ⟨tops.here, tops.present⟩
        (d.holds setup place s).1 conditional
      rw [within _ (conditions_holds ..)] at turned
      rwa [if_pos asks]
    · have turned := d.exists_conditions_turn s tops false conditional
      rw [within s rfl] at turned
      rwa [if_neg asks]

variable {s} in
/-- A directive changes only the conditionals that the present file has opened. -/
theorem exists_conditions_execute (layer : Layer place mine rest)
    (split : s.conditions.frames = mine ++ rest) :
    ∃ mine', Layer place mine' rest ∧ mine'.length = d.leavesOpen mine.length
      ∧ (d.execute setup place s).2.conditions.frames = mine' ++ rest := by
  obtain ⟨mine', here, opened, after⟩ := (layer.tops d s).exists_conditions_execute d setup split
  exact ⟨mine', ⟨here, layer.below⟩, opened, after⟩

end Directive

end CPreprocessor
