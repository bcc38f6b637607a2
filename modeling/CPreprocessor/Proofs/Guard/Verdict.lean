/-
# The guard of a whole file

What a reader finds out about the guard of a file follows from the lines of the file:
which of them are directives, of which kind, and which name an `#ifndef` tests. A file
is guarded by a name if at its end this name has been found (`Lexer.IsGuarded`). All
lines of a guarded file stand in the first branch of one conditional, and that branch
does not count where the name is defined. So such a file gives nothing and changes
nothing but the journal (`IsGuarded.processAll`).
-/
import CPreprocessor.Proofs.Reading.Following

namespace CPreprocessor

namespace Guard

/-- The number of open conditionals after an item. There are `depth` before it, `base` of them from
other files. -/
def depthAfter (base depth : Nat) : Item → Nat
  | .directive d =>
    if d.kind.opens then depth + 1
    else if d.kind = .endif ∧ base < depth then depth - 1
    else depth
  | _ => depth

/-- The guard after an item, and the number of open conditionals. -/
def follow (base : Nat) (state : Guard × Nat) (item : Item) : Guard × Nat :=
  (match item with
    | .token _ => state.1.afterToken
    | .directive d => state.1.afterDirective d state.2 (depthAfter base state.2 item)
    | .finish _ => state.1,
    depthAfter base state.2 item)

theorem follow_absent (base depth : Nat) (item : Item) :
    (follow base (.absent, depth) item).1 = .absent := by
  cases item <;> rfl

/-- A file that has turned out not to be guarded stays so. -/
theorem foldl_follow_absent (base : Nat) (items : List Item) {state : Guard × Nat}
    (absent : state.1 = .absent) : (items.foldl (follow base) state).1 = .absent := by
  induction items generalizing state with
  | nil => exact absent
  | cons item rest ih =>
    obtain ⟨guard, depth⟩ := state
    cases absent
    exact ih (follow_absent base depth item)

/-- Nothing follows the end of a guard. -/
theorem eq_nil_of_foldl_closed {base depth : Nat} {items : List Item} {name name' : Text}
    (noFinish : ∀ item ∈ items, ∀ final, item ≠ .finish final)
    (closed : (items.foldl (follow base) (.closed name, depth)).1 = .closed name') : items = [] := by
  cases items with
  | nil => rfl
  | cons item rest =>
    have absent : (follow base (.closed name, depth) item).1 = .absent := by
      cases item with
      | token given => rfl
      | directive d => rfl
      | finish final => exact absurd rfl (noFinish _ List.mem_cons_self final)
    rw [List.foldl_cons, foldl_follow_absent base rest absent] at closed
    cases closed

/-- A guarded file starts with the directive that opens its guard. -/
theorem exists_opening {items : List Item} {name : Text}
    (noFinish : ∀ item ∈ items, ∀ final, item ≠ .finish final)
    (closed : (items.foldl (follow 0) (.unread, 0)).1 = .closed name) :
    ∃ d rest opened, items = .directive d :: rest ∧ opening? d = some opened
      ∧ (rest.foldl (follow 0) (.inside opened 1, 1)).1 = .closed name := by
  cases items with
  | nil => cases closed
  | cons item rest =>
    rw [List.foldl_cons] at closed
    cases item with
    | token given =>
      rw [foldl_follow_absent 0 rest (by rfl)] at closed
      cases closed
    | finish final => exact absurd rfl (noFinish _ List.mem_cons_self final)
    | directive d =>
      cases opening : opening? d with
      | none =>
        have absent : (follow 0 (.unread, 0) (.directive d)).1 = .absent := by
          simp only [follow, afterDirective, opening]
        rw [foldl_follow_absent 0 rest absent] at closed
        cases closed
      | some opened =>
        have isIfndef : d.kind = .ifndef := by
          unfold opening? at opening
          split at opening
          · assumption
          · cases opening
        have first : follow 0 (.unread, 0) (.directive d) = (.inside opened 1, 1) := by
          simp [follow, afterDirective, opening, depthAfter, isIfndef, DirectiveKind.opens]
        rw [first] at closed
        exact ⟨d, rest, opened, rfl, opening, closed⟩

end Guard

/-! ## Branches that do not count -/

/-- The conditional was opened by the present file, in a branch that does not count. -/
structure ConditionFrame.IsDead (place : Place) (frame : ConditionFrame) : Prop where
  here : frame.includeDepth = place.includeDepth
  live : frame.live = false
  parentLive : frame.parentLive = false

namespace Item

variable (setup : Setup) {place : Place} (t : Session) {frame : ConditionFrame}
  (outer : List ConditionFrame)

theorem process_of_not_isConditional {s : Session} (dead : s.conditions.isLive = false)
    {d : Directive} (other : d.kind.isConditional = false) :
    (Item.directive d).process setup place s = ([], s) ∧ d.execute setup place s = (.nothing, s) := by
  have executed : d.execute setup place s = (.nothing, s) := by
    simp only [Directive.execute, dead, other, Bool.or_false, Bool.false_eq_true, if_false]
  have asks : d.asks place s = false := by
    cases kind : d.kind <;> simp_all [DirectiveKind.isConditional, Directive.asks]
  refine ⟨?_, executed⟩
  simp only [process, asks, executed, Bool.false_eq_true, if_false]

/-- Another branch of a conditional in a place that does not count does not count either. -/
theorem process_branch_of_dead (dead : frame.IsDead place) {d : Directive}
    (isBranch : d.kind.goesOn = true ∨ d.kind = .elseBranch) :
    ∃ (frame' : ConditionFrame) (journal : Journal), frame'.IsDead place
      ∧ (Item.directive d).process setup place (t.inside frame outer)
        = ([], (t.annotated journal).inside frame' outer) := by
  have present := Directive.present?_inside t outer dead.here
  have conditional : d.kind.isConditional = true := by
    obtain goesOn | last := isBranch
    · exact DirectiveKind.isConditional_of_goesOn goesOn
    · rw [last]; rfl
  have asks : d.asks place (t.inside frame outer) = false := by
    cases kind : d.kind <;>
      simp_all [DirectiveKind.goesOn, Directive.asks, Session.inside,
        ConditionStack.needsCondition, dead.parentLive]
  simp only [process, Directive.execute_of_isConditional _ _ _ _ conditional, asks,
    Bool.false_eq_true, if_false]
  by_cases last : frame.branch = .last
  · refine ⟨{ frame with live := false, taken := true },
      t.expansion.journal.report d.hash .elseAfterElse d.title,
      ⟨dead.here, rfl, dead.parentLive⟩, ?_⟩
    obtain goesOn | isElse := isBranch
    · cases kind : d.kind <;> simp [kind, DirectiveKind.goesOn] at goesOn
      all_goals
        simp only [Directive.turn, kind, Directive.enterBranch, present, if_pos last]
        rfl
    · simp only [Directive.turn, isElse, Directive.enterLast, Directive.enterBranch, present,
        if_pos last]
      rfl
  · obtain goesOn | isElse := isBranch
    · refine ⟨{ frame with branch := .further, live := false }, t.expansion.journal,
        ⟨dead.here, rfl, dead.parentLive⟩, ?_⟩
      cases kind : d.kind <;> simp [kind, DirectiveKind.goesOn] at goesOn
      all_goals
        simp only [Directive.turn, kind, Directive.enterBranch, present, if_neg last]
        simp [ConditionStack.enterFurther, ConditionStack.modifyTop, Session.inside, Session.within,
          Session.annotated]
    · refine ⟨{ frame with branch := .last, live := false, taken := true }, t.expansion.journal,
        ⟨dead.here, rfl, dead.parentLive⟩, ?_⟩
      simp only [Directive.turn, isElse, Directive.enterLast, Directive.enterBranch, present,
        if_neg last, Directive.reportAnyToken, dead.parentLive, Bool.false_eq_true, if_false]
      simp [ConditionStack.enterLast, ConditionStack.modifyTop, Session.inside, Session.within,
        Session.annotated, dead.parentLive]

theorem isLive_of_inside (dead : frame.live = false) {inner : List ConditionFrame}
    (innerDead : ∀ f ∈ inner, f.IsDead place) :
    (t.within ⟨inner ++ frame :: outer⟩).conditions.isLive = false := by
  cases inner with
  | nil => exact dead
  | cons f more => exact (innerDead f List.mem_cons_self).live

variable {setup} in
theorem quiet_of_isConditional {s : Session} {d : Directive}
    (conditional : d.kind.isConditional = true) : (Item.directive d).Quiet setup place s := by
  show (d.execute setup place s).1 = .nothing
  rw [Directive.execute_of_isConditional _ _ _ _ conditional]

/-- A directive in the first branch of a guard that does not count: it opens, goes on with or closes a
conditional inside the guard, or closes the guard, or there is no guard after all. -/
theorem process_inside (name : Text) (here : frame.includeDepth = place.includeDepth)
    (dead : frame.live = false) {inner : List ConditionFrame}
    (innerDead : ∀ f ∈ inner, f.IsDead place) (d : Directive) :
    (∃ (inner' : List ConditionFrame) (journal : Journal), (∀ f ∈ inner', f.IsDead place)
        ∧ (Item.directive d).process setup place (t.within ⟨inner ++ frame :: outer⟩)
          = ([], (t.annotated journal).within ⟨inner' ++ frame :: outer⟩)
        ∧ Guard.follow 0 (.inside name 1, inner.length + 1) (.directive d)
          = (.inside name 1, inner'.length + 1))
      ∨ (∃ journal : Journal,
          (Item.directive d).process setup place (t.within ⟨inner ++ frame :: outer⟩)
            = ([], (t.annotated journal).within ⟨outer⟩)
          ∧ Guard.follow 0 (.inside name 1, inner.length + 1) (.directive d) = (.closed name, 0))
      ∨ (Guard.follow 0 (.inside name 1, inner.length + 1) (.directive d)).1 = .absent := by
  have notLive := isLive_of_inside t outer dead innerDead
  by_cases opens : d.kind.opens = true
  · refine .inl ⟨⟨.first, d.hash, false, true, false, place.includeDepth⟩ :: inner,
      t.expansion.journal, ?_, process_opening_of_dead setup place _ opens notLive, ?_⟩
    · intro f member
      obtain rfl | member := List.mem_cons.mp member
      · exact ⟨rfl, rfl, rfl⟩
      · exact innerDead f member
    · cases kind : d.kind <;>
        simp_all [DirectiveKind.opens, Guard.follow, Guard.afterDirective, Guard.depthAfter]
  by_cases closes : d.kind = .endif
  · cases inner with
    | nil =>
      obtain ⟨journal, reported⟩ : ∃ journal,
          (if frame.parentLive then d.reportExtra 0 t else t) = t.annotated journal := by
        split
        · exact d.exists_reportExtra t 0
        · exact ⟨t.expansion.journal, rfl⟩
      have closed := process_closing setup place t frame outer closes here
      rw [reported] at closed
      refine .inr (.inl ⟨journal, closed, ?_⟩)
      simp [Guard.follow, Guard.afterDirective, Guard.depthAfter, closes, DirectiveKind.opens]
    | cons f more =>
      have isDead := innerDead f List.mem_cons_self
      have closed := process_closing setup place t f (more ++ frame :: outer) closes isDead.here
      rw [isDead.parentLive, if_neg Bool.false_ne_true] at closed
      refine .inl ⟨more, t.expansion.journal,
        fun g member => innerDead g (List.mem_cons_of_mem _ member), closed, ?_⟩
      simp [Guard.follow, Guard.afterDirective, Guard.depthAfter, closes, DirectiveKind.opens]
  by_cases isBranch : d.kind.goesOn = true ∨ d.kind = .elseBranch
  · cases inner with
    | nil =>
      refine .inr (.inr ?_)
      cases kind : d.kind <;>
        simp_all [DirectiveKind.goesOn, Guard.follow, Guard.afterDirective]
    | cons f more =>
      obtain ⟨f', journal, dead', processed⟩ := process_branch_of_dead setup t (more ++ frame :: outer)
        (innerDead f List.mem_cons_self) isBranch
      refine .inl ⟨f' :: more, journal, ?_, processed, ?_⟩
      · intro g member
        obtain rfl | member := List.mem_cons.mp member
        · exact dead'
        · exact innerDead g (List.mem_cons_of_mem _ member)
      · cases kind : d.kind <;>
          simp_all [DirectiveKind.goesOn, DirectiveKind.opens, Guard.follow, Guard.afterDirective,
            Guard.depthAfter]
  · have other : d.kind.isConditional = false := by
      cases kind : d.kind <;>
        simp_all [DirectiveKind.isConditional, DirectiveKind.goesOn, DirectiveKind.opens]
    refine .inl ⟨inner, t.expansion.journal, innerDead,
      (process_of_not_isConditional setup notLive other).1, ?_⟩
    cases kind : d.kind <;>
      simp_all [DirectiveKind.isConditional, Guard.follow, Guard.afterDirective, Guard.depthAfter,
        DirectiveKind.opens]

/-- The lines of a guarded file after its first one, in a place where the conditional of the guard does
not count: they give nothing, ask the reader for nothing, and close that conditional. Inside it stand
the conditionals of `inner`. -/
theorem processAll_of_inside (frame : ConditionFrame) {name name' : Text}
    (here : frame.includeDepth = place.includeDepth)
    (notCounting : frame.live = false) (items : List Item)
    (noFinish : ∀ item ∈ items, ∀ final, item ≠ .finish final) (inner : List ConditionFrame)
    (innerDead : ∀ f ∈ inner, f.IsDead place) (t : Session)
    (closed : (items.foldl (Guard.follow 0) (.inside name 1, inner.length + 1)).1 = .closed name') :
    ∃ journal, processAll setup place items (t.within ⟨inner ++ frame :: outer⟩)
        = ([], (t.annotated journal).within ⟨outer⟩)
      ∧ AllQuiet setup place items (t.within ⟨inner ++ frame :: outer⟩) := by
  induction items generalizing inner t with
  | nil => cases closed
  | cons item rest ih =>
    have later : ∀ item ∈ rest, ∀ final, item ≠ .finish final := fun item member =>
      noFinish item (List.mem_cons_of_mem _ member)
    have dead := isLive_of_inside t outer notCounting innerDead
    rw [List.foldl_cons] at closed
    cases item with
    | finish final => exact absurd rfl (noFinish _ List.mem_cons_self final)
    | token given =>
      obtain ⟨journal, processed, quiet⟩ := ih later inner innerDead t closed
      have nothing : (Item.token given).process setup place (t.within ⟨inner ++ frame :: outer⟩)
          = ([], t.within ⟨inner ++ frame :: outer⟩) := by
        simp only [process, dead, Bool.false_eq_true, if_false]
      refine ⟨journal, ?_, trivial, ?_⟩
      · simp only [processAll, nothing, processed, List.append_nil]
      · rw [nothing]
        exact quiet
    | directive d =>
      have quietHere : (Item.directive d).Quiet setup place (t.within ⟨inner ++ frame :: outer⟩) := by
        cases conditional : d.kind.isConditional with
        | true => exact quiet_of_isConditional conditional
        | false =>
          exact congrArg Prod.fst (process_of_not_isConditional setup dead conditional).2
      obtain ⟨inner', journal, innerDead', processed, goesOn⟩ | ⟨journal, processed, ends⟩ | absent :=
        process_inside setup t outer name here notCounting innerDead d
      · rw [goesOn] at closed
        obtain ⟨journal', more, quiet⟩ := ih later inner' innerDead' (t.annotated journal) closed
        refine ⟨journal', ?_, quietHere, ?_⟩
        · simp only [processAll, processed, more, List.append_nil]
          rfl
        · rw [processed]
          exact quiet
      · rw [ends] at closed
        obtain rfl := Guard.eq_nil_of_foldl_closed later closed
        refine ⟨journal, ?_, quietHere, trivial⟩
        simp only [processAll, processed, List.append_nil]
      · rw [Guard.foldl_follow_absent 0 rest absent] at closed
        cases closed

end Item

/-! ## Guarded files -/

namespace Lexer

/-- Up to the end of the file, all items stand in the guard `name`. -/
def IsGuarded (l : Lexer) (name : Text) : Prop :=
  ∃ items last final after, l.Reads items last ∧ last.item = (.finish final, after)
    ∧ (items.foldl (Guard.follow 0) (.unread, 0)).1 = .closed name

theorem Reads.not_finish {l last : Lexer} {items : List Item} (reads : l.Reads items last) :
    ∀ item ∈ items, ∀ final, item ≠ .finish final := by
  induction reads with
  | done l => simp
  | token here more ih =>
    rintro item member final rfl
    obtain same | member := List.mem_cons.mp member
    · cases same
    · exact ih _ member final rfl
  | directive here more ih =>
    rintro item member final rfl
    obtain same | member := List.mem_cons.mp member
    · cases same
    · exact ih _ member final rfl

end Lexer

namespace Guard

/-- The guard has the given name or there is none any more. -/
def IsOf (name : Text) (guard : Guard) : Prop :=
  guard = .absent ∨ guard.name? = some name

theorem isOf_follow {name : Text} {base : Nat} {state : Guard × Nat} (isOf : state.1.IsOf name)
    (item : Item) : (follow base state item).1.IsOf name := by
  obtain ⟨guard, depth⟩ := state
  obtain rfl | named := isOf
  · exact .inl (follow_absent base depth item)
  · cases guard with
    | unread => cases named
    | absent => cases named
    | closed other =>
      cases item with
      | finish final => exact .inr named
      | token given => exact .inl rfl
      | directive d => exact .inl rfl
    | inside other opened =>
      cases item with
      | finish final => exact .inr named
      | token given => exact .inr named
      | directive d =>
        simp only [follow, afterDirective]
        split
        · split
          all_goals first | exact .inl rfl | exact .inr named | (split <;> exact .inr named)
        · exact .inr named

/-- The name of a guard stays the one that opened it. -/
theorem isOf_foldl_follow {name : Text} (base : Nat) (items : List Item) (state : Guard × Nat)
    (isOf : state.1.IsOf name) : (items.foldl (follow base) state).1.IsOf name := by
  induction items generalizing state with
  | nil => exact isOf
  | cons item rest ih => exact ih _ (isOf_follow isOf item)

end Guard

namespace Directive

/-- Where a name is defined, an `#ifndef` that tests it does not hold. -/
theorem holds_of_opening {d : Directive} {name : Text} (opening : Guard.opening? d = some name)
    (setup : Setup) (place : Place) {s : Session} (defined : s.macros.isDefined name = true) :
    ∃ journal, d.holds setup place s = (false, s.annotated journal) := by
  unfold Guard.opening? at opening
  split at opening
  · rename_i isIfndef
    obtain ⟨token, first, rfl⟩ := Option.map_eq_some_iff.mp opening
    obtain ⟨first, isName⟩ := Option.filter_eq_some_iff.mp first
    obtain ⟨more, args⟩ : ∃ more, d.args = token :: more := List.head?_eq_some_iff.mp first
    simp only [holds, isIfndef, nameHolds, macroName?, args, isName, Bool.not_true,
      Bool.false_eq_true, if_false]
    by_cases operator : token.lexeme = "defined".toList
    · rw [if_pos operator]
      exact ⟨_, rfl⟩
    · rw [if_neg operator]
      obtain ⟨journal, reported⟩ := d.exists_reportExtra s 1
      refine ⟨journal, ?_⟩
      simp only [reported, Query.isDefined, defined, Bool.true_or]
      rfl
  · cases opening

end Directive

/-- The items of a guarded file give nothing, ask the reader for nothing and change nothing but the
journal, where the name of the guard is defined. -/
theorem Item.processAll_of_closed (setup : Setup) (place : Place) {items : List Item} {name : Text}
    (noFinish : ∀ item ∈ items, ∀ final, item ≠ .finish final)
    (closed : (items.foldl (Guard.follow 0) (.unread, 0)).1 = .closed name) {s : Session}
    (live : s.conditions.isLive = true) (defined : s.macros.isDefined name = true) :
    ∃ d journal, Item.processAll setup place items s = ([.judges d], s.annotated journal)
      ∧ Item.AllQuiet setup place items s := by
  obtain ⟨d, rest, opened, rfl, opening, closed⟩ := Guard.exists_opening noFinish closed
  have sameName : opened = name := by
    have isOf := Guard.isOf_foldl_follow 0 rest (.inside opened 1, 1) (.inr rfl)
    rw [closed] at isOf
    obtain absent | named := isOf
    · cases absent
    · exact (Option.some.inj named).symm
  subst sameName
  have opens : d.kind.opens = true := by
    unfold Guard.opening? at opening
    split at opening
    · rename_i isIfndef
      rw [isIfndef]
      rfl
    · cases opening
  have first := Item.process_opening_of_live setup place s opens live
  obtain ⟨journal, judged⟩ := Directive.holds_of_opening opening setup place defined
  rw [judged] at first
  obtain ⟨journal', processed, quiet⟩ := Item.processAll_of_inside setup s.conditions.frames
    ⟨.first, d.hash, false, false, true, place.includeDepth⟩ rfl rfl rest
    (fun item member => noFinish item (List.mem_cons_of_mem _ member)) [] (by simp)
    (s.annotated journal) closed
  refine ⟨d, journal', ?_, ?_, ?_⟩
  · rw [Item.processAll, first]
    simp only [Session.inside]
    rw [List.nil_append] at processed
    rw [processed]
    rfl
  · exact Item.quiet_of_isConditional (DirectiveKind.isConditional_of_opens opens)
  · rw [first]
    exact quiet

end CPreprocessor
