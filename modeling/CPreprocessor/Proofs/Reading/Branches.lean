/-
# Which lines of a conditional count

A file whose conditionals are in order is a tree: lines of text and conditionals,
whose branches are trees again. The tree says at once which lines count
(`Group.select`): of each conditional that counts, the conditions are judged in order
until one holds, and only the lines after that one count, or those after `#else` if
none holds; nothing inside a branch that does not count is looked at.

The reader knows no tree. It meets the lines one by one and keeps a stack of open
conditionals. The main statement, `reads_select`, says that it gives exactly the tokens
that the tree selects and judges exactly the conditions that the tree judges, in the
same order, and that the open conditionals are at the end what they were before.
-/
import CPreprocessor.Proofs.Reading.Following

namespace CPreprocessor

/-! ## Trees of lines -/

mutual

/-- Lines of a file with their conditionals in order. -/
inductive Group where
  | empty
  /-- A line without a directive. -/
  | text (line : List Token) (rest : Group)
  /-- A conditional: the directive that opens it, the lines of its first branch, and its other
  branches with its end. -/
  | conditional (opening : Directive) (opens : opening.kind.opens = true) (first : Group)
      (others : Branches) (rest : Group)

/-- The branches of a conditional after the first one, up to its end. -/
inductive Branches where
  | close (closing : Directive) (closes : closing.kind = .endif)
  | last (d : Directive) (isLast : d.kind = .elseBranch) (body : Group) (closing : Directive)
      (closes : closing.kind = .endif)
  | further (d : Directive) (isFurther : d.kind.goesOn = true) (body : Group) (others : Branches)

end

mutual

/-- The lines of a tree, in the order of the file. -/
def Group.items : Group → List Item
  | .empty => []
  | .text line rest => line.map .token ++ rest.items
  | .conditional opening _ first others rest =>
    .directive opening :: (first.items ++ (others.items ++ rest.items))

/-- The lines of the branches of a conditional, in the order of the file. -/
def Branches.items : Branches → List Item
  | .close closing _ => [.directive closing]
  | .last d _ body closing _ => .directive d :: (body.items ++ [.directive closing])
  | .further d _ body others => .directive d :: (body.items ++ others.items)

end

/-- What happens after a branch has been chosen: no condition is judged any more, and no line
counts. The directives without arguments may still have tokens too many. -/
def Branches.passOver : Branches → Session → Session
  | .close closing _, s => closing.reportExtra 0 s
  | .last d _ _ closing _, s => closing.reportExtra 0 (d.reportExtra 0 s)
  | .further _ _ _ others, s => others.passOver s

mutual

/-- The lines that count in a tree that counts, and the conditions that are judged. -/
def Group.select (setup : Setup) (place : Place) : Group → Session → List Event × Session
  | .empty, s => ([], s)
  | .text line rest, s =>
    let more := rest.select setup place (s.reportSpellings line)
    (line.map .gives ++ more.1, more.2)
  | .conditional opening _ first others rest, s =>
    let judged := opening.holds setup place s
    let kept :=
      if judged.1 then
        let body := first.select setup place judged.2
        (body.1, others.passOver body.2)
      else
        others.select setup place judged.2
    let more := rest.select setup place kept.2
    (.judges opening :: (kept.1 ++ more.1), more.2)

/-- The lines that count in the branches of a conditional that counts, if no branch has been chosen
before. -/
def Branches.select (setup : Setup) (place : Place) : Branches → Session → List Event × Session
  | .close closing _, s => ([], closing.reportExtra 0 s)
  | .last d _ body closing _, s =>
    let kept := body.select setup place (d.reportExtra 0 s)
    (kept.1, closing.reportExtra 0 kept.2)
  | .further d _ body others, s =>
    let judged := d.holds setup place s
    let kept :=
      if judged.1 then
        let body := body.select setup place judged.2
        (body.1, others.passOver body.2)
      else
        others.select setup place judged.2
    (.judges d :: kept.1, kept.2)

end

/-! ## The stack of the reader follows the tree -/

section Selecting

variable (setup : Setup) (place : Place)

theorem Branches.passOver_within (b : Branches) (s : Session) (conditions : ConditionStack) :
    b.passOver (s.within conditions) = (b.passOver s).within conditions := by
  match b with
  | .close closing _ => exact Directive.reportExtra_within ..
  | .last d _ _ closing _ => simp only [passOver, Directive.reportExtra_within]
  | .further _ _ _ others => exact others.passOver_within s conditions

mutual

/-- What a tree selects does not depend on the conditionals around it. -/
theorem Group.select_within (g : Group) (s : Session) (conditions : ConditionStack) :
    g.select setup place (s.within conditions)
      = ((g.select setup place s).1, (g.select setup place s).2.within conditions) := by
  match g with
  | .empty => rfl
  | .text line rest =>
    simp only [Group.select, Session.reportSpellings_within, rest.select_within]
  | .conditional opening _ first others rest =>
    simp only [Group.select, Directive.holds_within, first.select_within, others.select_within,
      others.passOver_within]
    split <;> simp only [rest.select_within]

theorem Branches.select_within (b : Branches) (s : Session) (conditions : ConditionStack) :
    b.select setup place (s.within conditions)
      = ((b.select setup place s).1, (b.select setup place s).2.within conditions) := by
  match b with
  | .close closing _ => simp only [Branches.select, Directive.reportExtra_within]
  | .last d _ body closing _ =>
    simp only [Branches.select, Directive.reportExtra_within, body.select_within]
  | .further d _ body others =>
    simp only [Branches.select, Directive.holds_within, body.select_within, others.select_within,
      others.passOver_within]
    split <;> rfl

end

theorem Branches.conditions_passOver (b : Branches) (s : Session) :
    (b.passOver s).conditions = s.conditions := by
  have same := b.passOver_within s s.conditions
  rw [Session.within_self] at same
  rw [same]
  rfl

/-- The open conditionals are the same after a tree. -/
theorem Group.conditions_select (g : Group) (s : Session) :
    (g.select setup place s).2.conditions = s.conditions :=
  congrArg (·.2.conditions) (g.select_within setup place s s.conditions)

theorem Branches.conditions_select (b : Branches) (s : Session) :
    (b.select setup place s).2.conditions = s.conditions :=
  congrArg (·.2.conditions) (b.select_within setup place s s.conditions)

theorem Group.select_inside (g : Group) (s : Session) (frame : ConditionFrame)
    (outer : List ConditionFrame) :
    g.select setup place (s.inside frame outer)
      = ((g.select setup place s).1, (g.select setup place s).2.inside frame outer) :=
  g.select_within setup place s _

mutual

/-- In a place that does not count, a tree changes nothing and nothing is noticed. -/
theorem Group.processAll_of_dead (g : Group) (s : Session) (dead : s.conditions.isLive = false) :
    Item.processAll setup place g.items s = ([], s) := by
  match g with
  | .empty => rfl
  | .text line rest =>
    simp only [Group.items, Item.processAll_append, Item.processAll_tokens_of_dead setup place dead,
      rest.processAll_of_dead s dead, List.append_nil]
  | .conditional opening opens first others rest =>
    have inner := first.processAll_of_dead
      (s.inside ⟨.first, opening.hash, false, true, false, place.includeDepth⟩
        s.conditions.frames) rfl
    have branches := others.processAll_of_taken s
      ⟨.first, opening.hash, false, true, false, place.includeDepth⟩ s.conditions.frames rfl nofun rfl
    simp only [Group.items, Item.processAll, Item.process_opening_of_dead setup place s opens dead,
      Item.processAll_append, inner, branches, Bool.false_eq_true, if_false]
    exact rest.processAll_of_dead s dead

/-- After a branch has been chosen, or where nothing counts, the other branches only end the
conditional. -/
theorem Branches.processAll_of_taken (b : Branches) (s : Session) (frame : ConditionFrame)
    (outer : List ConditionFrame) (here : frame.includeDepth = place.includeDepth)
    (notLast : frame.branch ≠ .last) (taken : frame.taken = true) :
    Item.processAll setup place b.items (s.inside frame outer) =
      ([], (if frame.parentLive then b.passOver s else s).within ⟨outer⟩) := by
  match b with
  | .close closing closes =>
    simp only [Branches.items, Item.processAll, Item.process_closing setup place s frame outer closes here,
      List.append_nil, Branches.passOver]
  | .last d isLast body closing closes =>
    have inner (t : Session) := body.processAll_of_dead
      (t.inside { frame with
        branch := .last, live := !frame.taken && frame.parentLive, taken := true } outer)
      (by rw [Session.isLive_inside, taken]; rfl)
    have closed (t : Session) :
        (Item.directive closing).process setup place (t.inside { frame with
          branch := .last, live := !frame.taken && frame.parentLive, taken := true } outer)
          = ([], (if frame.parentLive then closing.reportExtra 0 t else t).within ⟨outer⟩) :=
      Item.process_closing setup place t _ outer closes here
    simp only [Branches.items, Item.processAll,
      Item.process_last setup place s frame outer isLast here notLast,
      Item.processAll_append, inner, closed, List.append_nil, Branches.passOver]
    split <;> rfl
  | .further d isFurther body others =>
    have inner := body.processAll_of_dead
      (s.inside { frame with branch := .further, live := false } outer) rfl
    have rest := others.processAll_of_taken s { frame with branch := .further, live := false } outer
      here nofun taken
    have entered := Item.process_further setup place s frame outer isFurther here notLast
    rw [taken, if_neg (by simp), ← taken] at entered
    simp only [Branches.items, Item.processAll, entered, Item.processAll_append, inner, rest,
      List.append_nil, Branches.passOver]

end

mutual

/-- In a place that counts, the reader keeps what the tree selects. -/
theorem Group.processAll_of_live (g : Group) {s : Session} (live : s.conditions.isLive = true) :
    Item.processAll setup place g.items s = g.select setup place s := by
  match g with
  | .empty => rfl
  | .text line rest =>
    have still : (s.reportSpellings line).conditions.isLive = true := by
      rw [← s.within_self, Session.reportSpellings_within]
      exact live
    simp only [Group.items, Item.processAll_append, Item.processAll_tokens_of_live setup place live,
      rest.processAll_of_live still, Group.select]
  | .conditional opening opens first others rest =>
    have kept := Directive.conditions_holds opening setup place s
    simp only [Group.items, Item.processAll, Item.process_opening_of_live setup place s opens live,
      Item.processAll_append, Group.select]
    generalize opening.holds setup place s = judged at kept ⊢
    obtain ⟨condition, t⟩ := judged
    simp only [] at kept ⊢
    cases condition with
    | true =>
      have inner := first.processAll_of_live
        (s := t.inside ⟨.first, opening.hash, true, true, true, place.includeDepth⟩
          s.conditions.frames) rfl
      rw [Group.select_inside] at inner
      have branches := others.processAll_of_taken setup place (first.select setup place t).2
        ⟨.first, opening.hash, true, true, true, place.includeDepth⟩ s.conditions.frames rfl nofun rfl
      have restored : ((others.passOver (first.select setup place t).2).within
          ⟨s.conditions.frames⟩) = others.passOver (first.select setup place t).2 :=
        Session.within_of_conditions (by
          rw [Branches.conditions_passOver, Group.conditions_select, kept])
      simp only [if_true] at branches
      rw [restored] at branches
      have more := rest.processAll_of_live
        (s := others.passOver (first.select setup place t).2) (by
          rw [Branches.conditions_passOver, Group.conditions_select, kept]
          exact live)
      simp only [inner, branches, more, if_true, List.nil_append, List.singleton_append]
    | false =>
      have inner := first.processAll_of_dead setup place
        (t.inside ⟨.first, opening.hash, false, false, true, place.includeDepth⟩
          s.conditions.frames) rfl
      have branches := others.processAll_of_open t .first opening.hash false s.conditions.frames nofun
      have restored : ((others.select setup place t).2.within ⟨s.conditions.frames⟩)
          = (others.select setup place t).2 :=
        Session.within_of_conditions (by rw [Branches.conditions_select, kept])
      rw [restored] at branches
      have more := rest.processAll_of_live (s := (others.select setup place t).2) (by
        rw [Branches.conditions_select, kept]
        exact live)
      simp only [inner, branches, more, Bool.false_eq_true, if_false, List.nil_append,
        List.singleton_append]

/-- Where lines count and no branch has been chosen, the reader keeps what the branches select. -/
theorem Branches.processAll_of_open (b : Branches) (s : Session) (branch : Branch) (opener : Token)
    (live : Bool) (outer : List ConditionFrame) (notLast : branch ≠ .last) :
    Item.processAll setup place b.items
        (s.inside ⟨branch, opener, live, false, true, place.includeDepth⟩ outer) =
      ((b.select setup place s).1, (b.select setup place s).2.within ⟨outer⟩) := by
  match b with
  | .close closing closes =>
    simp only [Branches.items, Item.processAll, Item.process_closing setup place s _ outer closes,
      List.append_nil, Branches.select, if_true]
  | .last d isLast body closing closes =>
    have inner := body.processAll_of_live (s := (d.reportExtra 0 s).inside
      ⟨.last, opener, true, true, true, place.includeDepth⟩ outer) rfl
    rw [Group.select_inside] at inner
    have entered := Item.process_last setup place s
      ⟨branch, opener, live, false, true, place.includeDepth⟩ outer isLast rfl notLast
    simp only [if_true, Bool.not_false, Bool.and_true] at entered
    simp only [Branches.items, Item.processAll, entered, Item.processAll_append, inner,
      Item.process_closing setup place _ _ outer closes, if_true, List.append_nil, List.nil_append,
      Branches.select]
  | .further d isFurther body others =>
    have entered := Item.process_further setup place s
      ⟨branch, opener, live, false, true, place.includeDepth⟩ outer isFurther rfl notLast
    simp only [Bool.not_false, Bool.and_true, if_true] at entered
    simp only [Branches.items, Item.processAll, entered, Item.processAll_append, Branches.select]
    generalize d.holds setup place s = judged
    obtain ⟨condition, t⟩ := judged
    simp only []
    cases condition with
    | true =>
      have inner := body.processAll_of_live
        (s := t.inside ⟨.further, opener, true, true, true, place.includeDepth⟩ outer) rfl
      rw [Group.select_inside] at inner
      have branches := others.processAll_of_taken setup place (body.select setup place t).2
        ⟨.further, opener, true, true, true, place.includeDepth⟩ outer rfl nofun rfl
      simp only [if_true] at branches
      simp only [inner, branches, if_true, List.append_nil, List.singleton_append]
    | false =>
      have inner := body.processAll_of_dead setup place
        (t.inside ⟨.further, opener, false, false, true, place.includeDepth⟩ outer) rfl
      have branches := others.processAll_of_open t .further opener false outer nofun
      simp only [inner, branches, Bool.false_eq_true, if_false, List.nil_append,
        List.singleton_append]

end

end Selecting

end CPreprocessor
