/-
# Well-nested lines that do not count

The conditional directives of some items are well nested if every conditional that they
open is closed among them and has no branch after its last one (`Item.nest`). Where
nothing counts, such items are gone over without a trace, whatever else they are: no
token is given, and the session, the guard of the file and the files that are open stay
as they are (`Reader.StandsDead.passes`).
-/
import Mathlib.Data.List.Forall2
import CPreprocessor.Proofs.Guard.Readers
import CPreprocessor.Proofs.Run.Passing

namespace CPreprocessor

namespace Item

/-- The conditionals that are open after an item, each with whether its last branch has begun. Outside
of all of them no branch may stand and no end, and no branch after a last one. -/
def nest (stack : List Bool) : Item → Option (List Bool)
  | .directive d =>
    if d.kind.opens then
      some (false :: stack)
    else if d.kind.goesOn then
      if stack.head? = some false then some stack else none
    else if d.kind = .elseBranch then
      if stack.head? = some false then some (true :: stack.tail) else none
    else if d.kind = .endif then
      if stack ≠ [] then some stack.tail else none
    else
      some stack
  | _ => some stack

theorem nest_seen (v : View) (stack : List Bool) (item : Item) :
    (item.seen v).nest stack = item.nest stack := by
  cases item with
  | directive d => simp only [Item.seen, nest, Directive.kind_seen]
  | token given => rfl
  | finish final => rfl

theorem foldlM_nest_seen (v : View) (items : List Item) (stack : List Bool) :
    (items.map (Item.seen v)).foldlM nest stack = items.foldlM nest stack := by
  rw [List.foldlM_map]
  simp only [nest_seen]

end Item

/-- The conditional does not count, and if its last branch has begun, that is known. -/
structure ConditionFrame.IsDeadIn (place : Place) (frame : ConditionFrame) (last : Bool) : Prop where
  dead : frame.IsDead place
  branch : last = false → frame.branch ≠ .last

namespace Item

variable (setup : Setup) {place : Place} (s : Session) {base inner : List ConditionFrame}
  {stack stack' : List Bool}

theorem isLive_append (dead : (⟨base⟩ : ConditionStack).isLive = false)
    (nested : List.Forall₂ (ConditionFrame.IsDeadIn place) inner stack) :
    (⟨inner ++ base⟩ : ConditionStack).isLive = false := by
  cases nested with
  | nil => exact dead
  | cons first _ => exact first.dead.live

/-- A well-nested directive in a place that does not count changes nothing but the open
conditionals. -/
theorem execute_nested (dead : (⟨base⟩ : ConditionStack).isLive = false)
    (nested : List.Forall₂ (ConditionFrame.IsDeadIn place) inner stack) {d : Directive}
    (nests : (Item.directive d).nest stack = some stack') :
    ∃ inner', List.Forall₂ (ConditionFrame.IsDeadIn place) inner' stack'
      ∧ d.execute setup place (s.within ⟨inner ++ base⟩) = (.nothing, s.within ⟨inner' ++ base⟩) := by
  have notLive : (s.within ⟨inner ++ base⟩).conditions.isLive = false := isLive_append dead nested
  -- What an item does to the session is what its directive does.
  have executed {inner' : List ConditionFrame} {events : List Event}
      (conditional : d.kind.isConditional = true)
      (processed : (Item.directive d).process setup place (s.within ⟨inner ++ base⟩)
        = (events, s.within ⟨inner' ++ base⟩)) :
      d.execute setup place (s.within ⟨inner ++ base⟩) = (.nothing, s.within ⟨inner' ++ base⟩) :=
    Prod.ext (quiet_of_isConditional conditional) (Prod.ext_iff.mp processed).2
  by_cases opens : d.kind.opens = true
  · rw [nest, if_pos opens, Option.some.injEq] at nests
    subst nests
    refine ⟨⟨.first, d.hash, false, true, false, place.includeDepth⟩ :: inner,
      .cons ⟨⟨rfl, rfl, rfl⟩, nofun⟩ nested, ?_⟩
    exact executed (DirectiveKind.isConditional_of_opens opens)
      (process_opening_of_dead setup place _ opens notLive)
  by_cases goesOn : d.kind.goesOn = true
  · rw [nest, if_neg opens, if_pos goesOn, Option.ite_none_right_eq_some, Option.some.injEq] at nests
    obtain ⟨first, rfl⟩ := nests
    obtain ⟨outer, rfl⟩ := List.head?_eq_some_iff.mp first
    obtain ⟨frame, rest, isDead, nestedRest, rfl⟩ := List.forall₂_cons_right_iff.mp nested
    have processed := process_further setup place s frame (rest ++ base) goesOn isDead.dead.here
      (isDead.branch rfl)
    rw [isDead.dead.parentLive, Bool.and_false, if_neg Bool.false_ne_true] at processed
    refine ⟨{ frame with branch := .further, live := false, parentLive := false } :: rest,
      .cons ⟨⟨isDead.dead.here, rfl, rfl⟩, nofun⟩ nestedRest, ?_⟩
    exact executed (DirectiveKind.isConditional_of_goesOn goesOn) processed
  by_cases last : d.kind = .elseBranch
  · rw [nest, if_neg opens, if_neg goesOn, if_pos last, Option.ite_none_right_eq_some,
      Option.some.injEq] at nests
    obtain ⟨first, rfl⟩ := nests
    obtain ⟨outer, rfl⟩ := List.head?_eq_some_iff.mp first
    obtain ⟨frame, rest, isDead, nestedRest, rfl⟩ := List.forall₂_cons_right_iff.mp nested
    have processed := process_last setup place s frame (rest ++ base) last isDead.dead.here
      (isDead.branch rfl)
    rw [isDead.dead.parentLive, Bool.and_false, if_neg Bool.false_ne_true] at processed
    refine ⟨{ frame with branch := .last, live := false, taken := true, parentLive := false } :: rest,
      .cons ⟨⟨isDead.dead.here, rfl, rfl⟩, nofun⟩ nestedRest, ?_⟩
    exact executed (by rw [last]; rfl) processed
  by_cases closes : d.kind = .endif
  · rw [nest, if_neg opens, if_neg goesOn, if_neg last, if_pos closes,
      Option.ite_none_right_eq_some, Option.some.injEq] at nests
    obtain ⟨nonempty, rfl⟩ := nests
    obtain ⟨isLast, outer, rfl⟩ := List.exists_cons_of_ne_nil nonempty
    obtain ⟨frame, rest, isDead, nestedRest, rfl⟩ := List.forall₂_cons_right_iff.mp nested
    have processed := process_closing setup place s frame (rest ++ base) closes isDead.dead.here
    rw [isDead.dead.parentLive, if_neg Bool.false_ne_true] at processed
    exact ⟨rest, nestedRest, executed (by rw [closes]; rfl) processed⟩
  · rw [nest, if_neg opens, if_neg goesOn, if_neg last, if_neg closes, Option.some.injEq] at nests
    subst nests
    have other : d.kind.isConditional = false := by
      cases kind : d.kind <;>
        simp_all [DirectiveKind.isConditional, DirectiveKind.goesOn, DirectiveKind.opens]
    exact ⟨inner, nested, (process_of_not_isConditional setup notLive other).2⟩

end Item

/-- The guard of a file is not decided by nested lines: there is none, or its conditional is one of the
first `depth` that are open. -/
def Guard.StaysIn (depth : Nat) : Guard → Prop
  | .absent => True
  | .inside _ opened => opened ≤ depth
  | _ => False

/-- Nested lines leave the guard of their file as it is. -/
theorem Guard.afterDirective_nested {guard : Guard} {depth : Nat} (stays : guard.StaysIn depth)
    {d : Directive} {stack stack' : List Bool} (nests : (Item.directive d).nest stack = some stack')
    (after : Nat) : guard.afterDirective d (stack.length + depth) after = guard := by
  cases guard with
  | unread => exact stays.elim
  | closed name => exact stays.elim
  | absent => rfl
  | inside name opened =>
    simp only [afterDirective]
    split
    · rename_i here
      have outermost : stack = [] := List.length_eq_zero_iff.mp (by
        simp only [StaysIn] at stays
        omega)
      subst outermost
      cases kind : d.kind <;>
        simp_all [Item.nest, DirectiveKind.opens, DirectiveKind.goesOn]
    · rfl

namespace Reader

variable {setup : Setup}

/-- An error that ends the run has been noticed. -/
def IsNoticed (setup : Setup) (r : Reader) : Prop :=
  setup.config.failFast = true → 0 < r.session.journal.errorCount → r.status ≠ .ok

theorem checkAbort_of_isNoticed {r : Reader} (noticed : r.IsNoticed setup) :
    r.checkAbort setup = r := by
  unfold checkAbort
  split
  · rename_i aborts
    simp only [Bool.and_eq_true, decide_eq_true_eq] at aborts
    exact absurd aborts.2 (noticed aborts.1.1 aborts.1.2)
  · rfl

theorem isNoticed_checkAbort (r : Reader) : (r.checkAbort setup).IsNoticed setup := by
  intro failFast errors
  unfold checkAbort at errors ⊢
  split
  · exact nofun
  · rename_i goesOn
    rw [if_neg goesOn] at errors
    simp only [failFast, errors, decide_true, Bool.true_and, decide_eq_true_eq] at goesOn
    exact goesOn

/-- The reader goes on reading its innermost file in a place that does not count. -/
structure StandsDead (setup : Setup) (r : Reader) (frame : Frame) (outer : List Frame) : Prop where
  isOpen : r.frames = frame :: outer
  idle : r.queued = []
  goesOn : r.status ≠ .aborted
  noticed : r.IsNoticed setup
  dead : r.session.conditions.isLive = false
  stays : frame.guard.StaysIn r.session.conditions.depth

/-- The reader in another place of its innermost file, with further conditionals open. -/
def movedTo (start : Reader) (frame : Frame) (outer : List Frame) (inner : List ConditionFrame)
    (l : Lexer) : Reader :=
  { start with
    session := start.session.within ⟨inner ++ start.session.conditions.frames⟩
    frames := { frame with lexer := l } :: outer }

namespace StandsDead

variable {start : Reader} {frame : Frame} {outer : List Frame}
  (stands : start.StandsDead setup frame outer) {inner : List ConditionFrame} {stack : List Bool}
  (nested : List.Forall₂ (ConditionFrame.IsDeadIn start.place) inner stack) {l after : Lexer}
include stands

include nested in
/-- A token is gone over. -/
theorem step_token {token : Token} (here : l.item = (.token token, after)) :
    (start.movedTo frame outer inner l).step setup
      = .goOn (start.movedTo frame outer inner after) := by
  have notLive : (start.movedTo frame outer inner l).session.conditions.isLive = false :=
    Item.isLive_append stands.dead nested
  have idle : (start.movedTo frame outer inner l).queued = [] := stands.idle
  rw [step_of_readToken setup idle rfl stands.goesOn, readToken_eq]
  simp only [here, notLive, Bool.false_eq_true, if_false]
  rfl

include nested in
/-- A directive is gone over; it may open or close conditionals that do not count. -/
theorem step_directive {d : Directive} (here : l.item = (.directive d, after)) {stack' : List Bool}
    (nests : (Item.directive d).nest stack = some stack') :
    ∃ inner', List.Forall₂ (ConditionFrame.IsDeadIn start.place) inner' stack'
      ∧ (start.movedTo frame outer inner l).step setup
        = .goOn (start.movedTo frame outer inner' after) := by
  obtain ⟨inner', nested', executed⟩ :=
    Item.execute_nested setup start.session stands.dead nested nests
  refine ⟨inner', nested', ?_⟩
  have idle : (start.movedTo frame outer inner l).queued = [] := stands.idle
  have place : (start.movedTo frame outer inner l).place = start.place := by
    simp only [Reader.place, movedTo, stands.isOpen]
  have guard (depth : Nat) : frame.guard.afterDirective d
      (inner ++ start.session.conditions.frames).length depth = frame.guard := by
    rw [List.length_append, nested.length_eq]
    exact Guard.afterDirective_nested stands.stays nests depth
  have noticed : (start.movedTo frame outer inner' after).IsNoticed setup := stands.noticed
  rw [step_of_readToken setup idle rfl stands.goesOn, readToken_eq]
  simp only [here, afterDirective, place]
  rw [show (start.movedTo frame outer inner l).session
    = start.session.within ⟨inner ++ start.session.conditions.frames⟩ from rfl, executed]
  simp only [act, Session.conditions_within, ConditionStack.depth, guard]
  exact congrArg Step.goOn (checkAbort_of_isNoticed noticed)

/-- Where nothing counts, well-nested lines are gone over without a trace. -/
theorem passes {items : List Item} {last : Lexer} (reads : frame.lexer.Reads items last)
    (nests : items.foldlM Item.nest [] = some []) :
    start.Passes setup { start with frames := { frame with lexer := last } :: outer } := by
  have goesOver {items : List Item} {l last : Lexer} (reads : l.Reads items last)
      (inner : List ConditionFrame) (stack : List Bool)
      (nested : List.Forall₂ (ConditionFrame.IsDeadIn start.place) inner stack)
      (nests : items.foldlM Item.nest stack = some []) :
      (start.movedTo frame outer inner l).Passes setup (start.movedTo frame outer [] last) := by
    induction reads generalizing inner stack with
    | done l =>
      cases nests
      cases nested
      exact .here _
    | token here more ih =>
      exact .later (stands.step_token nested here) (ih inner stack nested nests)
    | directive here more ih =>
      rw [List.foldlM_cons, Option.bind_eq_bind, Option.bind_eq_some_iff] at nests
      obtain ⟨stack', nests, later⟩ := nests
      obtain ⟨inner', nested', stepped⟩ := stands.step_directive nested here nests
      exact .later stepped (ih inner' stack' nested' later)
  have from_start : start = start.movedTo frame outer [] frame.lexer := by
    have isOpen := stands.isOpen
    cases start
    cases isOpen
    rfl
  have passed := goesOver reads [] [] .nil nests
  rwa [← from_start] at passed

end StandsDead

end Reader

end CPreprocessor
