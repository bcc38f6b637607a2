/-
# Definitions set aside and restored

For each name the table holds a definition, or none, and a stack of those that were set aside. An
edit on the table reads and changes only what is held for its own name (`slot_apply`), so what is
held for a name after some edits comes from those of them that are about it. Between two
edits that set the definition of a name aside and restore it, edits may do what they
like with the name as long as they restore no more than they set aside (`pop_applyAll_push`).
-/
import Mathlib.Data.List.Infix
import Mathlib.Data.List.Induction
import CPreprocessor.Macro.Table

namespace CPreprocessor

namespace MacroTable

/-- What can be done to the table. -/
inductive Edit where
  | define (m : Macro)
  | undefine (name : Text)
  | push (name : Text)
  | pop (name : Text)

namespace Edit

/-- The name that the edit is about. -/
def name : Edit → Text
  | .define m => m.name
  | .undefine name => name
  | .push name => name
  | .pop name => name

/-- The edit sets the definition of a name aside. -/
def isPush (name : Text) : Edit → Bool
  | .push other => other == name
  | _ => false

/-- The edit restores a definition of a name. -/
def isPop (name : Text) : Edit → Bool
  | .pop other => other == name
  | _ => false

theorem not_isPush_of_isPop {name : Text} (edit : Edit) (restores : edit.isPop name) :
    ¬edit.isPush name := by
  cases edit with
  | define m => simp [isPush]
  | undefine other => simp [isPush]
  | push other => simp [isPop] at restores
  | pop other => simp [isPush]

/-- At no point have more definitions of a name been restored than set aside, and in the end as
many. -/
structure AreBalanced (name : Text) (edits : List Edit) : Prop where
  inside : ∀ before, before <+: edits → before.countP (isPop name) ≤ before.countP (isPush name)
  whole : edits.countP (isPop name) = edits.countP (isPush name)

end Edit

/-- The table after an edit. -/
def apply (table : MacroTable) : Edit → MacroTable
  | .define m => (table.define m).2
  | .undefine name => (table.undefine name).2
  | .push name => table.push name
  | .pop name => (table.pop name).2

/-- The table after some edits, one after the other. -/
def applyAll (table : MacroTable) (edits : List Edit) : MacroTable :=
  edits.foldl apply table

/-- What the table holds for one name. -/
structure Slot where
  /-- The definition of the name. -/
  current : Option Macro
  /-- The definitions that were set aside, the latest first. -/
  saved : List (Option Macro)

/-- What the table holds for a name. -/
def slot (table : MacroTable) (name : Text) : Slot where
  current := table.find? name
  saved := (table.saved.filter (·.1 == name)).map Prod.snd

namespace Slot

/-- The definition that counts after one more: the same definition leaves the old one in place. -/
def redefined (m : Macro) : Option Macro → Macro
  | some old => if old.sameDefinition m then old else m
  | none => m

/-- What is held for a name after an edit on it. -/
def apply (slot : Slot) : Edit → Slot
  | .define m => { slot with current := some (redefined m slot.current) }
  | .undefine _ => { slot with current := none }
  | .push _ => { slot with saved := slot.current :: slot.saved }
  | .pop name =>
    match slot.saved with
    | [] => slot
    | definition :: saved => ⟨definition.map ({ · with name }), saved⟩

end Slot

variable {table : MacroTable} {name : Text}

/-! ## One edit -/

theorem find?_erase (table : MacroTable) (name other : Text) :
    (table.erase name).find? other = if name = other then none else table.find? other := by
  rw [find?, find?, erase, List.find?_filter]
  split
  · rename_i same
    subst same
    rw [List.find?_eq_none]
    intro m _
    simp
  · rename_i differs
    congr 1
    funext m
    by_cases named : m.name = other
    · simp [named, Ne.symm differs]
    · simp [named]

theorem find?_insert (table : MacroTable) (m : Macro) (other : Text) :
    (table.insert m).find? other = if m.name = other then some m else table.find? other := by
  rw [insert, find?, List.find?_cons]
  by_cases same : m.name = other
  · simp [same]
  · have rest := find?_erase table m.name other
    rw [if_neg same] at rest ⊢
    rw [beq_false_of_ne same]
    exact rest

theorem slot_erase (table : MacroTable) (name other : Text) :
    (table.erase name).slot other =
      if name = other then { table.slot other with current := none } else table.slot other := by
  rw [slot, find?_erase]
  split <;> rfl

theorem slot_insert (table : MacroTable) (m : Macro) (other : Text) :
    (table.insert m).slot other =
      if m.name = other then { table.slot other with current := some m } else table.slot other := by
  rw [slot, find?_insert]
  split <;> rfl

theorem slot_define (table : MacroTable) (m : Macro) (other : Text) :
    (table.define m).2.slot other =
      if m.name = other then (table.slot other).apply (.define m) else table.slot other := by
  by_cases own : m.name = other
  · subst own
    have inserted := (slot_insert table m m.name).trans (if_pos rfl)
    have current : (table.slot m.name).current = table.find? m.name := rfl
    rw [if_pos rfl, define, Slot.apply, current]
    cases found : table.find? m.name with
    | none => exact inserted
    | some old =>
      simp only [Slot.redefined]
      cases old.sameDefinition m with
      | true =>
        rw [if_pos rfl, if_pos rfl, ← found]
        rfl
      | false => exact inserted
  · have inserted := (slot_insert table m other).trans (if_neg own)
    rw [if_neg own, define]
    split
    · exact inserted
    · split
      · rfl
      · exact inserted

theorem slot_push (table : MacroTable) (name other : Text) :
    (table.push name).slot other =
      if name = other then (table.slot other).apply (.push name) else table.slot other := by
  rw [slot, push]
  by_cases own : name = other
  · subst own
    rw [if_pos rfl, List.filter_cons_of_pos (by simp)]
    rfl
  · rw [if_neg own, List.filter_cons_of_neg (by simpa using own)]
    rfl

/-- Of the definitions that are set aside, the latest one of a name is taken away. -/
theorem filter_eraseP (saved : List (Text × Option Macro)) (name other : Text) :
    (saved.eraseP (·.1 == name)).filter (·.1 == other) =
      if name = other then (saved.filter (·.1 == other)).tail else saved.filter (·.1 == other) := by
  induction saved with
  | nil => simp
  | cons entry saved ih =>
    by_cases first : entry.1 = name
    · rw [List.eraseP_cons_of_pos (by simpa using first)]
      by_cases own : name = other
      · rw [if_pos own, List.filter_cons_of_pos (by simpa [first] using own), List.tail_cons]
      · rw [if_neg own, List.filter_cons_of_neg (by simpa [first] using own)]
    · rw [List.eraseP_cons_of_neg (by simpa using first), List.filter_cons, ih, List.filter_cons]
      by_cases own : name = other
      · have others : ¬(entry.1 == other) = true := by simpa [← own] using first
        rw [if_pos own, if_neg others, if_neg others]
        exact (if_pos own).symm
      · rw [if_neg own]
        exact (if_neg own).symm

theorem head?_saved (table : MacroTable) (name : Text) :
    (table.slot name).saved.head? = (table.saved.find? (·.1 == name)).map Prod.snd := by
  rw [slot, List.head?_map, List.head?_filter]

theorem pop_of_nil (nothing : (table.slot name).saved = []) : table.pop name = (false, table) := by
  have latest := head?_saved table name
  rw [nothing] at latest
  rw [pop, Option.map_eq_none_iff.mp latest.symm]

/-- The definition that was set aside last for a name is the one that is restored. -/
theorem pop_of_cons {definition : Option Macro} {rest : List (Option Macro)}
    (saved : (table.slot name).saved = definition :: rest) :
    table.pop name =
      (true, (definition.map ({ · with name })).elim
        ({ table with saved := table.saved.eraseP (·.1 == name) }.erase name)
        { table with saved := table.saved.eraseP (·.1 == name) }.insert) := by
  have latest := head?_saved table name
  rw [saved] at latest
  obtain ⟨entry, found, rfl⟩ := Option.map_eq_some_iff.mp latest.symm
  rw [pop, found]
  obtain ⟨_, definition⟩ := entry
  cases definition with
  | none => rfl
  | some m => rfl

theorem slot_pop (table : MacroTable) (name other : Text) :
    (table.pop name).2.slot other =
      if name = other then (table.slot other).apply (.pop name) else table.slot other := by
  cases saved : (table.slot name).saved with
  | nil =>
    rw [pop_of_nil saved]
    split
    · rename_i own
      subst own
      rw [Slot.apply, saved]
    · rfl
  | cons definition rest =>
    rw [pop_of_cons saved]
    have remaining := filter_eraseP table.saved name other
    by_cases own : name = other
    · subst own
      rw [if_pos rfl] at remaining ⊢
      rw [Slot.apply, saved]
      have left : ((table.saved.eraseP (·.1 == name)).filter (·.1 == name)).map Prod.snd =
          rest := by
        rw [remaining, List.map_tail]
        exact congrArg List.tail saved
      cases definition with
      | none => exact (slot_erase _ name name).trans ((if_pos rfl).trans (congrArg _ left))
      | some m =>
        exact (slot_insert _ { m with name } name).trans ((if_pos rfl).trans (congrArg _ left))
    · rw [if_neg own] at remaining ⊢
      have kept : { table with saved := table.saved.eraseP (·.1 == name) }.slot other =
          table.slot other := congrArg (fun saved => Slot.mk _ (saved.map Prod.snd)) remaining
      cases definition with
      | none => exact (slot_erase _ name other).trans ((if_neg own).trans kept)
      | some m => exact (slot_insert _ { m with name } other).trans ((if_neg own).trans kept)

/-- An edit changes what is held for its own name, as that alone says. -/
theorem slot_apply (table : MacroTable) (edit : Edit) (other : Text) :
    (table.apply edit).slot other =
      if edit.name = other then (table.slot other).apply edit else table.slot other := by
  cases edit with
  | define m => exact slot_define table m other
  | undefine name => exact slot_erase table name other
  | push name => exact slot_push table name other
  | pop name => exact slot_pop table name other

/-- Of the edits only those that set the definition of a name aside or restore it change what was
set aside for the name. -/
theorem saved_apply (table : MacroTable) (edit : Edit) (name : Text) :
    ((table.apply edit).slot name).saved =
      if edit.isPush name then (table.slot name).current :: (table.slot name).saved
      else if edit.isPop name then (table.slot name).saved.tail
      else (table.slot name).saved := by
  rw [slot_apply]
  by_cases own : edit.name = name
  · rw [if_pos own]
    cases edit with
    | define m => rfl
    | undefine other => rfl
    | push other => exact (if_pos (beq_iff_eq.mpr own)).symm
    | pop other =>
      have restores : (other == name) = true := beq_iff_eq.mpr own
      refine .trans ?_ ((if_neg Bool.false_ne_true).trans (if_pos restores)).symm
      rw [Slot.apply]
      split
      · rename_i saved
        rw [saved, List.tail_nil]
      · rename_i saved
        rw [saved, List.tail_cons]
  · rw [if_neg own]
    cases edit with
    | define m => rfl
    | undefine other => rfl
    | push other => exact (if_neg (mt beq_iff_eq.mp own)).symm
    | pop other => exact (if_neg (mt beq_iff_eq.mp own)).symm

/-! ## Some edits -/

theorem applyAll_snoc (table : MacroTable) (edits : List Edit) (edit : Edit) :
    table.applyAll (edits ++ [edit]) = (table.applyAll edits).apply edit :=
  List.foldl_append

/-- What is held for a name after some edits comes from those of them that are about it. -/
theorem slot_applyAll (table : MacroTable) (edits : List Edit) (other : Text) :
    (table.applyAll edits).slot other =
      (edits.filter (·.name = other)).foldl Slot.apply (table.slot other) := by
  induction edits using List.reverseRecOn with
  | nil => rfl
  | append_singleton edits edit ih =>
    rw [applyAll_snoc, slot_apply, ih, List.filter_append, List.foldl_append]
    by_cases own : edit.name = other
    · rw [if_pos own, List.filter_cons_of_pos (by simpa using own)]
      rfl
    · rw [if_neg own, List.filter_cons_of_neg (by simpa using own)]
      rfl

/-- Edits that restore no more than they set aside leave what was set aside before them in place,
below as many definitions as they set aside more than they restored. -/
theorem exists_saved_applyAll (table : MacroTable) (name : Text) (edits : List Edit)
    (inside : ∀ before, before <+: edits →
      before.countP (Edit.isPop name) ≤ before.countP (Edit.isPush name)) :
    ∃ above, ((table.applyAll edits).slot name).saved = above ++ (table.slot name).saved ∧
      above.length + edits.countP (Edit.isPop name) = edits.countP (Edit.isPush name) := by
  induction edits using List.reverseRecOn with
  | nil => exact ⟨[], rfl, rfl⟩
  | append_singleton edits edit ih =>
    obtain ⟨above, saved, height⟩ :=
      ih (fun before ends => inside before (ends.trans (List.prefix_append edits [edit])))
    have whole := inside _ List.prefix_rfl
    rw [List.countP_append, List.countP_append, List.countP_singleton,
      List.countP_singleton] at whole ⊢
    rw [applyAll_snoc, saved_apply, saved]
    by_cases sets : edit.isPush name
    · have kept : ¬edit.isPop name := fun restores => edit.not_isPush_of_isPop restores sets
      rw [if_pos sets, if_pos sets, if_neg kept]
      exact ⟨_ :: above, rfl, by rw [List.length_cons]; omega⟩
    · rw [if_neg sets] at whole ⊢
      by_cases restores : edit.isPop name
      · rw [if_pos restores] at whole
        rw [if_neg sets, if_pos restores, if_pos restores]
        cases above with
        | nil =>
          rw [List.length_nil] at height
          omega
        | cons definition above =>
          rw [List.length_cons] at height
          exact ⟨above, rfl, by omega⟩
      · rw [if_neg sets, if_neg restores, if_neg restores]
        exact ⟨above, rfl, height⟩

/-- To set the definition of a name aside, to make edits that restore no more definitions of the
name than they set aside, and to restore the definition: the name has again what it had, and any
other name has what the edits alone give it. -/
theorem pop_applyAll_push (table : MacroTable) (name : Text) {edits : List Edit}
    (balanced : Edit.AreBalanced name edits) :
    (((table.push name).applyAll edits).pop name).1 = true ∧
      (((table.push name).applyAll edits).pop name).2.slot name = table.slot name ∧
      ∀ other, other ≠ name →
        (((table.push name).applyAll edits).pop name).2.slot other =
          (table.applyAll edits).slot other := by
  obtain ⟨above, saved, height⟩ :=
    exists_saved_applyAll (table.push name) name edits balanced.inside
  have level : above = [] := List.length_eq_zero_iff.mp (by rw [balanced.whole] at height; omega)
  rw [level, slot_push, if_pos rfl, Slot.apply, List.nil_append] at saved
  refine ⟨?_, ?_, ?_⟩
  · rw [pop_of_cons saved]
  · rw [slot_pop, if_pos rfl, Slot.apply, saved]
    -- The definition that comes back is restored under the name that it has.
    have renamed : (table.find? name).map ({ · with name }) = table.find? name := by
      cases found : table.find? name with
      | none => rfl
      | some m => rw [Option.map_some, ← name_of_find? found]
    exact congrArg (Slot.mk · _) renamed
  · intro other differs
    rw [slot_pop, if_neg differs.symm, slot_applyAll, slot_applyAll, slot_push, if_neg differs.symm]

/-- A definition comes back although its name loses it, gets another one, sets that aside in its
turn and restores it. -/
theorem pop_applyAll_push_nested :
    let one : Macro := { name := "A".toList, replacement := .object [] }
    let other : Macro := { one with replacement := .function { named := ["x".toList] } [] }
    let edits : List MacroTable.Edit := [.undefine "A".toList, .define other, .push "A".toList,
      .undefine "A".toList, .push "B".toList, .define { one with name := "B".toList },
      .pop "A".toList]
    let table : MacroTable := { macros := [one] }
    Edit.AreBalanced "A".toList edits ∧
      (((table.push "A".toList).applyAll edits).pop "A".toList).1 = true ∧
        (((table.push "A".toList).applyAll edits).pop "A".toList).2.find? "A".toList =
          some one := by
  intro one other edits table
  have balanced : Edit.AreBalanced "A".toList edits := by
    refine ⟨?_, by decide⟩
    simp only [← List.mem_inits]
    decide
  obtain ⟨restored, own, _⟩ := pop_applyAll_push table "A".toList balanced
  exact ⟨balanced, restored, congrArg Slot.current own⟩

end MacroTable

end CPreprocessor
