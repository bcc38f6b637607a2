/-
# Names that may be replaced

The names that have a macro or may get one back are known. Setting a definition
aside and restoring one adds no name to them, so a list of tokens counts for no
more after that than before (`atMost_of_subset`).
-/
import CPreprocessor.Macro.Exposure
import CPreprocessor.Macro.Table

namespace CPreprocessor

namespace MacroTable

/-- The names that have a macro or may get one back, each one once. -/
def knownNames (table : MacroTable) : List Text :=
  (table.macros.map Macro.name
    ++ (table.saved.filter (·.2.isSome)).map Prod.fst).foldr List.insert []

theorem mem_foldr_insert {names : List Text} {name : Text} :
    name ∈ names.foldr List.insert [] ↔ name ∈ names := by
  induction names with
  | nil => rfl
  | cons head rest ih => simp [List.mem_insert_iff, ih]

theorem nodup_knownNames (table : MacroTable) : table.knownNames.Nodup := by
  unfold knownNames
  induction (table.macros.map Macro.name
    ++ (table.saved.filter (·.2.isSome)).map Prod.fst) with
  | nil => exact List.nodup_nil
  | cons head rest ih =>
    simp only [List.foldr_cons, List.insert]
    split
    · exact ih
    · rename_i new
      exact List.nodup_cons.mpr ⟨by simpa using new, ih⟩

theorem mem_knownNames {table : MacroTable} {name : Text} :
    name ∈ table.knownNames
      ↔ name ∈ table.macros.map Macro.name ∨ ∃ m, (name, some m) ∈ table.saved := by
  unfold knownNames
  rw [mem_foldr_insert, List.mem_append]
  refine or_congr Iff.rfl ?_
  simp only [List.mem_map, List.mem_filter, Prod.exists, exists_and_right, exists_eq_right]
  constructor
  · rintro ⟨definition, member, isSome⟩
    obtain ⟨m, rfl⟩ := Option.isSome_iff_exists.mp isSome
    exact ⟨m, member⟩
  · rintro ⟨m, member⟩
    exact ⟨some m, member, rfl⟩

theorem knownNames_push_subset (table : MacroTable) (name : Text) :
    (table.push name).knownNames ⊆ table.knownNames := by
  intro other member
  rw [mem_knownNames] at member ⊢
  rcases member with member | ⟨m, member⟩
  · exact .inl member
  · rcases List.mem_cons.mp member with new | old
    · obtain ⟨rfl, found⟩ := Prod.mk.inj new
      have := name_of_find? found.symm
      exact .inl (List.mem_map.mpr ⟨m, mem_of_find? found.symm, this⟩)
    · exact .inr ⟨m, old⟩

theorem knownNames_pop_subset (table : MacroTable) (name : Text) :
    (table.pop name).2.knownNames ⊆ table.knownNames := by
  unfold pop
  split
  · exact fun _ member => member
  · rename_i key definition found
    have known : (key, definition) ∈ table.saved := List.mem_of_find?_eq_some found
    have same : key = name := by simpa using List.find?_some found
    subst same
    have savedLess {other : Text} {m : Macro}
        (member : (other, some m) ∈ table.saved.eraseP (·.1 == key)) :
        (other, some m) ∈ table.saved := List.mem_of_mem_eraseP member
    simp only []
    split
    · rename_i m
      intro other member
      rw [mem_knownNames] at member ⊢
      rcases member with member | ⟨m', member⟩
      · obtain ⟨present, inTable, rfl⟩ := List.mem_map.mp member
        rcases List.mem_cons.mp inTable with rfl | old
        · exact .inr ⟨m, known⟩
        · exact .inl (List.mem_map_of_mem ((List.mem_filter.mp old).1))
      · exact .inr ⟨m', savedLess member⟩
    · intro other member
      rw [mem_knownNames] at member ⊢
      rcases member with member | ⟨m', member⟩
      · obtain ⟨present, inTable, rfl⟩ := List.mem_map.mp member
        exact .inl (List.mem_map_of_mem ((List.mem_filter.mp inTable).1))
      · exact .inr ⟨m', savedLess member⟩

end MacroTable

namespace Exposure

/-- Of fewer names fewer are counted. -/
theorem countP_le_of_subset {names names' : List Text} (distinct : names'.Nodup)
    (subset : names' ⊆ names) (p : Text → Bool) : names'.countP p ≤ names.countP p := by
  induction names' generalizing names with
  | nil => exact Nat.zero_le _
  | cons head rest ih =>
    have member : head ∈ names := subset (List.mem_cons_self ..)
    have parts := List.nodup_cons.mp distinct
    have inner : rest ⊆ names.erase head := by
      intro other inRest
      refine (List.mem_erase_of_ne ?_).mpr (subset (List.mem_cons_of_mem _ inRest))
      rintro rfl
      exact parts.1 inRest
    have := ih parts.2 inner
    rw [(List.perm_cons_erase member).countP_eq, List.countP_cons, List.countP_cons]
    omega

/-- With fewer names, tokens count for no more. -/
theorem atMost_of_subset {names names' : List Text} (distinct : names'.Nodup)
    (subset : names' ⊆ names) (tokens : List Token) :
    Levels.AtMost (levels names' tokens) (levels names tokens) := by
  have fewer : names'.length ≤ names.length := by
    simpa using countP_le_of_subset distinct subset fun _ => true
  rcases Nat.lt_or_eq_of_le fewer with less | same
  · exact .inl less
  · refine .inr ⟨same, fun level => ?_⟩
    show weight names' level nothing tokens ≤ weight names level nothing tokens
    generalize nothing = exposed
    induction tokens generalizing exposed with
    | nil => exact Nat.le_refl _
    | cons token rest ih =>
      have later := ih (expose exposed token)
      have here := countP_le_of_subset distinct subset (expose exposed token)
      simp only [weight, Bool.and_eq_true, decide_eq_true_eq]
      split
      · rename_i counted
        rw [if_pos ⟨counted.1, Nat.le_trans counted.2 here⟩]
        omega
      · omega

end Exposure

end CPreprocessor
