/-
# Directives and replacement lists

Only definitions, removals and pragmas change the macros (`MacroTable.Changes`). A definition
brings one replacement list, which is a part of its line; setting a definition aside and
restoring it bring none. So every replacement list that a macro has, or may get back, comes
from the line of a definition (`mem_bodies_execute`), and nothing makes another builtin macro
(`Changes.builtins_subset`).
-/
import CPreprocessor.Proofs.Directive.Definitions

namespace CPreprocessor

namespace MacroTable

/-- The replacement lists of the macros, and of the definitions set aside. -/
def bodies (table : MacroTable) : List (List Token) :=
  table.macros.map Macro.body ++ table.saved.filterMap fun entry => entry.2.map Macro.body

variable {table : MacroTable} {body : List Token}

theorem mem_bodies :
    body ∈ table.bodies
      ↔ (∃ m ∈ table.macros, m.body = body) ∨ ∃ name m, (name, some m) ∈ table.saved ∧ m.body = body := by
  simp [bodies, List.mem_append, List.mem_filterMap]

theorem bodies_erase_subset (table : MacroTable) (name : Text) :
    (table.erase name).bodies ⊆ table.bodies := by
  intro body member
  obtain ⟨m, inTable, same⟩ | saved := mem_bodies.mp member
  · exact mem_bodies.mpr (.inl ⟨m, mem_erase inTable, same⟩)
  · exact mem_bodies.mpr (.inr saved)

theorem mem_bodies_insert {m : Macro} (member : body ∈ (table.insert m).bodies) :
    body ∈ table.bodies ∨ body = m.body := by
  obtain ⟨other, inTable, same⟩ | saved := mem_bodies.mp member
  · obtain rfl | old := List.mem_cons.mp inTable
    · exact .inr same.symm
    · exact .inl (mem_bodies.mpr (.inl ⟨other, mem_erase old, same⟩))
  · exact .inl (mem_bodies.mpr (.inr saved))

theorem mem_bodies_define {m : Macro} (member : body ∈ (table.define m).2.bodies) :
    body ∈ table.bodies ∨ body = m.body := by
  unfold define at member
  split at member
  · exact mem_bodies_insert member
  · split at member
    · exact .inl member
    · exact mem_bodies_insert member

theorem bodies_push_subset (table : MacroTable) (name : Text) :
    (table.push name).bodies ⊆ table.bodies := by
  intro body member
  obtain inTable | ⟨key, m, saved, same⟩ := mem_bodies.mp member
  · exact mem_bodies.mpr (.inl inTable)
  · obtain new | old := List.mem_cons.mp saved
    · obtain ⟨-, found⟩ := Prod.mk.inj new
      exact mem_bodies.mpr (.inl ⟨m, mem_of_find? found.symm, same⟩)
    · exact mem_bodies.mpr (.inr ⟨key, m, old, same⟩)

theorem bodies_pop_subset (table : MacroTable) (name : Text) :
    (table.pop name).2.bodies ⊆ table.bodies := by
  unfold pop
  split
  · exact List.Subset.refl _
  · rename_i key definition found
    have known : (key, definition) ∈ table.saved := List.mem_of_find?_eq_some found
    have rest : ({ table with saved := table.saved.eraseP (·.1 == name) } : MacroTable).bodies
        ⊆ table.bodies := by
      intro body member
      obtain inTable | ⟨key, m, saved, same⟩ := mem_bodies.mp member
      · exact mem_bodies.mpr (.inl inTable)
      · exact mem_bodies.mpr (.inr ⟨key, m, List.mem_of_mem_eraseP saved, same⟩)
    cases definition with
    | none => exact List.Subset.trans (bodies_erase_subset _ name) rest
    | some m =>
      intro body member
      obtain old | rfl := mem_bodies_insert member
      · exact rest old
      · exact mem_bodies.mpr (.inr ⟨key, m, known, rfl⟩)

/-! ## Definitions and removals -/

/-- The token can be the name of a macro. -/
def allows (name : Token) : Bool :=
  name.isName && name.lexeme ≠ "defined".toList

/-- The macros after a definition with these arguments. -/
def afterDefine (table : MacroTable) : List Token → MacroTable
  | [] => table
  | name :: rest =>
    if allows name then
      match Directive.readDefinition name rest with
      | .ok m => (table.define m).2
      | .error _ => table
    else
      table

/-- The macros after a removal with these arguments. -/
def afterUndef (table : MacroTable) : List Token → MacroTable
  | [] => table
  | name :: _ => if allows name then table.erase name.lexeme else table

/-- The macros after a directive that defines a macro or removes one. -/
def predefine (table : MacroTable) (d : Directive) : MacroTable :=
  if d.kind = .define then table.afterDefine d.args else table.afterUndef d.args

theorem bodies_afterUndef_subset (table : MacroTable) (args : List Token) :
    (table.afterUndef args).bodies ⊆ table.bodies := by
  unfold afterUndef
  split
  · exact List.Subset.refl _
  · split
    · exact bodies_erase_subset _ _
    · exact List.Subset.refl _

/-- A definition brings a replacement list from its line. -/
theorem mem_bodies_afterDefine {args : List Token} (member : body ∈ (table.afterDefine args).bodies) :
    body ∈ table.bodies ∨ body ⊆ args := by
  unfold afterDefine at member
  split at member
  · exact .inl member
  · rename_i name rest
    split at member
    · split at member
      · rename_i m read
        refine (mem_bodies_define member).imp_right fun same => ?_
        rw [same]
        exact List.subset_cons_of_subset name (Directive.facts_of_readDefinition read).2
      · exact .inl member
    · exact .inl member

/-- What a directive with these arguments can make of the macros. -/
inductive Changes (table : MacroTable) (args : List Token) : MacroTable → Prop where
  | same : Changes table args table
  | define : Changes table args (table.afterDefine args)
  | undef : Changes table args (table.afterUndef args)
  | push (name : Text) : Changes table args (table.push name)
  | pop (name : Text) : Changes table args (table.pop name).2

theorem Changes.of_eq {args : List Token} {next : MacroTable} (same : next = table) :
    table.Changes args next :=
  same ▸ .same

/-- A replacement list was there before, or it is a part of the arguments. -/
theorem Changes.mem_bodies {args : List Token} {next : MacroTable} (changes : table.Changes args next)
    (member : body ∈ next.bodies) : body ∈ table.bodies ∨ body ⊆ args := by
  cases changes with
  | same => exact .inl member
  | define => exact mem_bodies_afterDefine member
  | undef => exact .inl (table.bodies_afterUndef_subset args member)
  | push name => exact .inl (table.bodies_push_subset name member)
  | pop name => exact .inl (table.bodies_pop_subset name member)

/-! ## Builtin macros -/

/-- The builtin macros with their names, also among the definitions set aside. -/
def builtins (table : MacroTable) : List (Text × Builtin) :=
  table.macros.filterMap (fun m => m.builtin?.map (m.name, ·))
    ++ table.saved.filterMap fun entry => (entry.2.bind Macro.builtin?).map (entry.1, ·)

variable {name : Text} {kind : Builtin}

theorem mem_builtins :
    (name, kind) ∈ table.builtins
      ↔ (∃ m ∈ table.macros, m.name = name ∧ m.builtin? = some kind)
        ∨ ∃ m, (name, some m) ∈ table.saved ∧ m.builtin? = some kind := by
  simp only [builtins, List.mem_append, List.mem_filterMap, Option.map_eq_some_iff, Prod.mk.injEq,
    Option.bind_eq_some_iff, Prod.exists]
  constructor
  · rintro (⟨m, inTable, _, same, rfl, rfl⟩ | ⟨_, _, inTable, _, ⟨m, rfl, same⟩, rfl, rfl⟩)
    · exact .inl ⟨m, inTable, rfl, same⟩
    · exact .inr ⟨m, inTable, same⟩
  · rintro (⟨m, inTable, rfl, same⟩ | ⟨m, inTable, same⟩)
    · exact .inl ⟨m, inTable, kind, same, rfl, rfl⟩
    · exact .inr ⟨name, some m, inTable, kind, ⟨m, rfl, same⟩, rfl, rfl⟩

theorem builtins_erase_subset (table : MacroTable) (name : Text) :
    (table.erase name).builtins ⊆ table.builtins := by
  rintro ⟨other, kind⟩ member
  obtain ⟨m, inTable, same⟩ | saved := mem_builtins.mp member
  · exact mem_builtins.mpr (.inl ⟨m, mem_erase inTable, same⟩)
  · exact mem_builtins.mpr (.inr saved)

theorem mem_builtins_insert {m : Macro} (member : (name, kind) ∈ (table.insert m).builtins) :
    (name, kind) ∈ table.builtins ∨ m.name = name ∧ m.builtin? = some kind := by
  obtain ⟨other, inTable, same⟩ | saved := mem_builtins.mp member
  · obtain rfl | old := List.mem_cons.mp inTable
    · exact .inr same
    · exact .inl (mem_builtins.mpr (.inl ⟨other, mem_erase old, same⟩))
  · exact .inl (mem_builtins.mpr (.inr saved))

/-- A definition makes no builtin macro. -/
theorem builtins_afterDefine_subset (table : MacroTable) (args : List Token) :
    (table.afterDefine args).builtins ⊆ table.builtins := by
  rintro ⟨name, kind⟩ member
  unfold afterDefine at member
  split at member
  · exact member
  · split at member
    · split at member
      · rename_i m read
        have inserted (member : (name, kind) ∈ (table.insert m).builtins) :
            (name, kind) ∈ table.builtins := by
          refine (mem_builtins_insert member).resolve_right fun builtin => ?_
          rw [Directive.builtin?_of_readDefinition read] at builtin
          cases builtin.2
        unfold define at member
        split at member
        · exact inserted member
        · split at member
          · exact member
          · exact inserted member
      · exact member
    · exact member

theorem builtins_push_subset (table : MacroTable) (name : Text) :
    (table.push name).builtins ⊆ table.builtins := by
  rintro ⟨other, kind⟩ member
  obtain inTable | ⟨m, saved, same⟩ := mem_builtins.mp member
  · exact mem_builtins.mpr (.inl inTable)
  · obtain new | old := List.mem_cons.mp saved
    · obtain ⟨rfl, found⟩ := Prod.mk.inj new
      exact mem_builtins.mpr (.inl ⟨m, mem_of_find? found.symm, name_of_find? found.symm, same⟩)
    · exact mem_builtins.mpr (.inr ⟨m, old, same⟩)

theorem builtins_pop_subset (table : MacroTable) (name : Text) :
    (table.pop name).2.builtins ⊆ table.builtins := by
  unfold pop
  split
  · exact List.Subset.refl _
  · rename_i key definition found
    have known : (key, definition) ∈ table.saved := List.mem_of_find?_eq_some found
    have sameName : key = name := by simpa using List.find?_some found
    have rest : ({ table with saved := table.saved.eraseP (·.1 == name) } : MacroTable).builtins
        ⊆ table.builtins := by
      rintro ⟨other, kind⟩ member
      obtain inTable | ⟨m, saved, same⟩ := mem_builtins.mp member
      · exact mem_builtins.mpr (.inl inTable)
      · exact mem_builtins.mpr (.inr ⟨m, List.mem_of_mem_eraseP saved, same⟩)
    cases definition with
    | none => exact List.Subset.trans (builtins_erase_subset _ name) rest
    | some m =>
      rintro ⟨other, kind⟩ member
      obtain old | ⟨rfl, same⟩ := mem_builtins_insert member
      · exact rest old
      · exact mem_builtins.mpr (.inr ⟨m, sameName ▸ known, same⟩)

/-- Nothing makes another builtin macro, or gives one another name. -/
theorem Changes.builtins_subset {args : List Token} {next : MacroTable}
    (changes : table.Changes args next) : next.builtins ⊆ table.builtins := by
  cases changes with
  | same => exact List.Subset.refl _
  | define => exact table.builtins_afterDefine_subset args
  | undef =>
    unfold afterUndef
    split
    · exact List.Subset.refl _
    · split
      · exact table.builtins_erase_subset _
      · exact List.Subset.refl _
  | push name => exact table.builtins_push_subset name
  | pop name => exact table.builtins_pop_subset name

end MacroTable

/-! ## What leaves the macros as they are -/

namespace Session

variable (s : Session)

@[simp] theorem macros_report (token : Token) (code : Code) (detail : Text) :
    (s.report token code detail).macros = s.macros := rfl

@[simp] theorem macros_reportSpelling (token : Token) :
    (s.reportSpelling token).macros = s.macros := by
  obtain ⟨journal, reported⟩ := s.exists_reportSpelling token
  rw [reported]
  rfl

@[simp] theorem macros_reportSpellings (tokens : List Token) :
    (s.reportSpellings tokens).macros = s.macros := by
  obtain ⟨journal, reported⟩ := s.exists_reportSpellings tokens
  rw [reported]
  rfl

@[simp] theorem macros_expand (setup : Setup) (place : Place) (tokens : List Token) :
    (s.expand setup place tokens).2.macros = s.macros := rfl

@[simp] theorem macros_readHeaderName (setup : Setup) (place : Place) (tokens : List Token) :
    (s.readHeaderName setup place tokens).2.2.macros = s.macros := by
  unfold readHeaderName
  split
  · rfl
  · split <;> rfl

@[simp] theorem macros_findHeader (setup : Setup) (place : Place) (next : Bool) (name : IncludeName) :
    (s.findHeader setup place next name).2.macros = s.macros := rfl

end Session

namespace Query

variable (setup : Setup) (place : Place)

theorem macros_answer (site : Token) (s : Session) (query : Query) :
    (query.answer setup place site s).2.macros = s.macros := by
  cases query with
  | defined name => rfl
  | feature => rfl
  | header onward inner =>
    have read := s.macros_readHeaderName setup place inner
    simp only [answer]
    split
    all_goals
      rename_i found
      rw [found] at read
    · split <;> exact read
    · exact read

theorem macros_answerAll (tokens : List Token) (s : Session) :
    (answerAll setup place tokens s).2.macros = s.macros := by
  fun_induction answerAll setup place tokens s with
  | case1 s => rfl
  | case2 token rest s found more s' step ih => rwa [step] at ih
  | case3 token rest s wrong found => rfl
  | case4 token rest s query after found wrong s' answered =>
    have here := macros_answer setup place token s query
    rwa [answered] at here
  | case5 token rest s query after found value s' answered more s'' step ih =>
    have here := macros_answer setup place token s query
    rw [answered] at here
    rw [step] at ih
    exact ih.trans here

end Query

namespace Directive

variable (d : Directive) (setup : Setup) (place : Place) (s : Session)

@[simp] theorem macros_reportExtra (used : Nat) : (d.reportExtra used s).macros = s.macros := by
  obtain ⟨journal, reported⟩ := d.exists_reportExtra s used
  rw [reported]
  rfl

@[simp] theorem macros_macroName? : (d.macroName? s).2.macros = s.macros := by
  obtain ⟨⟨journal, reported⟩, -⟩ := d.exists_macroName? s
  rw [reported]
  rfl

theorem macros_includeHeader : (d.includeHeader setup place s).2.macros = s.macros := by
  unfold includeHeader
  split
  · rfl
  · have read := s.macros_readHeaderName setup place d.args
    split
    · rename_i found
      rw [found] at read
      exact read
    · rename_i name tokens t found
      rw [found] at read
      simp only []
      have same : (({ d with args := tokens } : Directive).reportExtra name.consumed t).macros
          = s.macros :=
        (macros_reportExtra _ t name.consumed).trans read
      split
      all_goals
        rename_i looked
        exact (congrArg (·.2.macros) looked).symm.trans same

theorem macros_holds : (d.holds setup place s).2.macros = s.macros := by
  have name (wanted : Bool) : (d.nameHolds wanted s).2.macros = s.macros := by
    have named := d.macros_macroName? s
    unfold nameHolds
    split
    all_goals
      rename_i found
      rw [found] at named
    · exact named
    · exact (macros_reportExtra _ _ 1).trans named
  have expression : (d.expressionHolds setup place s).2.macros = s.macros := by
    have first := (Query.macros_answerAll setup place d.args _).trans
      (s.macros_reportSpellings d.args)
    unfold expressionHolds
    simp only []
    split
    all_goals
      rename_i answered
      rw [answered] at first
    · exact first
    · rename_i tokens t
      let after := Expansion.expandCondition (t.context setup place) tokens t.expansion
      have again := (Query.macros_answerAll setup place after.1 { t with expansion := after.2 }).trans
        first
      split
      all_goals
        rename_i answered
        rw [answered] at again
        exact again
  unfold holds
  split
  · exact name _
  · exact name _
  · exact name _
  · exact name _
  · exact expression

/-- Going on with a branch leaves the macros as they are if entering the branch does. -/
theorem macros_enterBranch (enter : ConditionFrame → Session)
    (entered : ∀ frame, (enter frame).macros = s.macros) :
    (d.enterBranch place s enter).macros = s.macros := by
  unfold enterBranch
  split
  · rfl
  · split
    · rfl
    · exact entered _

@[simp] theorem macros_reportAnyToken (frame : ConditionFrame) :
    (d.reportAnyToken frame s).macros = s.macros := by
  unfold reportAnyToken
  split
  · exact d.macros_reportExtra s 0
  · rfl

theorem macros_turn (condition : Bool) : (d.turn place s condition).macros = s.macros := by
  unfold turn
  split
  · rfl
  · rfl
  · rfl
  · exact d.macros_enterBranch place s _ fun _ => rfl
  · exact d.macros_enterBranch place s _ fun _ => rfl
  · exact d.macros_enterBranch place s _ fun _ => rfl
  · exact d.macros_enterBranch place s _ fun frame => d.macros_reportAnyToken s frame
  · unfold closeCondition
    split
    · rfl
    · exact d.macros_reportAnyToken s _
  · rfl

theorem macros_presentLine : (d.presentLine setup place s).2.macros = s.macros := by
  have read : (d.lineArguments setup place s).2.macros = s.macros := by
    unfold lineArguments
    split
    · rfl
    · simp only []
      split
      · rw [Session.macros_expand, Session.macros_reportSpellings]
      · rw [Session.macros_reportSpellings]
  unfold presentLine
  split
  · rfl
  · simp only []
    split
    · exact read
    · simp only []
      split
      · split <;> exact read
      · exact read

/-! ## What changes them -/

variable {d} in
theorem macroName?_of_allows {name : Token} {rest : List Token} (args : d.args = name :: rest)
    (allowed : MacroTable.allows name = true) : d.macroName? s = (some name, s) := by
  simp only [MacroTable.allows, Bool.and_eq_true, decide_eq_true_eq] at allowed
  obtain ⟨isName, other⟩ := allowed
  unfold macroName?
  rw [args]
  simp only [isName, Bool.not_true, Bool.false_eq_true, if_false, if_neg other]

variable {d} in
theorem macroName?_of_not_allows {name : Token} {rest : List Token} (args : d.args = name :: rest)
    (refused : MacroTable.allows name = false) : (d.macroName? s).1 = none := by
  unfold macroName?
  rw [args]
  simp only []
  by_cases isName : name.isName = true
  · simp only [MacroTable.allows, isName, Bool.true_and, decide_eq_false_iff_not, not_not] at refused
    simp only [isName, Bool.not_true, Bool.false_eq_true, if_false, if_pos refused]
  · rw [if_pos (by simpa using isName)]

variable {d s} in
/-- Without a name a directive changes no macros. -/
theorem macros_of_macroName?_eq_none (unnamed : (d.macroName? s).1 = none) :
    (d.define s).macros = s.macros ∧ (d.undef s).macros = s.macros := by
  have same := d.macros_macroName? s
  unfold define undef
  generalize d.macroName? s = read at unnamed same ⊢
  obtain ⟨found, t⟩ := read
  obtain rfl : found = none := unnamed
  exact ⟨same, same⟩

theorem macros_define : (d.define s).macros = s.macros.afterDefine d.args := by
  cases args : d.args with
  | nil => exact (macros_of_macroName?_eq_none (by simp only [macroName?, args])).1
  | cons name rest =>
    rw [MacroTable.afterDefine]
    cases allowed : MacroTable.allows name with
    | false => exact (macros_of_macroName?_eq_none (macroName?_of_not_allows s args allowed)).1
    | true =>
      rw [define, macroName?_of_allows s args allowed, args]
      simp only [List.drop_succ_cons, List.drop_zero, if_true]
      cases readDefinition name rest with
      | error error => exact s.macros_reportSpellings _
      | ok m =>
        simp only [s.macros_reportSpellings]
        split <;> rfl

theorem macros_undef : (d.undef s).macros = s.macros.afterUndef d.args := by
  cases args : d.args with
  | nil => exact (macros_of_macroName?_eq_none (by simp only [macroName?, args])).2
  | cons name rest =>
    rw [MacroTable.afterUndef]
    cases allowed : MacroTable.allows name with
    | false => exact (macros_of_macroName?_eq_none (macroName?_of_not_allows s args allowed)).2
    | true =>
      rw [undef, macroName?_of_allows s args allowed, args]
      simp

/-- What becomes of the macros depends on them and on the directive only. -/
theorem macros_predefine : (s.predefine d).macros = s.macros.predefine d := by
  unfold Session.predefine MacroTable.predefine
  split
  · exact d.macros_define s
  · exact d.macros_undef s

/-- A pragma sets a definition aside or restores one, or leaves the macros as they are. -/
theorem changes_pragma (args : List Token) :
    s.macros.Changes args (d.pragma setup place s).2.macros := by
  unfold pragma
  repeat' split
  all_goals first
    | exact .same
    | exact .of_eq (d.macros_reportExtra s 1)
    | exact .push _
    | exact .pop _

/-- A pragma brings no replacement list. -/
theorem bodies_pragma_subset : (d.pragma setup place s).2.macros.bodies ⊆ s.macros.bodies := by
  have same {t : Session} (same : t.macros = s.macros) : t.macros.bodies ⊆ s.macros.bodies := by
    rw [same]
    exact List.Subset.refl _
  unfold pragma
  repeat' split
  all_goals first
    | exact List.Subset.refl _
    | exact same (d.macros_reportExtra s 1)
    | exact s.macros.bodies_push_subset _
    | exact s.macros.bodies_pop_subset _

/-- Only definitions, removals and pragmas change the macros. -/
theorem changes_execute : s.macros.Changes d.args (d.execute setup place s).2.macros := by
  cases conditional : d.kind.isConditional with
  | true =>
    rw [execute_of_isConditional _ _ _ _ conditional]
    simp only []
    split
    · exact .of_eq ((d.macros_turn place _ _).trans (d.macros_holds setup place s))
    · exact .of_eq (d.macros_turn place s false)
  | false =>
    unfold execute
    split
    · unfold carryOut
      split
      all_goals first
        | exact d.macros_define s ▸ .define
        | exact d.macros_undef s ▸ .undef
        | exact .of_eq (d.macros_includeHeader setup place s)
        | exact d.changes_pragma setup place s d.args
        | exact .of_eq (d.macros_presentLine setup place s)
        | exact .same
        | (rename_i kind; rw [kind] at conditional; cases conditional)
    · exact .same

/-- A replacement list was there before a directive, or it is a part of the line. -/
theorem mem_bodies_execute {body : List Token}
    (member : body ∈ (d.execute setup place s).2.macros.bodies) :
    body ∈ s.macros.bodies ∨ body ⊆ d.args :=
  (d.changes_execute setup place s).mem_bodies member

end Directive

end CPreprocessor
