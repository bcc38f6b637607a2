/-
# What definitions change

`#define` and `#undef` change the macros and add reports, and nothing else
(`Session.exists_predefine`). A replacement list comes from the line of its definition, so
it has no end of a file in it.
-/
import CPreprocessor.Proofs.Directive.Conditional
import CPreprocessor.Proofs.Expansion.Ends
import CPreprocessor.Proofs.Lexing.Bare
import CPreprocessor.Proofs.Reading.Items

namespace CPreprocessor

/-! ## Replacement lists -/

namespace ParameterList

theorem subset_of_readEnd {p q : Parameters} {tokens rest : List Token}
    (found : readEnd p tokens = .ok (q, rest)) : rest ⊆ tokens := by
  cases tokens with
  | nil => cases found
  | cons token tokens =>
    rw [readEnd] at found
    split at found
    · cases found
      exact List.subset_cons_self _ _
    · cases found

theorem subset_of_readFrom {named : List Text} {p : Parameters} {tokens rest : List Token}
    (found : readFrom named tokens = .ok (p, rest)) : rest ⊆ tokens := by
  fun_induction readFrom named tokens with
  | case1 named => cases found
  | case2 named token tokens ellipsis => exact List.subset_cons_of_subset _ (subset_of_readEnd found)
  | case3 named token tokens plain error refused => cases found
  | case4 named token tokens plain accepted variadic =>
    refine List.subset_cons_of_subset _ (List.Subset.trans (subset_of_readEnd found) ?_)
    exact List.drop_subset 1 tokens
  | case5 => cases found
  | case6 => cases found
  | case7 =>
    rename_i ih
    exact List.subset_cons_of_subset _ (List.subset_cons_of_subset _ (ih found))
  | case8 =>
    cases found
    exact List.subset_cons_of_subset _ (List.subset_cons_self _ _)
  | case9 => cases found

theorem subset_of_read {p : Parameters} {tokens rest : List Token}
    (found : read tokens = .ok (p, rest)) : rest ⊆ tokens := by
  cases tokens with
  | nil => exact @subset_of_readFrom [] _ _ _ found
  | cons token tokens =>
    rw [read] at found
    split at found
    · cases found
      exact List.subset_cons_self _ _
    · exact subset_of_readFrom found

end ParameterList

namespace Directive

/-- A definition is one of its name, and the replacement list is a part of its line. -/
theorem facts_of_readDefinition {name : Token} {tokens : List Token} {m : Macro}
    (found : readDefinition name tokens = .ok m) : m.name = name.lexeme ∧ m.body ⊆ tokens := by
  unfold readDefinition at found
  simp only [] at found
  split at found
  · rename_i opening rest
    split at found
    · split at found
      · cases found
      · rename_i p body read
        split at found
        · cases found
        · cases found
          exact ⟨rfl, List.subset_cons_of_subset _ (ParameterList.subset_of_read read)⟩
    · split at found
      · cases found
      · cases found
        exact ⟨rfl, List.Subset.refl _⟩
  · split at found
    · cases found
    · cases found
      exact ⟨rfl, List.Subset.refl _⟩

/-- A definition makes no builtin macro. -/
theorem builtin?_of_readDefinition {name : Token} {tokens : List Token} {m : Macro}
    (found : readDefinition name tokens = .ok m) : m.builtin? = none := by
  unfold readDefinition at found
  simp only [] at found
  repeat' split at found
  all_goals first
    | cases found; rfl
    | cases found

/-- A definition that is not refused has a replacement list with which nothing is wrong. -/
theorem error?_of_readDefinition {name : Token} {tokens : List Token} {m : Macro}
    (found : readDefinition name tokens = .ok m) :
    ReplacementList.error? name.lexeme (if m.isFunctionLike then some m.parameters else none) m.body
      = none := by
  unfold readDefinition at found
  simp only [] at found
  split at found
  · split at found
    · split at found
      · cases found
      · split at found
        · cases found
        · rename_i accepted
          cases found
          exact accepted
    · split at found
      · cases found
      · rename_i accepted
        cases found
        exact accepted
  · split at found
    · cases found
    · rename_i accepted
      cases found
      exact accepted

end Directive

/-- In a replacement list with which nothing is wrong, `##` stands at neither end, and every `#` of a
function-like macro has its operand. -/
theorem ReplacementList.facts_of_error? {name : Text} {parameters : Option Parameters}
    {body : List Token} (accepted : error? name parameters body = none) :
    (∀ token ∈ body.head?, token.isPaste = false) ∧ (∀ token ∈ body.getLast?, token.isPaste = false)
      ∧ ∀ p ∈ parameters, badHash? p body = none := by
  simpa [error?, Option.filter_eq_none_iff] using accepted

/-! ## Definitions -/

namespace MacroTable

theorem mem_define {table : MacroTable} {m other : Macro} (member : other ∈ (table.define m).2.macros) :
    other ∈ table.macros ∨ other = m := by
  have inserted (member : other ∈ (table.insert m).macros) : other ∈ table.macros ∨ other = m := by
    obtain same | old := List.mem_cons.mp member
    · exact .inr same
    · exact .inl (List.mem_filter.mp old).1
  unfold define at member
  split at member
  · exact inserted member
  · split at member
    · exact .inl member
    · exact inserted member

theorem mem_erase {table : MacroTable} {name : Text} {m : Macro}
    (member : m ∈ (table.erase name).macros) : m ∈ table.macros :=
  (List.mem_filter.mp member).1

end MacroTable

/-- The session with these macros differs from the first one in them and in the journal, and each
new macro has the name that the first token is, and is replaced by some of the tokens. -/
structure Session.Redefines (s : Session) (tokens : List Token) (t : Session) : Prop where
  same : ∃ macros journal, t = ({ s with macros } : Session).annotated journal
  macros : ∀ m ∈ t.macros.macros, m ∈ s.macros.macros
    ∨ tokens.head?.map Token.lexeme = some m.name ∧ m.body ⊆ tokens

namespace Session

variable {s t : Session}

theorem exists_reportSpellings (s : Session) (tokens : List Token) :
    ∃ journal, s.reportSpellings tokens = s.annotated journal := by
  induction tokens generalizing s with
  | nil => exact ⟨s.expansion.journal, rfl⟩
  | cons token rest ih =>
    obtain ⟨first, here⟩ := s.exists_reportSpelling token
    obtain ⟨journal, later⟩ := ih (s.reportSpelling token)
    refine ⟨journal, ?_⟩
    rw [here] at later
    exact (congrArg (reportSpellings · rest) here).trans later

/-- Carry out a directive that defines a macro or removes one. -/
def predefine (s : Session) (d : Directive) : Session :=
  if d.kind = .define then d.define s else d.undef s

theorem redefines_annotated (s : Session) (tokens : List Token) (journal : Journal) :
    s.Redefines tokens (s.annotated journal) :=
  ⟨⟨s.macros, journal, rfl⟩, fun _ member => .inl member⟩

end Session

namespace Directive

variable (d : Directive) (s : Session)

theorem exists_macroName? :
    (∃ journal, (d.macroName? s).2 = s.annotated journal)
      ∧ ∀ name ∈ (d.macroName? s).1, name ∈ d.args.head? := by
  unfold macroName?
  split
  · exact ⟨⟨_, rfl⟩, by simp⟩
  · rename_i token rest isArgs
    split
    · exact ⟨⟨_, rfl⟩, by simp⟩
    · split
      · exact ⟨⟨_, rfl⟩, by simp⟩
      · exact ⟨⟨s.expansion.journal, rfl⟩, fun name isName => by rw [isArgs]; exact isName⟩

theorem redefines_define : s.Redefines d.args (d.define s) := by
  obtain ⟨⟨journal, named⟩, isHead⟩ := d.exists_macroName? s
  unfold define
  split
  · rename_i t found
    rw [found] at named
    obtain rfl : t = s.annotated journal := named
    exact s.redefines_annotated _ journal
  · rename_i name t found
    rw [found] at named isHead
    obtain ⟨journal', spelled⟩ := t.exists_reportSpellings d.args
    obtain rfl : t = s.annotated journal := named
    rw [spelled]
    simp only []
    split
    · exact s.redefines_annotated _ _
    · rename_i m read
      have macros : ∀ other ∈ (s.macros.define m).2.macros, other ∈ s.macros.macros
          ∨ d.args.head?.map Token.lexeme = some other.name ∧ other.body ⊆ d.args := by
        intro other member
        obtain old | rfl := MacroTable.mem_define member
        · exact .inl old
        · obtain ⟨sameName, subset⟩ := facts_of_readDefinition read
          refine .inr ⟨?_, List.Subset.trans subset (List.drop_subset 1 _)⟩
          rw [Option.mem_def.mp (isHead name rfl), Option.map_some, sameName]
      split
      · exact ⟨⟨_, _, rfl⟩, macros⟩
      · exact ⟨⟨_, journal', rfl⟩, macros⟩

theorem redefines_undef : s.Redefines d.args (d.undef s) := by
  obtain ⟨⟨journal, named⟩, -⟩ := d.exists_macroName? s
  unfold undef
  split
  · rename_i t found
    rw [found] at named
    obtain rfl : t = s.annotated journal := named
    exact s.redefines_annotated _ journal
  · rename_i name t found
    rw [found] at named
    obtain ⟨journal', spelled⟩ := t.exists_reportSpellings d.args
    obtain rfl : t = s.annotated journal := named
    rw [spelled]
    simp only []
    let erased : Session := { s with macros := s.macros.erase name.lexeme }
    obtain ⟨journal'', extra⟩ := d.exists_reportExtra (erased.annotated journal') 1
    have same : s.Redefines d.args ((erased.annotated journal').annotated journal'') :=
      ⟨⟨_, _, rfl⟩, fun m member => .inl (MacroTable.mem_erase member)⟩
    rw [← extra] at same
    exact same

end Directive

namespace Session

variable {s : Session}

/-- A definition changes the macros and the journal. -/
theorem redefines_predefine (s : Session) (d : Directive) : s.Redefines d.args (s.predefine d) := by
  unfold predefine
  split
  · exact d.redefines_define s
  · exact d.redefines_undef s

/-- Definitions change the macros and the journal, and no replacement list that they give has an end
of a file in it. -/
theorem exists_predefine {directives : List Directive}
    (lines : ∀ d ∈ directives, Inside d.args) (inside : s.macros.IsInside) :
    ∃ macros journal,
      directives.foldl predefine s = ({ s with macros } : Session).annotated journal
      ∧ macros.IsInside := by
  induction directives generalizing s with
  | nil => exact ⟨s.macros, s.expansion.journal, rfl, inside⟩
  | cons d more ih =>
    obtain ⟨here, later⟩ := List.forall_mem_cons.mp lines
    obtain ⟨⟨macros, journal, changed⟩, known⟩ := s.redefines_predefine d
    have insideHere : (s.predefine d).macros.IsInside := by
      intro m member
      obtain old | ⟨-, new⟩ := known m member
      · exact inside m old
      · exact here.of_subset new
    obtain ⟨macros', journal', same, inside'⟩ := ih later insideHere
    rw [changed] at same
    refine ⟨macros', journal', ?_, inside'⟩
    rw [List.foldl_cons, changed, same]
    rfl

end Session

/-! ## Lines of a file -/

namespace Lexer

/-- The tokens of a line do not end the file. -/
theorem inside_restOfLine (l : Lexer) : Inside l.restOfLine.1 := by
  fun_induction restOfLine l with
  | case1 l after taken => exact .nil
  | case2 l token after taken tokens last rest ih =>
    have found : l.nextOnLine.1 = some token := by rw [taken]
    rw [rest] at ih
    exact .cons (isEnd_nextOnLine found) ih

/-- The arguments of a directive do not end the file. -/
theorem Reads.inside_args {l last : Lexer} {items : List Item} (reads : l.Reads items last)
    {d : Directive} (member : .directive d ∈ items) : Inside d.args := by
  induction reads with
  | done l => cases member
  | token here more ih =>
    obtain same | later := List.mem_cons.mp member
    · cases same
    · exact ih later
  | @directive l after last given items here more ih =>
    obtain same | later := List.mem_cons.mp member
    · cases same
      unfold item at here
      split at here
      · cases here
      · split at here
        · cases here
          exact (inside_restOfLine _).of_subset (List.drop_subset 1 _)
        · cases here
    · exact ih later

end Lexer

end CPreprocessor
