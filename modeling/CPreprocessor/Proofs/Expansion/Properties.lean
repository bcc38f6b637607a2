/-
# What holds of all tokens of an expansion

The tokens that expansion gives come from the list that is expanded, from replacement lists,
from `#` and `##`, or from a builtin macro. So what holds of all these, and does not depend on
where a token stands, holds of all that expansion gives (`Expansion.Preserves.expandAll`), also where
the operands of `defined` are left as they are (`Expansion.Preserves.expandCondition`).
-/
import CPreprocessor.Directive.Condition
import CPreprocessor.Proofs.Expansion.Origins

namespace CPreprocessor

/-! ## Macros that are called -/

/-- A macro that a token names is one of the table. -/
theorem MacroTable.mem_of_findToken? {table : MacroTable} {token : Token} {m : Macro}
    (found : table.findToken? token = some m) : m ∈ table.macros := by
  unfold findToken? at found
  split at found
  · exact mem_of_find? found
  · cases found

namespace Head

variable {m : Macro} {site : Token} {rest : List Token} {table : MacroTable}

theorem mem_of_called? (called : called? table site = some m) : m ∈ table.macros := by
  unfold called? at called
  split at called
  · cases called
  · obtain ⟨found, -⟩ := Option.filter_eq_some_iff.mp called
    exact MacroTable.mem_of_findToken? found

/-- A token that calls a macro is its name, and may be expanded. -/
theorem name_of_called? (called : called? table site = some m) :
    m.name = site.lexeme ∧ site.verbatim = false := by
  unfold called? at called
  split at called
  · cases called
  · rename_i expands
    obtain ⟨found, -⟩ := Option.filter_eq_some_iff.mp called
    unfold MacroTable.findToken? at found
    split at found
    · exact ⟨MacroTable.name_of_find? found, by simpa using expands⟩
    · cases found

/-- A head that is replaced by one token is the call of a builtin macro. -/
theorem builtin?_of_ofMacro {kind : Builtin} {token : Token} {after : List Token}
    (found : ofMacro m site rest = .builtin kind token after) : m.builtin? = some kind := by
  unfold ofMacro at found
  unfold Macro.builtin?
  split at found
  · rename_i here
    cases found
    rw [here]
  · cases found
  · repeat' split at found
    all_goals cases found

/-- A call is a call of the macro that the token names. -/
theorem called_of_ofMacro {c : Call} (found : ofMacro m site rest = .call c) : c.called = m := by
  unfold ofMacro at found
  split at found
  · cases found
  · cases found
    rfl
  · repeat' split at found
    all_goals cases found
    rfl

/-- A list whose head is a call starts with the name of a macro. -/
theorem exists_called_of_read {tokens : List Token} {head : Head}
    (found : read table tokens = some head) (replaced : ∀ token after, head ≠ .plain token after) :
    ∃ m site rest, tokens = site :: rest ∧ called? table site = some m
      ∧ ofMacro m site rest = head := by
  obtain ⟨token, rest, rfl, -, rfl⟩ := eq_cons_of_read found
  cases called : called? table token with
  | none =>
    simp only [ofToken, called] at replaced
    exact absurd rfl (replaced _ _)
  | some m =>
    simp only [ofToken, called]
    exact ⟨m, token, rest, rfl, called, rfl⟩

theorem called_mem_of_read {tokens : List Token} {c : Call}
    (found : read table tokens = some (.call c)) : c.called ∈ table.macros := by
  obtain ⟨m, site, rest, -, called, form⟩ := exists_called_of_read found (by rintro _ _ ⟨⟩)
  rw [called_of_ofMacro form]
  exact mem_of_called? called

/-- A head that is not replaced is about the token it was read from. -/
theorem site_of_ofMacro :
    (∀ token after, ofMacro m site rest = .plain token after → token = site)
      ∧ (∀ kind token after, ofMacro m site rest = .builtin kind token after → token = site)
      ∧ (∀ code token after, ofMacro m site rest = .rejected code token after → token = site) := by
  unfold ofMacro
  refine ⟨fun token after found => ?_, fun kind token after found => ?_,
    fun code token after found => ?_⟩
  all_goals
    repeat' split at found
    all_goals first | rfl | (cases found; done) | (cases found; rfl)

/-- What follows a call is the last part of what follows its name. -/
theorem rest_suffix_of_ofMacro {c : Call} (found : ofMacro m site rest = .call c) :
    c.rest <:+ rest := by
  unfold ofMacro at found
  split at found
  · cases found
  · cases found
    exact List.suffix_refl _
  · split at found
    · cases found
    · split at found
      · split at found
        · cases found
        · rename_i a read
          split at found
          · cases found
          · cases found
            obtain ⟨before, split, -⟩ := Arguments.eq_of_read read
            rw [split]
            exact List.suffix_cons_iff.mpr (.inr (List.suffix_append_of_suffix (List.suffix_cons _ _)))
      · cases found

/-- What holds of the tokens that a head keeps of its list. -/
def All (P : Token → Prop) : Head → Prop
  | plain token rest => P token ∧ ∀ t ∈ rest, P t
  | builtin _ _ rest => ∀ t ∈ rest, P t
  | rejected _ site rest => P site ∧ ∀ t ∈ rest, P t
  | call c => (∀ written ∈ c.arguments, ∀ t ∈ written, P t) ∧ ∀ t ∈ c.rest, P t

variable {P : Token → Prop} {head : Head}

theorem all_of_ofMacro (form : ofMacro m site rest = head) (here : P site)
    (later : ∀ t ∈ rest, P t) : head.All P := by
  cases head with
  | plain token after =>
    rw [rest_of_ofMacro.1 _ _ form, site_of_ofMacro.1 _ _ form]
    exact ⟨here, later⟩
  | builtin kind token after =>
    rw [rest_of_ofMacro.2.1 _ _ _ form]
    exact later
  | rejected code token after =>
    rw [rest_of_ofMacro.2.2 _ _ _ form, site_of_ofMacro.2.2 _ _ _ form]
    exact ⟨here, later⟩
  | call c =>
    exact ⟨fun written member t inside =>
        later t ((Exposure.sublist_of_ofMacro form written member).subset inside),
      fun t inside => later t ((rest_suffix_of_ofMacro form).subset inside)⟩

theorem all_of_read {tokens : List Token} (found : read table tokens = some head)
    (all : ∀ token ∈ tokens, P token) : head.All P := by
  obtain ⟨token, rest, rfl, -, form⟩ := eq_cons_of_read found
  obtain ⟨here, later⟩ := List.forall_mem_cons.mp all
  rw [ofToken] at form
  split at form
  · cases form
    exact ⟨here, later⟩
  · exact all_of_ofMacro form here later

end Head

/-! ## A property of all tokens -/

/-- The tokens that replace the macro have the property, and if `##` is among them tokens are pasted. -/
structure Macro.Brings (pastes : Prop) (P : Token → Prop) (m : Macro) : Prop where
  body : ∀ token ∈ m.body, P token
  hashes : (∃ token ∈ m.body, token.isPaste = true) → pastes

namespace Expansion

/-- What stays after a token, and what is left, are tokens that follow it. -/
theorem all_keptAfter {P : Token → Prop} (token : Token) {rest : List Token} (all : ∀ t ∈ rest, P t) :
    (∀ t ∈ (keptAfter token rest).1, P t) ∧ ∀ t ∈ (keptAfter token rest).2, P t := by
  refine ⟨?_, fun t member => all t ((sublist_keptAfter token rest).subset member)⟩
  unfold keptAfter definedOperand
  repeat' split
  all_goals simp_all

/-- A property that does not depend on where a token stands, that the replacement lists have, and that
tokens have which are made by builtin macros or, if anything is pasted, of tokens with the property. -/
structure Preserves (ctx : Context) (pastes : Prop) (P : Token → Prop) : Prop where
  kept : Substitution.Kept ctx.language pastes P
  moved : ∀ token other : Token, other.kind = token.kind → other.lexeme = token.lexeme →
    other.error = token.error → P token → P other
  builtin : ∀ kind site s, P (expandBuiltin ctx kind site s).1
  macros : ∀ m ∈ ctx.table.macros, m.Brings pastes P

namespace Preserves

variable {ctx : Context} {pastes : Prop} {P : Token → Prop} (preserves : Preserves ctx pastes P)
include preserves

theorem replacement {site : Token} {hidden : HideSet} {body : List Token}
    (all : ∀ token ∈ body, P token) : ∀ token ∈ replacement site hidden body, P token := by
  cases body with
  | nil => exact all
  | cons first rest =>
    obtain ⟨here, later⟩ := List.forall_mem_cons.mp all
    refine List.forall_mem_cons.mpr ⟨preserves.moved first _ rfl rfl rfl here, ?_⟩
    exact List.forall_mem_map.mpr
      fun token member => preserves.moved token _ rfl rfl rfl (later token member)

/-- What replaces a call has the property if its arguments have it, as they are written and expanded. -/
theorem expandCall_of_arguments {c : Call} (called : c.called.Brings pastes P)
    (written : ∀ tokens ∈ c.arguments, ∀ token ∈ tokens, P token)
    (expanded : ∀ tokens ∈ c.arguments, ∀ s, ∀ token ∈ (expandAll ctx tokens s).1, P token)
    (s : State) : ∀ token ∈ (expandCall ctx c s).1, P token := by
  have arguments : ∀ argument ∈ c.arguments.map fun tokens : List Token =>
      ({ tokens, expand := expandAll ctx tokens } : Argument), argument.All P :=
    List.forall_mem_map.mpr fun tokens member => ⟨written tokens member, expanded tokens member⟩
  have own (operation : Operation) (member : operation ∈ Operation.all c.called.parameters c.called.body)
      (token : Token) (inside : token ∈ operation.own) : P token :=
    called.body token (Operation.own_subset_of_mem_all member inside)
  exact preserves.replacement (Substitution.All.run arguments preserves.kept _ own
    (fun _ member pastes => called.hashes (Operation.exists_isPaste_of_mem_all member pastes))
    ⟨List.forall_mem_nil _, List.forall_mem_nil _⟩).result

/-- Expansion gives tokens with the property if the tokens that are expanded have it. -/
theorem expandAll {tokens : List Token} (all : ∀ token ∈ tokens, P token) (s : State) :
    ∀ token ∈ (expandAll ctx tokens s).1, P token := by
  fun_induction Expansion.expandAll ctx tokens s with
  | case1 tokens s found => exact List.forall_mem_nil _
  | case2 tokens s token rest found more after expanded ih =>
    obtain ⟨here, later⟩ := Head.all_of_read found all
    have others := ih later
    rw [expanded] at others
    exact List.forall_mem_cons.mpr ⟨here, others⟩
  | case3 tokens s kind site rest found token t built more after expanded ih =>
    have others := ih (Head.all_of_read found all)
    have here := preserves.builtin kind site s
    rw [expanded] at others
    rw [built] at here
    exact List.forall_mem_cons.mpr ⟨here, others⟩
  | case4 tokens s code site rest found more after expanded ih =>
    obtain ⟨here, later⟩ := Head.all_of_read found all
    have others := ih later
    rw [expanded] at others
    exact List.forall_mem_cons.mpr ⟨here, others⟩
  | case5 tokens s c found args done inner =>
    rename_i ih
    obtain ⟨written, later⟩ := Head.all_of_read found all
    have replaced : expandCall ctx c s
        = (Expansion.replacement c.site c.hidden done.result, done.state) := by
      simp only [done, args, List.map_attach_eq_pmap, List.pmap_eq_map]
      rfl
    have call := preserves.expandCall_of_arguments
      (preserves.macros _ (Head.called_mem_of_read found)) written
      (fun tokens member s => inner tokens member s (written tokens member)) s
    rw [replaced] at call
    exact ih (List.forall_mem_append.mpr ⟨call, later⟩)

/-- What replaces a call has the property. -/
theorem expandCall {c : Call} (called : c.called.Brings pastes P)
    (written : ∀ tokens ∈ c.arguments, ∀ token ∈ tokens, P token) (s : State) :
    ∀ token ∈ (expandCall ctx c s).1, P token :=
  preserves.expandCall_of_arguments called written
    (fun tokens member => preserves.expandAll (written tokens member)) s

/-- The expansion of a condition gives tokens with the property. -/
theorem expandCondition {tokens : List Token} (all : ∀ token ∈ tokens, P token) (s : State) :
    ∀ token ∈ (expandCondition ctx tokens s).1, P token := by
  fun_induction Expansion.expandCondition ctx tokens s with
  | case1 tokens s found => exact List.forall_mem_nil _
  | case2 tokens s token rest found more after expanded ih =>
    obtain ⟨here, later⟩ := Head.all_of_read found all
    obtain ⟨stays, left⟩ := all_keptAfter token later
    have others := ih left
    rw [expanded] at others
    exact List.forall_mem_cons.mpr ⟨here, List.forall_mem_append.mpr ⟨stays, others⟩⟩
  | case3 tokens s kind site rest found token t built more after expanded ih =>
    have others := ih (Head.all_of_read found all)
    have here := preserves.builtin kind site s
    rw [expanded] at others
    rw [built] at here
    exact List.forall_mem_cons.mpr ⟨here, others⟩
  | case4 tokens s code site rest found more after expanded ih =>
    obtain ⟨here, later⟩ := Head.all_of_read found all
    obtain ⟨stays, left⟩ := all_keptAfter site later
    have others := ih left
    rw [expanded] at others
    exact List.forall_mem_cons.mpr ⟨here, List.forall_mem_append.mpr ⟨stays, others⟩⟩
  | case5 tokens s c found replaced ih =>
    obtain ⟨written, later⟩ := Head.all_of_read found all
    exact ih (List.forall_mem_append.mpr
      ⟨preserves.expandCall (preserves.macros _ (Head.called_mem_of_read found)) written s, later⟩)

end Preserves

end Expansion

end CPreprocessor
