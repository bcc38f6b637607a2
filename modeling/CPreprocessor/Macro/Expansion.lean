/-
# Macro expansion

A token list is expanded from its head: a call is replaced and what replaces it
is scanned again together with the tokens after it; any other token is done. Each
token knows the names that are hidden in it, so no macro is expanded inside its
own expansion, and expansion ends.
-/
import CPreprocessor.Macro.Exposure
import CPreprocessor.Macro.Substitution

namespace CPreprocessor

namespace Head

theorem called?_eq_some {table : MacroTable} {token : Token} {m : Macro}
    (found : called? table token = some m) :
    m.name ∈ table.macros.map Macro.name ∧ m.name ∉ token.hideSet := by
  unfold called? at found
  split at found
  · cases found
  · obtain ⟨inTable, free⟩ := Option.filter_eq_some_iff.mp found
    unfold MacroTable.findToken? at inTable
    split at inTable
    · exact ⟨List.mem_map_of_mem (MacroTable.mem_of_find? inTable), by simpa using free⟩
    · cases inTable

/-- The end of a file calls no macro. -/
theorem isEnd_of_called? {table : MacroTable} {token : Token} {m : Macro}
    (found : called? table token = some m) : token.isEnd = false := by
  unfold called? at found
  split at found
  · cases found
  · obtain ⟨inTable, _⟩ := Option.filter_eq_some_iff.mp found
    unfold MacroTable.findToken? at inTable
    split at inTable
    · rename_i isName
      cases kind : token.kind <;> simp_all [Token.isName, Token.isEnd]
    · cases inTable

/-- The head of a list comes from its first token. -/
theorem eq_cons_of_read {table : MacroTable} {tokens : List Token} {head : Head}
    (found : read table tokens = some head) :
    ∃ token rest, tokens = token :: rest ∧ token.isEnd = false
      ∧ ofToken table token rest = head := by
  match tokens with
  | [] => cases found
  | token :: rest =>
    cases isEnd : token.isEnd with
    | true => simp [read, isEnd] at found
    | false =>
      simp only [read, isEnd, Bool.false_eq_true, if_false, Option.some.injEq] at found
      exact ⟨token, rest, rfl, isEnd, found⟩

/-- What follows a head that is not replaced. -/
theorem rest_of_ofMacro {m : Macro} {site : Token} {rest : List Token} :
    (∀ token after, ofMacro m site rest = .plain token after → after = rest)
      ∧ (∀ kind token after, ofMacro m site rest = .builtin kind token after → after = rest)
      ∧ (∀ code token after, ofMacro m site rest = .rejected code token after → after = rest) := by
  unfold ofMacro
  refine ⟨fun token after found => ?_, fun kind token after found => ?_,
    fun code token after found => ?_⟩
  all_goals
    repeat' split at found
    all_goals first | rfl | (cases found; done) | (cases found; rfl)

end Head

namespace Expansion

open Exposure

/-- The names that macros of a table have. -/
def Context.names (ctx : Context) : List Text :=
  ctx.table.macros.map Macro.name

variable {ctx : Context} {tokens : List Token}

theorem fewer_of_plain {token : Token} {rest : List Token}
    (found : Head.read ctx.table tokens = some (.plain token rest)) :
    Levels.Below (levels ctx.names rest) (levels ctx.names tokens) := by
  obtain ⟨head, after, rfl, more, form⟩ := Head.eq_cons_of_read found
  rw [Head.ofToken] at form
  split at form
  · cases form
    exact fewer_tail more (List.Sublist.refl _)
  · rw [Head.rest_of_ofMacro.1 _ _ form]
    exact fewer_tail more (List.Sublist.refl _)

theorem fewer_of_builtin {kind : Builtin} {site : Token} {rest : List Token}
    (found : Head.read ctx.table tokens = some (.builtin kind site rest)) :
    Levels.Below (levels ctx.names rest) (levels ctx.names tokens) := by
  obtain ⟨head, after, rfl, more, form⟩ := Head.eq_cons_of_read found
  rw [Head.ofToken] at form
  split at form
  · cases form
  · rw [Head.rest_of_ofMacro.2.1 _ _ _ form]
    exact fewer_tail more (List.Sublist.refl _)

theorem fewer_of_rejected {code : Code} {site : Token} {rest : List Token}
    (found : Head.read ctx.table tokens = some (.rejected code site rest)) :
    Levels.Below (levels ctx.names rest) (levels ctx.names tokens) := by
  obtain ⟨head, after, rfl, more, form⟩ := Head.eq_cons_of_read found
  rw [Head.ofToken] at form
  split at form
  · cases form
  · rw [Head.rest_of_ofMacro.2.2 _ _ _ form]
    exact fewer_tail more (List.Sublist.refl _)

/-- A call comes from a macro of the table whose name is not hidden. -/
theorem ofMacro_of_read {c : Call} (found : Head.read ctx.table tokens = some (.call c)) :
    ∃ m site rest, tokens = site :: rest ∧ site.isEnd = false ∧ m.name ∈ ctx.names
      ∧ m.name ∉ site.hideSet ∧ Head.ofMacro m site rest = .call c := by
  obtain ⟨head, after, rfl, more, form⟩ := Head.eq_cons_of_read found
  rw [Head.ofToken] at form
  split at form
  · cases form
  · rename_i m called
    have facts := Head.called?_eq_some called
    exact ⟨m, head, after, rfl, more, facts.1, facts.2, form⟩

/-- The arguments of a call have fewer tokens than the list the call stands in. -/
theorem fewer_of_argument {c : Call} (found : Head.read ctx.table tokens = some (.call c))
    {argument : List Token} (member : argument ∈ c.arguments) :
    Levels.Below (levels ctx.names argument) (levels ctx.names tokens) := by
  obtain ⟨m, site, rest, rfl, more, _, _, form⟩ := ofMacro_of_read found
  exact fewer_tail more (sublist_of_ofMacro form argument member)

/-- What replaces a call, with what follows it, has fewer tokens. -/
theorem fewer_of_call {c : Call} (found : Head.read ctx.table tokens = some (.call c)) (body : List Token) :
    Levels.Below (levels ctx.names (replacement c.site c.hidden body ++ c.rest))
      (levels ctx.names tokens) := by
  obtain ⟨m, site, rest, rfl, more, known, free, form⟩ := ofMacro_of_read found
  exact fewer_of_ofMacro form more known free
    fun _ member _ inHidden => hidden_of_mem_replacement member inHidden

/-- Expand all tokens up to the end of the file. -/
def expandAll (ctx : Context) (tokens : List Token) (state : State) : List Token × State :=
  match _found : Head.read ctx.table tokens with
  | none => ([], state)
  | some (.plain token rest) =>
    let (more, state) := expandAll ctx rest state
    (token :: more, state)
  | some (.builtin kind site rest) =>
    let (token, state) := expandBuiltin ctx kind site state
    let (more, state) := expandAll ctx rest state
    (token :: more, state)
  | some (.rejected code site rest) =>
    let (more, state) := expandAll ctx rest (state.report site code site.lexeme)
    (site :: more, state)
  | some (.call c) =>
    let args : List Argument := c.arguments.attach.map fun ⟨written, _⟩ =>
      { tokens := written, expand := fun state => expandAll ctx written state }
    let done :=
      Substitution.run ctx.language c.called.parameters args c.called.body { state }
    expandAll ctx (replacement c.site c.hidden done.result ++ c.rest) done.state
  termination_by levels ctx.names tokens
  decreasing_by
    · exact fewer_of_plain _found
    · exact fewer_of_builtin _found
    · exact fewer_of_rejected _found
    · exact fewer_of_argument _found ‹_›
    · exact fewer_of_call _found _

/-- The tokens that replace a call. -/
def expandCall (ctx : Context) (c : Call) (state : State) : List Token × State :=
  let args : List Argument := c.arguments.map fun written =>
    { tokens := written, expand := expandAll ctx written }
  let done := Substitution.run ctx.language c.called.parameters args c.called.body { state }
  (replacement c.site c.hidden done.result, done.state)

/-- What replaces a call, with what follows it, has fewer tokens. -/
theorem fewer_of_expandCall {c : Call} (found : Head.read ctx.table tokens = some (.call c))
    (state : State) :
    Levels.Below (levels ctx.names ((expandCall ctx c state).1 ++ c.rest))
      (levels ctx.names tokens) :=
  fewer_of_call found _

/-- Expansion goes on with what replaces a call and the tokens after it. -/
theorem expandAll_of_call {c : Call} {state : State}
    (found : Head.read ctx.table tokens = some (.call c)) :
    expandAll ctx tokens state
      = expandAll ctx ((expandCall ctx c state).1 ++ c.rest) (expandCall ctx c state).2 := by
  rw [expandAll]
  split
  all_goals simp_all [expandCall]

end Expansion

end CPreprocessor
