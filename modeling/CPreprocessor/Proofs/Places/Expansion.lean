/-
# Expansion and places

Under a view that shows what the macros of the table ask for, macro expansion gives tokens
that look the same for tokens that look the same: the induction follows the recursion of
`expandAll` and of `expandCondition`, whose cases are the heads of a token list.
-/
import CPreprocessor.Directive.Condition
import CPreprocessor.Proofs.Places.Substitution

namespace CPreprocessor

theorem View.isClear_unreported : View.IsClear .unreported :=
  ⟨rfl, rfl, rfl, rfl, rfl, rfl⟩

theorem Token.seen_unreported (token : Token) : token.seen .unreported = token := by
  have calls : token.calls.map (CallSite.seen .unreported) = token.calls :=
    List.map_id token.calls
  rw [seen, calls]
  rfl

/-- Tokens are seen as they are. -/
theorem Token.map_seen_unreported (tokens : List Token) :
    tokens.map (Token.seen .unreported) = tokens :=
  (List.map_congr_left fun token _ => token.seen_unreported).trans (List.map_id tokens)

end CPreprocessor

namespace CPreprocessor.Expansion

/-- What expansion reads, as it is seen. -/
def Context.seen (v : View) (ctx : Context) : Context :=
  { ctx with table := ctx.table.seen v, includeLevel := v.depthOf ctx.includeLevel }

/-- The second result is what is seen of the first one. -/
structure Shows (v : View) (a b : List Token × State) : Prop where
  tokens : b.1 = a.1.map (Token.seen v)
  state : State.Alike v a.2 b.2

variable {v : View}

theorem Shows.cons {a b : List Token × State} (shows : Shows v a b) (token : Token) :
    Shows v (token :: a.1, a.2) (token.seen v :: b.1, b.2) :=
  ⟨by rw [List.map_cons, shows.tokens], shows.state⟩

theorem replacement_seen (site : Token) (hidden : HideSet) (body : List Token) :
    replacement (site.seen v) hidden (body.map (Token.seen v))
      = (replacement site hidden body).map (Token.seen v) := by
  cases body with
  | nil => rfl
  | cons token rest =>
    have others : (rest.map (Token.seen v)).map (replaced (site.seen v) hidden)
        = (rest.map (replaced site hidden)).map (Token.seen v) := by
      simp only [List.map_map]
      rfl
    simp only [List.map_cons, replacement, others]
    rfl

variable (ctx : Context)

theorem builtinText_seen {kind : Builtin} (sees : v.sees kind = true) (counter : Nat) (site : Token) :
    builtinText (ctx.seen v) counter (site.seen v) kind = builtinText ctx counter site kind := by
  cases kind <;> simp only [View.sees] at sees <;>
    simp only [builtinText, Context.seen, Token.seen, View.lineOf, View.file, View.depthOf, sees,
      if_true]

/-- A builtin macro is replaced by a token that looks the same, if what it asks for is seen. -/
theorem expandBuiltin_seen {kind : Builtin} (sees : v.sees kind = true) (site : Token) {s s' : State}
    (same : State.Alike v s s') :
    (expandBuiltin (ctx.seen v) kind (site.seen v) s').1 = (expandBuiltin ctx kind site s).1.seen v
      ∧ State.Alike v (expandBuiltin ctx kind site s).2
          (expandBuiltin (ctx.seen v) kind (site.seen v) s').2 := by
  simp only [expandBuiltin, builtinText_seen ctx sees, same.counter]
  refine ⟨?_, ?_⟩
  · simp only [replaced, Token.placedAt, Token.seen, Token.callSite, CallSite.seen, View.file,
      View.lineOf, View.columnOf, View.offsetOf, List.map_cons]
  · split
    · exact ⟨rfl, same.journal⟩
    · exact same

/-- A call is replaced by tokens that look the same if its arguments expand to such tokens. -/
theorem replaceCall_seen {c : Call} (called : c.called.IsClear v)
    (expand expand' : List Token → State → List Token × State)
    (arguments : ∀ written ∈ c.arguments, ∀ s s', State.Alike v s s' →
      Shows v (expand written s) (expand' (written.map (Token.seen v)) s'))
    {s s' : State} (same : State.Alike v s s') :
    let args : List Argument := c.arguments.map fun written => ⟨written, expand written⟩
    let args' : List Argument := (c.seen v).arguments.map fun written => ⟨written, expand' written⟩
    let done := Substitution.run ctx.language c.called.parameters args c.called.body { state := s }
    let done' := Substitution.run (ctx.seen v).language (c.seen v).called.parameters args'
      (c.seen v).called.body { state := s' }
    Shows v (replacement c.site c.hidden done.result, done.state)
      (replacement (c.seen v).site (c.seen v).hidden done'.result, done'.state) := by
  intro args args' done done'
  have related : List.Forall₂ (Argument.Shows v) args args' := by
    simp only [args, args', Call.seen, List.map_map, List.forall₂_map_left_iff,
      List.forall₂_map_right_iff, List.forall₂_same]
    intro written member
    refine ⟨rfl, fun s s' same => ?_⟩
    have expanded := arguments written member s s' same
    exact ⟨expanded.tokens, expanded.state⟩
  have start : Substitution.Shows v { state := s } { state := s' } := ⟨rfl, rfl, rfl, same⟩
  have run := start.run related ctx.language c.called.parameters c.called.body called.strings
  have seen : done' = Substitution.run ctx.language c.called.parameters args'
      (c.called.body.map (Token.seen v)) { state := s' } := by
    simp only [done', Call.seen, Macro.parameters_seen, Macro.body_seen]
    rfl
  rw [seen]
  refine ⟨?_, run.state⟩
  simp only [run.result]
  exact replacement_seen c.site c.hidden done.result

/-- Expansion does what the head of the list asks for. -/
theorem expandAll_eq (tokens : List Token) (s : State) :
    expandAll ctx tokens s =
      match Head.read ctx.table tokens with
      | none => ([], s)
      | some (.plain token rest) => (token :: (expandAll ctx rest s).1, (expandAll ctx rest s).2)
      | some (.builtin kind site rest) =>
        let built := expandBuiltin ctx kind site s
        (built.1 :: (expandAll ctx rest built.2).1, (expandAll ctx rest built.2).2)
      | some (.rejected code site rest) =>
        let more := expandAll ctx rest (s.report site code site.lexeme)
        (site :: more.1, more.2)
      | some (.call c) =>
        expandAll ctx ((expandCall ctx c s).1 ++ c.rest) (expandCall ctx c s).2 := by
  rw [expandAll]
  split
  all_goals simp_all [expandCall]

/-- The tokens of a condition are expanded from the head of the list on. -/
theorem expandCondition_eq (tokens : List Token) (s : State) :
    expandCondition ctx tokens s =
      match Head.read ctx.table tokens with
      | none => ([], s)
      | some (.plain token rest) =>
        let more := expandCondition ctx (keptAfter token rest).2 s
        (token :: (keptAfter token rest).1 ++ more.1, more.2)
      | some (.builtin kind site rest) =>
        let built := expandBuiltin ctx kind site s
        (built.1 :: (expandCondition ctx rest built.2).1, (expandCondition ctx rest built.2).2)
      | some (.rejected code site rest) =>
        let more := expandCondition ctx (keptAfter site rest).2 (s.report site code site.lexeme)
        (site :: (keptAfter site rest).1 ++ more.1, more.2)
      | some (.call c) =>
        expandCondition ctx ((expandCall ctx c s).1 ++ c.rest) (expandCall ctx c s).2 := by
  rw [expandCondition]
  split
  all_goals simp_all

/-- The head of a list is the same under every view. -/
theorem read_context_seen {tokens : List Token} {head : Option Head}
    (found : Head.read ctx.table tokens = head) :
    Head.read (ctx.seen v).table (tokens.map (Token.seen v)) = head.map (Head.seen v) := by
  rw [← found]
  exact Head.read_seen v ctx.table tokens

section Clear

variable {ctx} (clear : ctx.table.IsClear v)
include clear

/-- Expansion gives tokens that look the same. -/
theorem expandAll_seen {tokens : List Token} (speaks : v.Speaks tokens) {s s' : State}
    (same : State.Alike v s s') :
    Shows v (expandAll ctx tokens s) (expandAll (ctx.seen v) (tokens.map (Token.seen v)) s') := by
  fun_induction expandAll ctx tokens s generalizing s' with
  | case1 tokens s found =>
    rw [expandAll_eq (ctx.seen v), read_context_seen ctx found]
    exact ⟨rfl, same⟩
  | case2 tokens s token rest found more after expanded ih =>
    rw [expandAll_eq (ctx.seen v), read_context_seen ctx found]
    have later := ih (Head.all_of_read found speaks).2 same
    rw [expanded] at later
    exact later.cons token
  | case3 tokens s kind site rest found token t built more after expanded ih =>
    rw [expandAll_eq (ctx.seen v), read_context_seen ctx found]
    obtain ⟨looks, state⟩ := expandBuiltin_seen ctx (Head.sees_of_read clear speaks found) site same
    rw [built] at looks state
    have later := ih (Head.all_of_read found speaks) state
    rw [expanded] at later
    have both := later.cons token
    rw [← looks] at both
    exact both
  | case4 tokens s code site rest found more after expanded ih =>
    rw [expandAll_eq (ctx.seen v), read_context_seen ctx found]
    have later := ih (Head.all_of_read found speaks).2 (same.report site code site.lexeme)
    rw [expanded] at later
    exact later.cons site
  | case5 tokens s c found args done inner =>
    rename_i ih
    rw [expandAll_eq (ctx.seen v), read_context_seen ctx found]
    have sameArgs : args = c.arguments.map fun written => ⟨written, expandAll ctx written⟩ := by
      simp [args]
    obtain ⟨written, rest⟩ := Head.all_of_read found speaks
    have called := Head.isClear_of_read clear found
    have call : Shows v (expandCall ctx c s) (expandCall (ctx.seen v) (c.seen v) s') :=
      replaceCall_seen ctx called _ _
        (fun tokens member s s' => inner tokens member s (written tokens member)) same
    have known := clear.preserves.expandCall called.brings written s
    have replaced : expandCall ctx c s = (replacement c.site c.hidden done.result, done.state) := by
      simp only [done, sameArgs]
      rfl
    rw [replaced] at call known
    have later := ih (List.forall_mem_append.mpr ⟨known, rest⟩) call.state
    rw [List.map_append, ← call.tokens] at later
    exact later

/-- What replaces a call looks the same. -/
theorem expandCall_seen {c : Call} (called : c.called.IsClear v)
    (speaks : ∀ written ∈ c.arguments, v.Speaks written) {s s' : State} (same : State.Alike v s s') :
    Shows v (expandCall ctx c s) (expandCall (ctx.seen v) (c.seen v) s') :=
  replaceCall_seen ctx called _ _
    (fun written member _ _ alike => expandAll_seen clear (speaks written member) alike) same

omit clear in
theorem keptAfter_seen (token : Token) (rest : List Token) :
    keptAfter (token.seen v) (rest.map (Token.seen v))
      = ((keptAfter token rest).1.map (Token.seen v), (keptAfter token rest).2.map (Token.seen v)) := by
  have operand (tokens : List Token) : definedOperand (tokens.map (Token.seen v))
      = ((definedOperand tokens).1.map (Token.seen v),
          (definedOperand tokens).2.map (Token.seen v)) := by
    match tokens with
    | [] => rfl
    | [token] =>
      simp only [List.map_cons, List.map_nil, definedOperand, Token.isOpen_seen, Token.isEnd_seen]
      split_ifs <;> rfl
    | token :: name :: after =>
      simp only [List.map_cons, definedOperand, Token.isOpen_seen, Token.isEnd_seen]
      split_ifs <;> rfl
  simp only [keptAfter, Token.isNamed_seen, operand]
  split_ifs <;> rfl

/-- The expansion of a condition gives tokens that look the same. -/
theorem expandCondition_seen {tokens : List Token} (speaks : v.Speaks tokens) {s s' : State}
    (same : State.Alike v s s') :
    Shows v (expandCondition ctx tokens s)
      (expandCondition (ctx.seen v) (tokens.map (Token.seen v)) s') := by
  fun_induction expandCondition ctx tokens s generalizing s' with
  | case1 tokens s found =>
    rw [expandCondition_eq (ctx.seen v), read_context_seen ctx found]
    exact ⟨rfl, same⟩
  | case2 tokens s token rest found more after expanded ih =>
    rw [expandCondition_eq (ctx.seen v), read_context_seen ctx found]
    have later := ih (all_keptAfter token (Head.all_of_read found speaks).2).2 same
    rw [expanded] at later
    simp only [Option.map_some, Head.seen, keptAfter_seen]
    exact ⟨by simp only [later.tokens, List.map_cons, List.map_append], later.state⟩
  | case3 tokens s kind site rest found token t built more after expanded ih =>
    rw [expandCondition_eq (ctx.seen v), read_context_seen ctx found]
    obtain ⟨looks, state⟩ := expandBuiltin_seen ctx (Head.sees_of_read clear speaks found) site same
    rw [built] at looks state
    have later := ih (Head.all_of_read found speaks) state
    rw [expanded] at later
    have both := later.cons token
    rw [← looks] at both
    exact both
  | case4 tokens s code site rest found more after expanded ih =>
    rw [expandCondition_eq (ctx.seen v), read_context_seen ctx found]
    have later := ih (all_keptAfter site (Head.all_of_read found speaks).2).2
      (same.report site code site.lexeme)
    rw [expanded] at later
    simp only [Option.map_some, Head.seen, keptAfter_seen, Token.lexeme_seen]
    exact ⟨by simp only [later.tokens, List.map_cons, List.map_append], later.state⟩
  | case5 tokens s c found replaced =>
    rename_i ih
    rw [expandCondition_eq (ctx.seen v), read_context_seen ctx found]
    obtain ⟨written, rest⟩ := Head.all_of_read found speaks
    have called := Head.isClear_of_read clear found
    have call := expandCall_seen clear called written same
    have known := clear.preserves.expandCall called.brings written s
    have later := ih (List.forall_mem_append.mpr ⟨known, rest⟩) call.state
    rw [List.map_append, ← call.tokens] at later
    exact later

end Clear

/-! ## Reports -/

/-- What is reported does not matter to expansion. -/
theorem expandAll_congr (tokens : List Token) (s s' : State) (counter : s.counter = s'.counter) :
    (expandAll ctx tokens s).1 = (expandAll ctx tokens s').1
      ∧ (expandAll ctx tokens s).2.counter = (expandAll ctx tokens s').2.counter := by
  have clear := View.isClear_unreported.table ctx.table
  have speaks := View.isClear_unreported.speaks tokens
  have shows := expandAll_seen clear speaks (⟨counter, nofun⟩ : State.Alike .unreported s s')
  have shows' := expandAll_seen clear speaks (.refl s')
  have tokens := shows.tokens.symm.trans shows'.tokens
  simp only [Token.map_seen_unreported] at tokens
  exact ⟨tokens, shows.state.counter.trans shows'.state.counter.symm⟩

/-- What is reported does not matter to the replacement of a call. -/
theorem expandCall_congr (c : Call) (s s' : State) (counter : s.counter = s'.counter) :
    (expandCall ctx c s).1 = (expandCall ctx c s').1
      ∧ (expandCall ctx c s).2.counter = (expandCall ctx c s').2.counter := by
  have clear := View.isClear_unreported.table ctx.table
  have called := View.isClear_unreported.macro c.called
  have speaks (written) (_ : written ∈ c.arguments) := View.isClear_unreported.speaks written
  have shows := expandCall_seen clear called speaks (⟨counter, nofun⟩ : State.Alike .unreported s s')
  have shows' := expandCall_seen clear called speaks (.refl s')
  have tokens := shows.tokens.symm.trans shows'.tokens
  simp only [Token.map_seen_unreported] at tokens
  exact ⟨tokens, shows.state.counter.trans shows'.state.counter.symm⟩

end CPreprocessor.Expansion
