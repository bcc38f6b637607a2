/-
# The operand of `defined`

The expansion of a condition goes from step to step. A step replaces a call, or it gives one token; after
an operator `defined` it gives the operand too, as it stands there. The questions of the
expanded condition are read with the same steps: wherever the reading comes, expansion was once
(`Expansion.exists_passes_of_scans`). So a name that `defined` asks about, before or after
expansion, is the one that stood after the operator when expansion came to it, and the answer
depends on the name only (`Directive.expressionHolds_defined`). The arguments of a call are
expanded on their own before that.
-/
import CPreprocessor.Proofs.Directive.Questions
import CPreprocessor.Proofs.Expansion.Unfolding
import CPreprocessor.Proofs.Places.Expansion

namespace CPreprocessor

/-- A head that stays is the first token, before the others. -/
theorem Head.eq_cons_of_stays {table : MacroTable} {tokens : List Token} {token : Token}
    {rest : List Token}
    (found : read table tokens = some (.plain token rest)
      ∨ ∃ code, read table tokens = some (.rejected code token rest)) : tokens = token :: rest := by
  obtain found | ⟨code, found⟩ := found
  all_goals
    obtain ⟨head, behind, rfl, -, form⟩ := eq_cons_of_read found
    rw [ofToken] at form
    split at form
  · cases form
    rfl
  · rw [site_of_ofMacro.1 _ _ form, rest_of_ofMacro.1 _ _ form]
  · cases form
  · rw [site_of_ofMacro.2.2 _ _ _ form, rest_of_ofMacro.2.2 _ _ _ form]

namespace Expansion

variable {ctx : Context}

/-! ## Steps -/

/-- The first step of expanding a condition: the tokens that are given, and what is expanded next. -/
def conditionStep (ctx : Context) (tokens : List Token) (s : State) :
    Option (List Token × List Token × State) :=
  match Head.read ctx.table tokens with
  | none => none
  | some (.plain token rest) => some (token :: (keptAfter token rest).1, (keptAfter token rest).2, s)
  | some (.builtin kind site rest) =>
    some ([(expandBuiltin ctx kind site s).1], rest, (expandBuiltin ctx kind site s).2)
  | some (.rejected code site rest) =>
    some (site :: (keptAfter site rest).1, (keptAfter site rest).2, s.report site code site.lexeme)
  | some (.call c) => some ([], (expandCall ctx c s).1 ++ c.rest, (expandCall ctx c s).2)

/-- A condition is expanded step by step. -/
theorem expandCondition_of_step {tokens given left : List Token} {s s' : State}
    (first : conditionStep ctx tokens s = some (given, left, s')) :
    expandCondition ctx tokens s =
      (given ++ (expandCondition ctx left s').1, (expandCondition ctx left s').2) := by
  rw [conditionStep] at first
  rw [expandCondition_eq]
  cases found : Head.read ctx.table tokens with
  | none =>
    rw [found] at first
    cases first
  | some head =>
    rw [found] at first
    cases head <;> cases first <;> rfl

/-- An object-like macro that pastes nothing brings its replacement list as it is. -/
theorem conditionStep_of_object {site : Token} {m : Macro} {body : List Token}
    (more : site.isEnd = false) (called : Head.called? ctx.table site = some m)
    (object : m.replacement = .object body) (pastesNothing : ∀ token ∈ body, token.isPaste = false)
    (rest : List Token) (s : State) :
    conditionStep ctx (site :: rest) s =
      some ([], replacement site (site.hideSet.union [m.name]) body ++ rest, s) := by
  rw [conditionStep, read_of_called more called object]
  simp only [expandCall_of_object object pastesNothing]

/-- Expanding a condition gives some tokens, and then it goes on with what is left. -/
inductive Passes (ctx : Context) : List Token → State → List Token → List Token → State → Prop
  | refl {tokens : List Token} {s : State} : Passes ctx tokens s [] tokens s
  | step {tokens given mid more left : List Token} {s s₁ s' : State}
      (first : conditionStep ctx tokens s = some (given, mid, s₁))
      (others : Passes ctx mid s₁ more left s') : Passes ctx tokens s (given ++ more) left s'

variable {tokens given left : List Token} {s s' : State}

theorem Passes.single (first : conditionStep ctx tokens s = some (given, left, s')) :
    Passes ctx tokens s given left s' := by
  have passes := Passes.step first .refl
  rwa [List.append_nil] at passes

theorem Passes.trans {mid more : List Token} {s₁ : State} (first : Passes ctx tokens s given mid s₁)
    (second : Passes ctx mid s₁ more left s') : Passes ctx tokens s (given ++ more) left s' := by
  induction first with
  | refl => exact second
  | step here _ ih =>
    rw [List.append_assoc]
    exact .step here (ih second)

/-- What is given stands at the beginning. -/
theorem Passes.expandCondition_eq (passes : Passes ctx tokens s given left s') :
    expandCondition ctx tokens s =
      (given ++ (expandCondition ctx left s').1, (expandCondition ctx left s').2) := by
  induction passes with
  | refl => rfl
  | step here _ ih => rw [expandCondition_of_step here, ih, List.append_assoc]

/-! ## Items -/

theorem isNamed_expandBuiltin (ctx : Context) (kind : Builtin) (site : Token) (s : State) (name : Text) :
    (expandBuiltin ctx kind site s).1.isNamed name = false := by
  cases kind <;> rfl

/-- A step that gives tokens gives one token and what is kept after it. -/
theorem conditionStep_cases (first : conditionStep ctx tokens s = some (given, left, s')) :
    given = [] ∨ ∃ token rest, given = token :: (keptAfter token rest).1 ∧
      left = (keptAfter token rest).2 ∧
      (token.isNamed "defined".toList = true → tokens = token :: rest) := by
  rw [conditionStep] at first
  split at first
  · cases first
  · rename_i token rest found
    cases first
    exact .inr ⟨token, rest, rfl, rfl, fun _ => Head.eq_cons_of_stays (.inl found)⟩
  · rename_i kind site rest found
    cases first
    have noName := isNamed_expandBuiltin ctx kind site s "defined".toList
    refine .inr ⟨(expandBuiltin ctx kind site s).1, left, ?_, ?_, fun named => ?_⟩
    · rw [keptAfter, noName, if_neg Bool.false_ne_true]
    · rw [keptAfter, noName, if_neg Bool.false_ne_true]
    · rw [noName] at named
      cases named
  · rename_i code site rest found
    cases first
    exact .inr ⟨site, rest, rfl, rfl, fun _ => Head.eq_cons_of_stays (.inr ⟨code, found⟩)⟩
  · cases first
    exact .inl rfl

/-- An expanded condition begins with a token that is given in one step, together with what is kept
after it. An operator `defined` stood before the others then. -/
inductive BeginsWith (ctx : Context) (tokens : List Token) (s : State) : Token → List Token → Prop
  | intro {todo rest : List Token} {token : Token} {s₁ s₂ : State}
      (reaches : Passes ctx tokens s [] todo s₁)
      (gives : Passes ctx todo s₁ (token :: (keptAfter token rest).1) (keptAfter token rest).2 s₂)
      (stood : token.isNamed "defined".toList = true → todo = token :: rest) :
      BeginsWith ctx tokens s token
        ((keptAfter token rest).1 ++ (expandCondition ctx (keptAfter token rest).2 s₂).1)

theorem beginsWith_of_step {token : Token} {more : List Token}
    (first : conditionStep ctx tokens s = some (given, left, s')) (some : given ≠ [])
    (result : (expandCondition ctx tokens s).1 = token :: more) :
    BeginsWith ctx tokens s token more := by
  rw [expandCondition_of_step first] at result
  obtain ⟨token', rest, rfl, rfl, stood⟩ := (conditionStep_cases first).resolve_left some
  obtain ⟨rfl, rfl⟩ := List.cons.inj result
  exact .intro .refl (.single first) stood

theorem beginsWith {token : Token} {more : List Token}
    (result : (expandCondition ctx tokens s).1 = token :: more) :
    BeginsWith ctx tokens s token more := by
  induction tokens, s using expandCondition.induct ctx with
  | case1 tokens s found =>
    rw [expandCondition_eq, found] at result
    cases result
  | case2 tokens s token' rest found =>
    exact beginsWith_of_step (by rw [conditionStep, found]) (List.cons_ne_nil _ _) result
  | case3 tokens s kind site rest found =>
    exact beginsWith_of_step (by rw [conditionStep, found]) (List.cons_ne_nil _ _) result
  | case4 tokens s code site rest found =>
    exact beginsWith_of_step (by rw [conditionStep, found]) (List.cons_ne_nil _ _) result
  | case5 tokens s c found replaced ih =>
    have first : conditionStep ctx tokens s = some ([], replaced.1 ++ c.rest, replaced.2) := by
      rw [conditionStep, found]
    rw [expandCondition_of_step first] at result
    obtain ⟨reaches, gives, stood⟩ := ih result
    exact .intro (.step first reaches) gives stood

/-! ## Where questions end -/

/-- The expansion of a condition comes to a point from which on `after` is given. -/
def ComesTo (ctx : Context) (tokens : List Token) (s : State) (after : List Token) : Prop :=
  ∃ given left s', Passes ctx tokens s given left s' ∧ (expandCondition ctx left s').1 = after

theorem Passes.comesTo (passes : Passes ctx tokens s given left s') :
    ComesTo ctx tokens s (expandCondition ctx left s').1 :=
  ⟨given, left, s', passes, rfl⟩

theorem ComesTo.of_passes {after : List Token} (passes : Passes ctx tokens s given left s')
    (comes : ComesTo ctx left s' after) : ComesTo ctx tokens s after := by
  obtain ⟨more, last, s₁, others, rfl⟩ := comes
  exact (passes.trans others).comesTo

theorem keptAfter_of_not_isNamed {token : Token} (other : token.isNamed "defined".toList = false)
    (rest : List Token) : keptAfter token rest = ([], rest) := by
  rw [keptAfter, other, if_neg Bool.false_ne_true]

/-- An item that is no operator `defined` is one token. -/
theorem BeginsWith.passes_of_not_isNamed {token : Token} {more : List Token}
    (begins : BeginsWith ctx tokens s token more) (other : token.isNamed "defined".toList = false) :
    ∃ left s', Passes ctx tokens s [token] left s' ∧ (expandCondition ctx left s').1 = more := by
  obtain ⟨reaches, gives, -⟩ := begins
  rw [keptAfter_of_not_isNamed other] at gives ⊢
  exact ⟨_, _, reaches.trans gives, rfl⟩

/-- What is kept after an operator `defined`: a token, or an opening parenthesis and a token. Where the
list ends there is less. -/
inductive Keeps : List Token → List Token → List Token → Prop
  | nothing {left : List Token} (ended : ∀ token ∈ left.head?, token.isEnd = true) : Keeps left [] left
  | alone {x : Token} {left : List Token} (notOpen : x.isOpen = false) : Keeps (x :: left) [x] left
  | parenthesis {opening : Token} {left : List Token} (opens : opening.isOpen = true)
      (ended : ∀ token ∈ left.head?, token.isEnd = true) : Keeps (opening :: left) [opening] left
  | inside {opening x : Token} {left : List Token} (opens : opening.isOpen = true) :
      Keeps (opening :: x :: left) [opening, x] left

theorem keeps_definedOperand (rest : List Token) :
    Keeps rest (definedOperand rest).1 (definedOperand rest).2 := by
  unfold definedOperand
  split
  · exact .nothing (by simp)
  · rename_i token rest
    split_ifs with opens isEnd
    · split
      · exact .parenthesis opens (by simp)
      · split_ifs with isEnd
        · exact .parenthesis opens (by simpa using isEnd)
        · exact .inside opens
    · exact .nothing (by simpa using isEnd)
    · exact .alone (Bool.eq_false_iff.mpr opens)

/-- Where a list ends, nothing is expanded. -/
theorem expandCondition_of_ended (ended : ∀ token ∈ tokens.head?, token.isEnd = true) :
    (expandCondition ctx tokens s).1 = [] := by
  have none : Head.read ctx.table tokens = none := by
    cases tokens with
    | nil => rfl
    | cons token rest => rw [Head.read, ended token rfl, if_pos rfl]
  rw [expandCondition_eq, none]

/-- Parentheses that close in an item close with its last token. -/
theorem splitClose?_item {depth : Nat} {token : Token} {rest later inner after : List Token}
    (closes : Operation.splitClose? depth (token :: ((keptAfter token rest).1 ++ later)) =
      some (inner, after)) :
    after = later ∨ ∃ depth' inner', Operation.splitClose? depth' later = some (inner', after) := by
  have one {depth : Nat} {x : Token} {inner : List Token}
      (closes : Operation.splitClose? depth (x :: later) = some (inner, after)) :
      after = later ∨ ∃ depth' inner', Operation.splitClose? depth' later = some (inner', after) :=
    (Operation.splitClose?_cons_eq_some closes).imp (fun here => here.2.2) fun later => ⟨_, later⟩
  cases named : token.isNamed "defined".toList with
  | false =>
    rw [keptAfter_of_not_isNamed named] at closes
    exact one closes
  | true =>
    rw [keptAfter, named, if_pos rfl] at closes
    obtain ⟨isClose, -⟩ | ⟨_, inside⟩ := Operation.splitClose?_cons_eq_some closes
    · rw [Token.isNamed_of_isPunctuator isClose] at named
      cases named
    · have keeps := keeps_definedOperand rest
      generalize (definedOperand rest).1 = kept, (definedOperand rest).2 = left at inside keeps
      cases keeps with
      | nothing ended => exact .inr ⟨_, _, inside⟩
      | alone notOpen => exact one inside
      | parenthesis opens ended => exact one inside
      | inside opens =>
        obtain ⟨isClose, -⟩ | ⟨_, deeper⟩ := Operation.splitClose?_cons_eq_some inside
        · have noClose := Token.isPunctuator_of_isPunctuator opens [')']
          rw [← Token.isClose, isClose] at noClose
          cases noClose
        · exact one deeper

/-- Parentheses that close in an expanded condition close where expansion comes to. -/
theorem comesTo_of_splitClose? {depth : Nat} {inner after : List Token}
    (closes : Operation.splitClose? depth (expandCondition ctx tokens s).1 = some (inner, after)) :
    ComesTo ctx tokens s after := by
  induction size : (expandCondition ctx tokens s).1.length using Nat.strongRecOn
    generalizing depth inner tokens s with
  | ind n ih =>
    subst size
    cases result : (expandCondition ctx tokens s).1 with
    | nil =>
      rw [result] at closes
      cases closes
    | cons token more =>
      obtain ⟨reaches, gives, -⟩ := beginsWith result
      rw [result] at closes
      have passes := reaches.trans gives
      obtain rfl | ⟨depth', inner', closes'⟩ := splitClose?_item closes
      · exact passes.comesTo
      · refine .of_passes passes (ih _ ?_ closes' rfl)
        simp only [result, List.length_cons, List.length_append]
        omega

theorem comesTo_of_parenthesized? {inner after : List Token}
    (closes : Operation.parenthesized? (expandCondition ctx tokens s).1 = some (inner, after)) :
    ComesTo ctx tokens s after := by
  cases result : (expandCondition ctx tokens s).1 with
  | nil =>
    rw [result] at closes
    cases closes
  | cons token more =>
    rw [result, Operation.parenthesized?] at closes
    split_ifs at closes with opens
    obtain ⟨left, s', passes, rfl⟩ :=
      (beginsWith result).passes_of_not_isNamed (Token.isNamed_of_isPunctuator opens _)
    exact .of_passes passes (comesTo_of_splitClose? closes)

/-- A token stands first in a list, alone or after an opening parenthesis. -/
def StandsFirst (x : Token) (rest : List Token) : Prop :=
  ∃ left, rest = x :: left ∨ ∃ opening, opening.isOpen = true ∧ rest = opening :: x :: left

/-- What `defined` asks about in an expanded condition is what stood first after it. -/
theorem comesTo_of_readDefined {rest kept after : List Token} {name : Text}
    (keeps : Keeps rest kept left)
    (read : Query.readDefined (kept ++ (expandCondition ctx left s).1) = .ok (.defined name, after)) :
    (∃ x, StandsFirst x rest ∧ x.lexeme = name) ∧ ComesTo ctx left s after := by
  obtain ⟨x, -, same, forms⟩ := Query.readDefined_eq_ok read
  cases same
  cases keeps with
  | nothing ended => simp [expandCondition_of_ended ended] at forms
  | @alone y _ notOpen =>
    obtain ⟨-, split⟩ | ⟨opening, close, opens, -, split⟩ := forms
    · obtain ⟨rfl, rfl⟩ := List.cons.inj split
      exact ⟨⟨y, ⟨left, .inl rfl⟩, rfl⟩, Passes.refl.comesTo⟩
    · obtain ⟨rfl, -⟩ := List.cons.inj split
      rw [opens] at notOpen
      cases notOpen
  | @parenthesis opening _ opens ended =>
    rw [expandCondition_of_ended ended] at forms
    obtain ⟨notOpen, split⟩ | ⟨opening, close, -, -, split⟩ := forms
    · obtain ⟨rfl, -⟩ := List.cons.inj split
      rw [opens] at notOpen
      cases notOpen
    · cases (List.cons.inj split).2
  | @inside opening y _ opens =>
    obtain ⟨notOpen, split⟩ | ⟨opening, close, -, closes, split⟩ := forms
    · obtain ⟨rfl, -⟩ := List.cons.inj split
      rw [opens] at notOpen
      cases notOpen
    · simp only [List.cons_append, List.nil_append, List.cons.injEq] at split
      obtain ⟨rfl, rfl, result⟩ := split
      obtain ⟨last, s', passes, rfl⟩ :=
        (beginsWith result).passes_of_not_isNamed (Token.isNamed_of_isPunctuator closes _)
      exact ⟨⟨y, ⟨left, .inr ⟨_, opens, rfl⟩⟩, rfl⟩, passes.comesTo⟩

theorem comesTo_of_read? {token : Token} {more after : List Token} {query : Query}
    (result : (expandCondition ctx tokens s).1 = token :: more)
    (read : Query.read? token more = some (.ok (query, after))) : ComesTo ctx tokens s after := by
  obtain ⟨named, read⟩ | ⟨other, inner, closes⟩ := Query.read?_eq_ok read
  · obtain ⟨reaches, gives, -⟩ := beginsWith result
    rw [keptAfter, if_pos named] at read gives
    obtain ⟨x, -, rfl, -⟩ := Query.readDefined_eq_ok read
    exact .of_passes (reaches.trans gives) (comesTo_of_readDefined (keeps_definedOperand _) read).2
  · obtain ⟨left, s', passes, rfl⟩ := (beginsWith result).passes_of_not_isNamed other
    exact .of_passes passes (comesTo_of_parenthesized? closes)

/-- The questions of an expanded condition are read from point to point of its expansion. -/
theorem exists_passes_of_scans {before tail : List Token} (scans : Query.Scans before tail)
    (result : (expandCondition ctx tokens s).1 = before ++ tail) :
    ∃ left s', Passes ctx tokens s before left s' ∧ (expandCondition ctx left s').1 = tail := by
  induction scans generalizing tokens s with
  | nil => exact ⟨tokens, s, .refl, result⟩
  | @token token before tail other more ih =>
    have noDefined : token.isNamed "defined".toList = false := by
      cases named : token.isNamed "defined".toList with
      | false => rfl
      | true =>
        rw [Query.read?, if_pos named] at other
        cases other
    obtain ⟨left, s', passes, later⟩ := (beginsWith result).passes_of_not_isNamed noDefined
    obtain ⟨last, s₁, others, same⟩ := ih later
    exact ⟨last, s₁, passes.trans others, same⟩
  | @question token asked before tail query read more ih =>
    rw [List.cons_append, List.append_assoc] at result
    obtain ⟨given, left, s', passes, later⟩ := comesTo_of_read? result read
    obtain ⟨last, s₁, others, same⟩ := ih later
    have whole := congrArg Prod.fst passes.expandCondition_eq
    rw [result, later, ← List.cons_append] at whole
    obtain rfl := List.append_cancel_right whole
    exact ⟨last, s₁, passes.trans others, same⟩

end Expansion

/-! ## Conditions -/

namespace Query

/-- The reading of a condition comes to an operator `defined`. -/
structure IsReached (before : List Token) (operator : Token) (rest : List Token) : Prop where
  scans : Scans before (operator :: rest)
  isOperator : operator.isNamed "defined".toList = true

/-- An answer is a number that has the value one or zero. -/
theorem value_answerToken (site : Token) (value : Bool) :
    IntegerLiteral.value (answerToken site value) = .ok (Value.ofBool value) := by
  cases value <;> rfl

end Query

namespace Expansion

/-- A punctuator is not expanded. -/
theorem expandCondition_of_isPunctuator {ctx : Context} {token : Token} {symbol : Text}
    (isSymbol : token.isPunctuator symbol = true) (rest : List Token) (s : State) :
    (expandCondition ctx (token :: rest) s).1 = token :: (expandCondition ctx rest s).1 := by
  have found : Head.read ctx.table (token :: rest) = some (.plain token rest) := by
    have uncalled : Head.called? ctx.table token = none := by
      simp [Head.called?, MacroTable.findToken?, Token.isName_of_isPunctuator isSymbol]
    have goesOn : token.isEnd = false := by
      rw [Token.isEnd, (Token.isPunctuator_iff.mp isSymbol).1]
      rfl
    rw [Head.read, goesOn, if_neg Bool.false_ne_true, Head.ofToken, uncalled]
  rw [expandCondition_eq]
  simp only [found, keptAfter_of_not_isNamed (Token.isNamed_of_isPunctuator isSymbol _)]
  rfl

/-- A question is read after expansion as it would have been read where it stood. -/
theorem readDefined_expanded {ctx : Context} {rest left : List Token} {name : Text}
    (read : Query.readDefined rest = .ok (.defined name, left)) (s : State) :
    Query.readDefined
        ((definedOperand rest).1 ++ (expandCondition ctx (definedOperand rest).2 s).1) =
      .ok (.defined name, (expandCondition ctx left s).1) := by
  obtain ⟨x, isName, same, ⟨notOpen, rfl⟩ | ⟨opening, close, opens, closes, rfl⟩⟩ :=
    Query.readDefined_eq_ok read
  all_goals
    cases same
    have goesOn : x.isEnd = false := by
      cases kind : x.kind <;> simp_all [Token.isName, Token.isEnd]
  · simp [definedOperand, Query.readDefined, notOpen, goesOn, isName]
  · simp [definedOperand, Query.readDefined, opens, goesOn, isName, closes,
      expandCondition_of_isPunctuator closes]

/-- An operator `defined` of an expanded condition, with `rest` after it, asks about what stood after it
when expansion came to it. A question that stood there is still asked, about the same name; and a name
that is asked about stood first. -/
def AsksAsItStood (ctx : Context) (tokens : List Token) (s : State) (before : List Token)
    (operator : Token) (rest : List Token) : Prop :=
  ∃ todo s', Passes ctx tokens s before (operator :: todo) s' ∧
    (∀ name left, Query.readDefined todo = .ok (.defined name, left) →
      ∃ s'', Query.readDefined rest = .ok (.defined name, (expandCondition ctx left s'').1)) ∧
    ∀ name after, Query.readDefined rest = .ok (.defined name, after) →
      ∃ x, StandsFirst x todo ∧ x.lexeme = name

theorem asksAsItStood {ctx : Context} {tokens before rest : List Token} {s : State}
    {operator : Token} (result : (expandCondition ctx tokens s).1 = before ++ operator :: rest)
    (reached : Query.IsReached before operator rest) :
    AsksAsItStood ctx tokens s before operator rest := by
  obtain ⟨left, s', passes, here⟩ := exists_passes_of_scans reached.scans result
  obtain ⟨reaches, gives, stood⟩ := beginsWith here
  have both := passes.trans reaches
  rw [List.append_nil, stood reached.isOperator] at both
  refine ⟨_, _, both, fun name left read => ?_, fun name after read => ?_⟩
  · rw [keptAfter, if_pos reached.isOperator]
    exact ⟨_, readDefined_expanded read _⟩
  · rw [keptAfter, if_pos reached.isOperator] at read
    exact (comesTo_of_readDefined (keeps_definedOperand _) read).1

end Expansion

namespace Directive

variable (d : Directive) (setup : Setup) (place : Place)

/-- What an expression is, when its questions are answered for the last time. -/
def concluded : Except Failure (List Token) × Session → Bool × Session
  | (.error failure, s) =>
    (false, s.report (failure.token.getD d.nameToken) failure.code failure.detail)
  | (.ok operands, s) =>
    let (value, journal) := evaluateCondition operands d.nameToken s.journal
    (value.any Value.isTrue, { s with expansion := { s.expansion with journal } })

/-- What an expression is that is written with certain tokens. -/
def judged (written : List Token) (s : Session) : Bool × Session :=
  match Query.answerAll setup place written s with
  | (.error failure, s) => d.concluded (.error failure, s)
  | (.ok tokens, s) =>
    let (expanded, expansion) :=
      Expansion.expandCondition (s.context setup place) tokens s.expansion
    d.concluded (Query.answerAll setup place expanded { s with expansion })

theorem expressionHolds_eq_judged (s : Session) :
    d.expressionHolds setup place s = d.judged setup place d.args (s.reportSpellings d.args) := by
  unfold expressionHolds judged
  cases Query.answerAll setup place d.args (s.reportSpellings d.args) with
  | mk answered s' =>
    cases answered with
    | error failure => rfl
    | ok tokens =>
      simp only []
      generalize Query.answerAll setup place _ _ = last
      obtain ⟨answered, s''⟩ := last
      cases answered <;> rfl

/-- The answer to a question may be written in its place. -/
theorem judged_of_isReached {before rest after : List Token} {operator : Token} {name : Text}
    (reached : Query.IsReached before operator rest)
    (read : Query.readDefined rest = .ok (.defined name, after)) (s : Session) :
    d.judged setup place (before ++ operator :: rest) s =
      d.judged setup place
        (before ++ Query.answerToken operator (Query.isDefined s name) :: after) s := by
  rw [judged, judged, reached.scans.answerAll_defined reached.isOperator read s]

/-- The answer to a question that expansion has brought may be written in its place too. -/
theorem judged_of_isReached_expanded {written tokens before rest after : List Token} {s s' : Session}
    {operator : Token} {name : Text}
    (answered : Query.answerAll setup place written s = (.ok tokens, s'))
    (result : (Expansion.expandCondition (s'.context setup place) tokens s'.expansion).1 =
      before ++ operator :: rest)
    (reached : Query.IsReached before operator rest)
    (read : Query.readDefined rest = .ok (.defined name, after)) :
    d.judged setup place written s =
      d.concluded (Query.answerAll setup place
        (before ++ Query.answerToken operator (Query.isDefined s name) :: after)
        { s' with expansion :=
            (Expansion.expandCondition (s'.context setup place) tokens s'.expansion).2 }) := by
  have macros : s'.macros = s.macros := by
    have kept := Query.macros_answerAll setup place written s
    rwa [answered] at kept
  rw [judged, answered]
  simp only [result]
  rw [reached.scans.answerAll_defined reached.isOperator read]
  simp only [Query.isDefined, macros]

end Directive

/-- A condition that asks whether a name is defined gets the number one in place of the question if
the name has a macro or is an operator, and zero otherwise. A question that is written is answered
before macros are expanded. A question that expansion brings is about what stood after the operator when
expansion came to it: the operand is not expanded then, but the arguments of a call have been
expanded before they come there. -/
theorem Directive.expressionHolds_defined (d : Directive) (setup : Setup) (place : Place) :
    (∀ s, d.expressionHolds setup place s =
      d.judged setup place d.args (s.reportSpellings d.args)) ∧
    (∀ before operator rest, Query.IsReached before operator rest →
      ∀ name after, Query.readDefined rest = .ok (.defined name, after) →
        ∀ s, d.judged setup place (before ++ operator :: rest) s =
          d.judged setup place
            (before ++ Query.answerToken operator (Query.isDefined s name) :: after) s) ∧
    (∀ written s tokens s', Query.answerAll setup place written s = (.ok tokens, s') →
      let ctx := s'.context setup place
      let expanded := Expansion.expandCondition ctx tokens s'.expansion
      ∀ before operator rest, expanded.1 = before ++ operator :: rest →
        Query.IsReached before operator rest →
        Expansion.AsksAsItStood ctx tokens s'.expansion before operator rest ∧
        ∀ name after, Query.readDefined rest = .ok (.defined name, after) →
          d.judged setup place written s =
            d.concluded (Query.answerAll setup place
              (before ++ Query.answerToken operator (Query.isDefined s name) :: after)
              { s' with expansion := expanded.2 })) ∧
    ∀ site value, IntegerLiteral.value (Query.answerToken site value) = .ok (Value.ofBool value) := by
  refine ⟨d.expressionHolds_eq_judged setup place, fun before operator rest reached name after read =>
    d.judged_of_isReached setup place reached read, ?_, Query.value_answerToken⟩
  intro written s tokens s' answered ctx expanded before operator rest result reached
  exact ⟨Expansion.asksAsItStood result reached, fun name after read =>
    d.judged_of_isReached_expanded setup place answered result reached read⟩

section Brought

open Expansion (nameToken)

/-- `D` brings the operator, and `FOO` has a macro. -/
def askingSession : Session where
  macros :=
    { macros :=
        [{ name := ['D'], replacement := .object [nameToken "defined".toList] },
          { name := "FOO".toList, replacement := .object [{ kind := .number, lexeme := ['5'] }] }] }
  resolver := { searchPath := [], cache := { capacity := 1, capacity_pos := Nat.one_pos } }

/-- The name that is asked about. -/
def askedName : Token :=
  nameToken "FOO".toList

/-- The operator that `D` brings. -/
def broughtOperator : Token where
  kind := .identifier
  lexeme := "defined".toList
  hideSet := [['D']]
  calls := [(nameToken ['D']).callSite]

/-- The condition `D FOO`. -/
def askingDirective : Directive where
  hash := { kind := .punctuator, lexeme := ['#'], atLineStart := true }
  name := some (nameToken "if".toList)
  args := [nameToken ['D'], askedName]

/-- The place of a file that nothing includes. -/
def askingPlace : Place :=
  ⟨[], none, 0, []⟩

theorem expandCondition_asking :
    Expansion.expandCondition (askingSession.context {} askingPlace) askingDirective.args {} =
      ([broughtOperator, askedName], {}) := by
  have called : Head.called? (askingSession.context {} askingPlace).table (nameToken ['D']) =
      some { name := ['D'], replacement := .object [nameToken "defined".toList] } := rfl
  have pastesNothing : ∀ token ∈ [nameToken "defined".toList], token.isPaste = false := by decide
  have first := Expansion.conditionStep_of_object rfl called rfl pastesNothing [askedName] {}
  have second : Expansion.conditionStep (askingSession.context {} askingPlace)
      [broughtOperator, askedName] {} =
        some ([broughtOperator, askedName], [], {}) := rfl
  have last : Expansion.expandCondition (askingSession.context {} askingPlace) [] {} = ([], {}) := by
    rw [Expansion.expandCondition_eq]
    rfl
  calc Expansion.expandCondition (askingSession.context {} askingPlace) askingDirective.args {}
      = Expansion.expandCondition (askingSession.context {} askingPlace)
          [broughtOperator, askedName] {} := Expansion.expandCondition_of_step first
    _ = ([broughtOperator, askedName], {}) := by
      rw [Expansion.expandCondition_of_step second, last]
      rfl

/-- In `D FOO` the operator comes from a macro, and it asks about `FOO`, not about what `FOO` is
replaced by. -/
theorem Directive.expressionHolds_defined_asking :
    Expansion.AsksAsItStood (askingSession.context {} askingPlace) askingDirective.args {} []
        broughtOperator [askedName] ∧
      askingDirective.judged {} askingPlace askingDirective.args askingSession =
        askingDirective.concluded (Query.answerAll {} askingPlace
          [Query.answerToken broughtOperator true] askingSession) := by
  have answered : Query.answerAll {} askingPlace askingDirective.args askingSession =
      (.ok askingDirective.args, askingSession) := by
    simp only [askingDirective, Query.answerAll_cons, Query.answerAll]
    rfl
  have result := congrArg Prod.fst expandCondition_asking
  have reached : Query.IsReached [] broughtOperator [askedName] := ⟨.nil, rfl⟩
  have all := (Directive.expressionHolds_defined askingDirective {} askingPlace).2.2.1
    askingDirective.args askingSession askingDirective.args askingSession answered [] broughtOperator
    [askedName] result reached
  refine ⟨all.1, (all.2 "FOO".toList [] rfl).trans ?_⟩
  rw [show askingSession.expansion = {} from rfl, expandCondition_asking]
  rfl

end Brought

end CPreprocessor
