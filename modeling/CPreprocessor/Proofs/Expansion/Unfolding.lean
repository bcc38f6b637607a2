/-
# Object-like macros unfold token by token

Where all macros are object-like and paste nothing, a token is expanded without regard to
what stands around it: it stays if it names no macro or a name that is hidden in it, and
otherwise it unfolds to what the tokens of its replacement list unfold to, in which the name
is hidden as well. `unfolded` is this recursion over the replacement lists. It ends because
every name is hidden at most once, whatever the macros say of each other, and the machine
that puts replacement lists back in front of its input computes it
(`expandAll_eq_unfolded`).
-/
import CPreprocessor.Proofs.Expansion.Ends

namespace CPreprocessor

/-- Every macro is object-like, and its replacement list pastes no tokens. Like those that are read
from a line, it has no end of a file in it. -/
structure MacroTable.IsObjectLike (table : MacroTable) : Prop where
  object : ∀ m ∈ table.macros, ∃ body, m.replacement = .object body
  pastesNothing : ∀ m ∈ table.macros, ∀ token ∈ m.body, token.isPaste = false
  inside : table.IsInside

/-! ## Replacement lists without operators -/

namespace Operation

/-- Without parameters a token that pastes nothing stays. -/
theorem read_of_no_parameters {token : Token} (pastesNothing : token.isPaste = false)
    (rest : List Token) : read {} token rest = (.copy token, rest) := by
  have noPosition (other : Token) : Parameters.indexOf? {} other = none := by
    simp [Parameters.indexOf?, Parameters.index?]
  have noString : readString? {} token rest = none := by
    cases rest with
    | nil => rfl
    | cons next after => simp [readString?, noPosition]
  have noComma : readComma? {} token rest = none := by
    rcases rest with _ | ⟨paste, _ | ⟨next, after⟩⟩
    · rfl
    · rfl
    · simp [readComma?, Parameters.isVariadicAt]
  have operand : readOperand {} token rest = (.copy token, rest) := by
    simp [readOperand, noPosition, Parameters.isOptional]
  unfold read
  rw [noString, noComma]
  cases rest with
  | nil => exact operand
  | cons next after => simpa [pastesNothing] using operand

end Operation

namespace Substitution

/-- A replacement list without parameters that pastes nothing stays as it is. -/
theorem run_of_no_parameters (language : Language) {body : List Token}
    (pastesNothing : ∀ token ∈ body, token.isPaste = false) (s : Substitution) :
    (run language {} [] body s).result = s.result ++ body
      ∧ (run language {} [] body s).state = s.state := by
  induction body generalizing s with
  | nil => simp [run]
  | cons token rest ih =>
    obtain ⟨here, later⟩ := List.forall_mem_cons.mp pastesNothing
    rw [run, Operation.read_of_no_parameters here]
    obtain ⟨result, state⟩ := ih later (s.emit [token])
    have stays : (s.emit [token]).result ++ rest = s.result ++ token :: rest := by
      simp [emit, Substitution.result]
    exact ⟨result.trans stays, state⟩

end Substitution

/-! ## What becomes of a replacement list -/

/-- The token is a copy of another one in which certain names are hidden. -/
structure Token.IsCopy (hidden : HideSet) (token copy : Token) : Prop where
  word : copy.word = token.word
  verbatim : copy.verbatim = token.verbatim
  hides : copy.hideSet = hidden

theorem Token.IsCopy.isEnd_eq {hidden : HideSet} {token copy : Token}
    (isCopy : token.IsCopy hidden copy) : copy.isEnd = token.isEnd :=
  congrArg (fun word : TokenKind × Text => word.1 == .endOfFile) isCopy.word

/-- A copy names the same macro. -/
theorem Token.IsCopy.findToken?_eq {hidden : HideSet} {token copy : Token}
    (isCopy : token.IsCopy hidden copy) (table : MacroTable) :
    table.findToken? copy = table.findToken? token := by
  obtain ⟨kind, lexeme⟩ := Prod.mk.inj isCopy.word
  rw [MacroTable.findToken?, Token.isName, kind, lexeme]
  rfl

namespace Expansion

/-- What replaces a call are copies of the tokens of the replacement list. -/
theorem forall₂_replacement (site : Token) (hidden : HideSet) (body : List Token) :
    List.Forall₂ (fun token copy => token.IsCopy (token.hideSet.union hidden) copy) body
      (replacement site hidden body) := by
  cases body with
  | nil => exact .nil
  | cons token rest =>
    refine .cons ⟨rfl, rfl, rfl⟩ ?_
    rw [List.forall₂_map_right_iff]
    exact List.forall₂_same.mpr fun token _ => ⟨rfl, rfl, rfl⟩

/-! ## The recursion -/

/-- The tokens that a token stands for where the names in `hidden` are not expanded. A token of a
replacement list that was read from a line hides no names yet. -/
def unfolded (table : MacroTable) (hidden : HideSet) (token : Token) : List Token :=
  if token.verbatim then
    [token]
  else
    match _found : table.findToken? token with
    | none => [token]
    | some m =>
      if _isHidden : m.name ∈ hidden then
        [token]
      else
        m.body.flatMap fun inner => unfolded table (inner.hideSet.union (hidden.union [m.name])) inner
  termination_by (table.macros.map Macro.name).countP fun name => !hidden.contains name
  decreasing_by
    have known : m.name ∈ table.macros.map Macro.name :=
      List.mem_map_of_mem (MacroTable.mem_of_findToken? _found)
    have fewer : (table.macros.map Macro.name).countP
          (fun name => !hidden.contains name && name != m.name)
        < (table.macros.map Macro.name).countP fun name => !hidden.contains name :=
      Exposure.countP_without known (by simpa using _isHidden)
    refine Nat.lt_of_le_of_lt (List.countP_mono_left fun name _ free => ?_) fewer
    simp only [Bool.not_eq_true', List.contains_eq_mem, decide_eq_false_iff_not, HideSet.mem_union,
      List.mem_singleton, not_or] at free
    simpa using free.2

variable {ctx : Context}

/-- The call that an object-like macro makes of its name takes no other token. -/
theorem read_of_called {token : Token} (more : token.isEnd = false) {m : Macro}
    (called : Head.called? ctx.table token = some m) {body : List Token}
    (object : m.replacement = .object body) (rest : List Token) :
    Head.read ctx.table (token :: rest) = some (.call
      { called := m, site := token, arguments := [], hidden := token.hideSet.union [m.name], rest }) := by
  simp only [Head.read, more, Bool.false_eq_true, if_false, Head.ofToken, called, Head.ofMacro, object]

/-- Such a call is replaced by the replacement list, if that pastes nothing. -/
theorem expandCall_of_object {m : Macro} {body : List Token} (object : m.replacement = .object body)
    (pastesNothing : ∀ token ∈ body, token.isPaste = false) (site : Token) (hidden : HideSet)
    (rest : List Token) (s : State) :
    expandCall ctx { called := m, site, arguments := [], hidden, rest } s =
      (replacement site hidden body, s) := by
  have parameters : m.parameters = {} := by rw [Macro.parameters, object]
  have body_eq : m.body = body := by rw [Macro.body, object]
  obtain ⟨result, state⟩ :=
    Substitution.run_of_no_parameters ctx.language pastesNothing { state := s }
  have result : (Substitution.run ctx.language {} [] body { state := s }).result = body := result
  simp only [expandCall, parameters, body_eq, List.map_nil, result, state]

/-- A token that calls no macro stays. -/
theorem expandAll_cons_of_uncalled {token : Token} (more : token.isEnd = false)
    (uncalled : Head.called? ctx.table token = none) (rest : List Token) (s : State) :
    expandAll ctx (token :: rest) s
      = (token :: (expandAll ctx rest s).1, (expandAll ctx rest s).2) := by
  rw [expandAll_eq, Head.read, more, if_neg Bool.false_ne_true, Head.ofToken, uncalled]

theorem expandAll_singleton_of_uncalled {token : Token} (more : token.isEnd = false)
    (uncalled : Head.called? ctx.table token = none) (s : State) :
    expandAll ctx [token] s = ([token], s) :=
  expandAll_of_uncalled ctx (.cons more .nil) (by simpa using uncalled) s

section ObjectLike

variable (objectLike : ctx.table.IsObjectLike)
include objectLike

/-- A macro that is called is replaced by its replacement list. -/
theorem expandAll_cons_of_called {token : Token} (more : token.isEnd = false) {m : Macro}
    (called : Head.called? ctx.table token = some m) (rest : List Token) (s : State) :
    expandAll ctx (token :: rest) s
      = expandAll ctx (replacement token (token.hideSet.union [m.name]) m.body ++ rest) s := by
  have member := Head.mem_of_called? called
  obtain ⟨body, object⟩ := objectLike.object m member
  have body_eq : m.body = body := by rw [Macro.body, object]
  have pastesNothing := objectLike.pastesNothing m member
  rw [body_eq] at pastesNothing ⊢
  rw [expandAll_of_call (read_of_called more called object rest),
    expandCall_of_object object pastesNothing]

/-- Induction along expansion: a token stays, or it is replaced by its replacement list. -/
theorem objectLike_induction {motive : List Token → Prop} (nothing : motive [])
    (stays : ∀ token rest, token.isEnd = false → Head.called? ctx.table token = none →
      motive rest → motive (token :: rest))
    (unfolds : ∀ token rest m, token.isEnd = false → Head.called? ctx.table token = some m →
      motive (replacement token (token.hideSet.union [m.name]) m.body ++ rest) →
      motive (token :: rest))
    {tokens : List Token} (inside : Inside tokens) : motive tokens := by
  generalize size : Exposure.levels ctx.names tokens = levels
  induction levels using Levels.below_wf.induction generalizing tokens with
  | h levels ih =>
    subst size
    cases tokens with
    | nil => exact nothing
    | cons token rest =>
      obtain ⟨more, later⟩ := List.forall_mem_cons.mp inside
      cases called : Head.called? ctx.table token with
      | none =>
        have found : Head.read ctx.table (token :: rest) = some (.plain token rest) := by
          simp only [Head.read, more, Bool.false_eq_true, if_false, Head.ofToken, called]
        exact stays token rest more called (ih _ (fewer_of_plain found) later rfl)
      | some m =>
        have member := Head.mem_of_called? called
        obtain ⟨body, object⟩ := objectLike.object m member
        refine unfolds token rest m more called (ih _ (fewer_of_call
          (read_of_called more called object rest) _) (.append ?_ later) rfl)
        exact inside_replacement _ _ (objectLike.inside m member)

/-- What stands after some tokens takes no part in their expansion, and expansion neither counts nor
reports anything. -/
theorem expandAll_append {tokens : List Token} (inside : Inside tokens) (after : List Token) (s : State) :
    (expandAll ctx tokens s).2 = s
      ∧ expandAll ctx (tokens ++ after) s
        = ((expandAll ctx tokens s).1 ++ (expandAll ctx after s).1, (expandAll ctx after s).2) := by
  refine objectLike_induction objectLike (motive := fun tokens => (expandAll ctx tokens s).2 = s
    ∧ expandAll ctx (tokens ++ after) s
      = ((expandAll ctx tokens s).1 ++ (expandAll ctx after s).1, (expandAll ctx after s).2))
    ?_ ?_ ?_ inside
  · rw [expandAll_eq]
    exact ⟨rfl, rfl⟩
  · rintro token rest more uncalled ⟨state, append⟩
    rw [List.cons_append, expandAll_cons_of_uncalled more uncalled,
      expandAll_cons_of_uncalled more uncalled, append]
    exact ⟨state, rfl⟩
  · rintro token rest m more called ⟨state, append⟩
    rw [List.cons_append, expandAll_cons_of_called objectLike more called,
      expandAll_cons_of_called objectLike more called, ← List.append_assoc, append]
    exact ⟨state, rfl⟩

/-- Tokens are expanded one by one. -/
theorem expandAll_eq_flatMap {tokens : List Token} (inside : Inside tokens) (s : State) :
    expandAll ctx tokens s = (tokens.flatMap fun token => (expandAll ctx [token] s).1, s) := by
  induction tokens with
  | nil => rw [expandAll_eq]; rfl
  | cons token rest ih =>
    obtain ⟨more, later⟩ := List.forall_mem_cons.mp inside
    have append := (expandAll_append objectLike (.cons more .nil) rest s).2
    rw [List.flatMap_cons, ← List.singleton_append, append, ih later]

/-- No token that is left calls a macro. -/
theorem uncalled_expandAll {tokens : List Token} (inside : Inside tokens) (s : State) :
    ∀ token ∈ (expandAll ctx tokens s).1, Head.called? ctx.table token = none := by
  refine objectLike_induction objectLike (motive := fun tokens =>
    ∀ token ∈ (expandAll ctx tokens s).1, Head.called? ctx.table token = none) ?_ ?_ ?_ inside
  · rw [expandAll_eq]
    exact fun _ member => absurd member List.not_mem_nil
  · intro token rest more uncalled later
    rw [expandAll_cons_of_uncalled more uncalled]
    exact List.forall_mem_cons.mpr ⟨uncalled, later⟩
  · intro token rest m more called later
    rwa [expandAll_cons_of_called objectLike more called]

/-- A token is expanded to the words of what it unfolds to. -/
theorem map_word_expandAll_singleton (hidden : HideSet) (token : Token) {site : Token}
    (more : site.isEnd = false) (isCopy : token.IsCopy hidden site) (s : State) :
    (expandAll ctx [site] s).1.map Token.word = (unfolded ctx.table hidden token).map Token.word := by
  fun_induction unfolded ctx.table hidden token generalizing site with
  | case1 hidden token isVerbatim =>
    have uncalled : Head.called? ctx.table site = none := by
      simp [Head.called?, isCopy.verbatim, isVerbatim]
    simp [expandAll_singleton_of_uncalled more uncalled, isCopy.word]
  | case2 hidden token isPlain unnamed =>
    have uncalled : Head.called? ctx.table site = none := by
      simp [Head.called?, isCopy.findToken?_eq, unnamed]
    simp [expandAll_singleton_of_uncalled more uncalled, isCopy.word]
  | case3 hidden token isPlain m found isHidden =>
    have uncalled : Head.called? ctx.table site = none := by
      simp [Head.called?, isCopy.findToken?_eq, found, isCopy.hides, isHidden]
    simp [expandAll_singleton_of_uncalled more uncalled, isCopy.word]
  | case4 hidden token isPlain m found exposed ih =>
    have called : Head.called? ctx.table site = some m := by
      simp [Head.called?, isCopy.verbatim, isPlain, isCopy.findToken?_eq, found,
        isCopy.hides, exposed]
    have inside := objectLike.inside m (MacroTable.mem_of_findToken? found)
    have copies := forall₂_replacement site (site.hideSet.union [m.name]) m.body
    rw [isCopy.hides] at copies
    rw [expandAll_cons_of_called objectLike more called, List.append_nil, isCopy.hides,
      expandAll_eq_flatMap objectLike (inside_replacement _ _ inside)]
    generalize replacement site (hidden.union [m.name]) m.body = copied at copies
    generalize m.body = body at inside copies
    induction copies with
    | nil => rfl
    | @cons token copy rest copies first others later =>
      obtain ⟨here, restInside⟩ := List.forall_mem_cons.mp inside
      have copyInside : copy.isEnd = false := first.isEnd_eq.trans here
      simp only [List.flatMap_cons, List.map_append, ih token copyInside first, later restInside]

end ObjectLike

/-- Under object-like macros that paste nothing, the tokens of a list unfold one by one to their words:
a token to itself if it names no macro or a name that is hidden in it, and otherwise to what its
replacement list unfolds to with the name hidden as well. So the expansion of a list is made of those
of its parts, and to expand what was expanded changes no token, its hidden names included. -/
theorem expandAll_eq_unfolded (objectLike : ctx.table.IsObjectLike) {tokens more : List Token}
    (inside : Inside tokens) (moreInside : Inside more) (s : State) :
    (expandAll ctx tokens s).1.map Token.word
        = (tokens.flatMap fun token => unfolded ctx.table token.hideSet token).map Token.word
      ∧ expandAll ctx (tokens ++ more) s
        = ((expandAll ctx tokens s).1 ++ (expandAll ctx more s).1, s)
      ∧ expandAll ctx (expandAll ctx tokens s).1 s = ((expandAll ctx tokens s).1, s) := by
  refine ⟨?_, ?_, ?_⟩
  · rw [expandAll_eq_flatMap objectLike inside]
    simp only [List.map_flatMap]
    refine List.flatMap_congr fun token member => ?_
    exact map_word_expandAll_singleton objectLike token.hideSet token (inside token member)
      ⟨rfl, rfl, rfl⟩ s
  · obtain ⟨-, append⟩ := expandAll_append objectLike inside more s
    obtain ⟨state, -⟩ := expandAll_append objectLike moreInside [] s
    rw [append, state]
  · exact expandAll_of_uncalled ctx (inside_expandAll ctx tokens s)
      (uncalled_expandAll objectLike inside s) s

/-! Two macros that stand in each other's replacement lists. -/

/-- A name. -/
def nameToken (name : Text) : Token :=
  { kind := .identifier, lexeme := name }

/-- `x` is replaced by `y x`, and `y` by `x y z`. -/
def mutualContext : Context where
  table :=
    { macros :=
        [{ name := ['x'], replacement := .object [nameToken ['y'], nameToken ['x']] },
          { name := ['y'],
            replacement := .object [nameToken ['x'], nameToken ['y'], nameToken ['z']] }] }
  language := .standard
  clock := default
  includeLevel := 0
  baseFile := []

theorem isObjectLike_mutual : mutualContext.table.IsObjectLike where
  object := by simp [mutualContext]
  pastesNothing := by decide
  inside := by unfold MacroTable.IsInside Inside; decide

/-- In the expansion of `x` both names stay where they come back. -/
theorem expandAll_eq_unfolded_mutual :
    (expandAll mutualContext [nameToken ['x']] {}).1.map Token.word
      = [['x'], ['y'], ['z'], ['x']].map fun name => (.identifier, name) :=
  (expandAll_eq_unfolded isObjectLike_mutual (.cons rfl .nil) .nil {}).1.trans (by decide +kernel)

end Expansion

end CPreprocessor
