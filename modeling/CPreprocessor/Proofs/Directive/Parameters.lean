/-
# Parameter lists

A list of parameters is empty, names with commas between them, or ends in variable arguments, with
or without a name of their own (`ParameterList.IsList`). A definition is read exactly if its
list has one of these forms, no name in it is `__VA_ARGS__`, and the named parameters differ from
each other; whether the name of the variable arguments is one of theirs is not asked
(`Directive.define_parameters`). A definition with another list is given up with one report, and
no macro changes.
-/
import CPreprocessor.Proofs.Directive.Macros

namespace CPreprocessor

namespace ParameterList

/-! ## The forms of a list -/

/-- Names with commas between them, and how they are spelled. -/
inductive AreNames : List Token → List Text → Prop where
  | one {token : Token} (isName : token.isName = true) : AreNames [token] [token.lexeme]
  | more {token comma : Token} {tokens : List Token} {names : List Text}
      (isName : token.isName = true) (isComma : comma.isPunctuator [','] = true)
      (others : AreNames tokens names) :
      AreNames (token :: comma :: tokens) (token.lexeme :: names)

/-- The tokens after the opening parenthesis are a parameter list with its closing parenthesis; with
the parameters and all the names that are written in the list. -/
inductive IsList : List Token → Parameters → List Text → Prop where
  | empty {close : Token} (closes : close.isClose = true) : IsList [close] {} []
  | names {tokens : List Token} {names : List Text} {close : Token}
      (areNames : AreNames tokens names) (closes : close.isClose = true) :
      IsList (tokens ++ [close]) ⟨names, none⟩ names
  | variadic {points close : Token} (ellipsis : isEllipsis points = true)
      (closes : close.isClose = true) : IsList [points, close] ⟨[], some variableArguments⟩ []
  | namesVariadic {tokens : List Token} {names : List Text} {comma points close : Token}
      (areNames : AreNames tokens names) (isComma : comma.isPunctuator [','] = true)
      (ellipsis : isEllipsis points = true) (closes : close.isClose = true) :
      IsList (tokens ++ [comma, points, close]) ⟨names, some variableArguments⟩ names
  | rest {token points close : Token} (isName : token.isName = true)
      (ellipsis : isEllipsis points = true) (closes : close.isClose = true) :
      IsList [token, points, close] ⟨[], some token.lexeme⟩ [token.lexeme]
  | namesRest {tokens : List Token} {names : List Text} {comma token points close : Token}
      (areNames : AreNames tokens names) (isComma : comma.isPunctuator [','] = true)
      (isName : token.isName = true) (ellipsis : isEllipsis points = true)
      (closes : close.isClose = true) :
      IsList (tokens ++ [comma, token, points, close]) ⟨names, some token.lexeme⟩
        (names ++ [token.lexeme])

/-- Tokens start with a parameter list that a definition may have, and go on with some others. -/
def Accepts (tokens : List Token) (p : Parameters) (rest : List Token) : Prop :=
  ∃ list names, tokens = list ++ rest ∧ IsList list p names ∧ p.named.Nodup ∧
    variableArguments ∉ names

/-- The lists that are not empty, in the order in which they are read. -/
inductive IsFilled : List Token → Parameters → List Text → Prop where
  | variadic {points close : Token} (ellipsis : isEllipsis points = true)
      (closes : close.isClose = true) : IsFilled [points, close] ⟨[], some variableArguments⟩ []
  | rest {token points close : Token} (isName : token.isName = true)
      (ellipsis : isEllipsis points = true) (closes : close.isClose = true) :
      IsFilled [token, points, close] ⟨[], some token.lexeme⟩ [token.lexeme]
  | last {token close : Token} (isName : token.isName = true) (closes : close.isClose = true) :
      IsFilled [token, close] ⟨[token.lexeme], none⟩ [token.lexeme]
  | more {token comma : Token} {tokens : List Token} {p : Parameters} {names : List Text}
      (isName : token.isName = true) (isComma : comma.isPunctuator [','] = true)
      (others : IsFilled tokens p names) :
      IsFilled (token :: comma :: tokens) ⟨token.lexeme :: p.named, p.variadic⟩
        (token.lexeme :: names)

variable {tokens list rest : List Token} {p : Parameters} {names named : List Text} {token : Token}

theorem IsFilled.isList (filled : IsFilled list p names) : IsList list p names := by
  induction filled with
  | variadic ellipsis closes => exact .variadic ellipsis closes
  | rest isName ellipsis closes => exact .rest isName ellipsis closes
  | last isName closes => exact .names (.one isName) closes
  | more isName isComma others ih =>
    cases ih with
    | empty closes => cases others
    | names areNames closes => exact .names (.more isName isComma areNames) closes
    | variadic ellipsis closes => exact .namesVariadic (.one isName) isComma ellipsis closes
    | namesVariadic areNames isComma' ellipsis closes =>
      exact .namesVariadic (.more isName isComma areNames) isComma' ellipsis closes
    | rest isName' ellipsis closes => exact .namesRest (.one isName) isComma isName' ellipsis closes
    | namesRest areNames isComma' isName' ellipsis closes =>
      exact .namesRest (.more isName isComma areNames) isComma' isName' ellipsis closes

theorem AreNames.isFilled (areNames : AreNames tokens names) {close : Token}
    (closes : close.isClose = true) : IsFilled (tokens ++ [close]) ⟨names, none⟩ names := by
  induction areNames with
  | one isName => exact .last isName closes
  | more isName isComma others ih => exact .more isName isComma ih

theorem AreNames.isFilled_append (areNames : AreNames tokens names) {comma : Token}
    (isComma : comma.isPunctuator [','] = true) {others : List Text}
    (filled : IsFilled list p others) :
    IsFilled (tokens ++ comma :: list) ⟨names ++ p.named, p.variadic⟩ (names ++ others) := by
  induction areNames with
  | one isName => exact .more isName isComma filled
  | more isName isComma' others ih => exact .more isName isComma' ih

theorem IsList.isFilled (isList : IsList list p names) :
    (∃ close : Token, close.isClose = true ∧ list = [close] ∧ p = {} ∧ names = []) ∨
      IsFilled list p names := by
  cases isList with
  | empty closes => exact .inl ⟨_, closes, rfl, rfl, rfl⟩
  | names areNames closes => exact .inr (areNames.isFilled closes)
  | variadic ellipsis closes => exact .inr (.variadic ellipsis closes)
  | namesVariadic areNames isComma ellipsis closes =>
    have filled := areNames.isFilled_append isComma (.variadic ellipsis closes)
    rw [List.append_nil] at filled
    exact .inr filled
  | rest isName ellipsis closes => exact .inr (.rest isName ellipsis closes)
  | namesRest areNames isComma isName ellipsis closes =>
    have filled := areNames.isFilled_append isComma (.rest isName ellipsis closes)
    rw [List.append_nil] at filled
    exact .inr filled

/-! ## Reading a list -/

theorem nameError?_eq_none_iff :
    nameError? token = none ↔ token.isName = true ∧ token.lexeme ≠ variableArguments := by
  unfold nameError?
  split
  · rename_i other
    simpa using fun isName => absurd isName (by simpa using other)
  · rename_i isName
    split
    · rename_i same
      simp [same]
    · rename_i differs
      simpa [differs] using isName

theorem readEnd_eq_ok_iff {q : Parameters} :
    readEnd p tokens = .ok (q, rest) ↔
      ∃ close : Token, close.isClose = true ∧ tokens = close :: rest ∧ q = p := by
  cases tokens with
  | nil => simp [readEnd, malformed]
  | cons close tokens =>
    rw [readEnd]
    split
    · rename_i closes
      simp [closes]
      exact and_comm.trans (and_congr_right fun _ => eq_comm)
    · rename_i other
      simp [malformed, other]

/-- A name that no parameter has yet is one more parameter, and a separator follows it. -/
theorem readFrom_of_fresh (isName : token.isName = true) (plain : token.lexeme ≠ variableArguments)
    (fresh : token.lexeme ∉ named) {separator : Token} (other : isEllipsis separator = false) :
    readFrom named (token :: separator :: rest) =
      if separator.isPunctuator [','] then readFrom (named ++ [token.lexeme]) rest
      else if separator.isClose then .ok (⟨named ++ [token.lexeme], none⟩, rest)
      else malformed separator "expected ',' or ')' in macro parameter list" := by
  have accepted := nameError?_eq_none_iff.mpr ⟨isName, plain⟩
  have unnamed : isEllipsis token = false := Token.isPunctuator_of_isName isName _
  have unused : named.contains token.lexeme = false := by simpa using fresh
  rw [readFrom, unnamed, accepted]
  simp only [List.head?_cons, Option.any_some, other, unused, Bool.false_eq_true, if_false]

theorem isEllipsis_of_isPunctuator {symbol : Text} (isSymbol : token.isPunctuator symbol = true)
    (differs : symbol ≠ ['.', '.', '.']) : isEllipsis token = false := by
  rw [isEllipsis, Token.isPunctuator_of_isPunctuator isSymbol]
  exact beq_false_of_ne differs

/-- A list that a definition may have is read, up to what stands after it. -/
theorem readFrom_of_isFilled (filled : IsFilled list p names) (distinct : (named ++ p.named).Nodup)
    (plain : variableArguments ∉ names) :
    readFrom named (list ++ rest) = .ok (⟨named ++ p.named, p.variadic⟩, rest) := by
  induction filled generalizing named with
  | @variadic points close ellipsis closes =>
    have read : readFrom named (points :: close :: rest) =
        readEnd ⟨named, some variableArguments⟩ (close :: rest) := by rw [readFrom, if_pos ellipsis]
    rw [List.append_nil]
    exact read.trans (readEnd_eq_ok_iff.mpr ⟨close, closes, rfl, rfl⟩)
  | @rest token points close isName ellipsis closes =>
    have accepted := nameError?_eq_none_iff.mpr ⟨isName, (plain <| · ▸ List.mem_singleton_self _)⟩
    have read : readFrom named (token :: points :: close :: rest) =
        readEnd ⟨named, some token.lexeme⟩ (close :: rest) := by
      have unnamed : isEllipsis token = false := Token.isPunctuator_of_isName isName _
      rw [readFrom, unnamed, accepted]
      simp only [List.head?_cons, Option.any_some, ellipsis, Bool.false_eq_true, if_false, if_true,
        List.drop_one, List.tail_cons]
    rw [List.append_nil]
    exact read.trans (readEnd_eq_ok_iff.mpr ⟨close, closes, rfl, rfl⟩)
  | @last token close isName closes =>
    have fresh : token.lexeme ∉ named := by grind
    have other := isEllipsis_of_isPunctuator closes (by decide)
    have separates : close.isPunctuator [','] = false := Token.isPunctuator_of_isPunctuator closes _
    have read : readFrom named (token :: close :: rest) = _ :=
      readFrom_of_fresh isName (plain <| · ▸ List.mem_singleton_self _) fresh other
    rw [separates, if_neg Bool.false_ne_true, if_pos closes] at read
    exact read
  | @more token comma tokens p names isName isComma others ih =>
    rw [List.mem_cons, not_or] at plain
    have fresh : token.lexeme ∉ named := by grind
    have other := isEllipsis_of_isPunctuator isComma (by decide)
    have read : readFrom named (token :: comma :: (tokens ++ rest)) = _ :=
      readFrom_of_fresh isName (Ne.symm plain.1) fresh other
    rw [List.append_cons] at distinct
    rw [if_pos isComma, ih distinct plain.2, ← List.append_cons] at read
    exact read

/-- What is read is a list that a definition may have. -/
theorem isFilled_of_readFrom {q : Parameters} (found : readFrom named tokens = .ok (q, rest))
    (distinct : named.Nodup) :
    ∃ list p names, tokens = list ++ rest ∧ IsFilled list p names ∧
      q = ⟨named ++ p.named, p.variadic⟩ ∧ (named ++ p.named).Nodup ∧
        variableArguments ∉ names := by
  fun_induction readFrom named tokens with
  | case1 named => cases found
  | case2 named points tokens ellipsis =>
    obtain ⟨close, closes, rfl, rfl⟩ := readEnd_eq_ok_iff.mp found
    refine ⟨[points, close], _, [], rfl, .variadic ellipsis closes, ?_, ?_, List.not_mem_nil⟩
    · rw [List.append_nil]
    · rwa [List.append_nil]
  | case3 named token tokens plain error refused => cases found
  | case4 named token tokens plain accepted ellipsis =>
    obtain ⟨isName, differs⟩ := nameError?_eq_none_iff.mp accepted
    obtain ⟨close, closes, split, rfl⟩ := readEnd_eq_ok_iff.mp found
    cases tokens with
    | nil => cases ellipsis
    | cons points tokens =>
      obtain rfl : tokens = close :: rest := split
      refine ⟨[token, points, close], _, _, rfl, .rest isName ellipsis closes, ?_, ?_, ?_⟩
      · rw [List.append_nil]
      · rwa [List.append_nil]
      · exact mt List.mem_singleton.mp differs.symm
  | case5 => cases found
  | case6 => cases found
  | case7 named token plain accepted fresh comma tokens isComma other ih =>
    obtain ⟨isName, differs⟩ := nameError?_eq_none_iff.mp accepted
    have distinct' : (named ++ [token.lexeme]).Nodup := by grind
    obtain ⟨list, p, names, rfl, filled, rfl, distinct, absent⟩ := ih found distinct'
    rw [← List.append_cons] at distinct ⊢
    refine ⟨token :: comma :: list, _, _, rfl, .more isName isComma filled, rfl, distinct, ?_⟩
    exact mt List.mem_cons.mp (not_or.mpr ⟨differs.symm, absent⟩)
  | case8 named token plain accepted fresh close tokens isComma closes other =>
    obtain ⟨isName, differs⟩ := nameError?_eq_none_iff.mp accepted
    cases found
    refine ⟨[token, close], _, _, rfl, .last isName closes, rfl, by grind, ?_⟩
    exact mt List.mem_singleton.mp differs.symm
  | case9 => cases found

/-- A list is read exactly if it has one of the forms of a list, no name in it is the one that is
kept for variable arguments, and the parameters before those differ from each other. -/
theorem read_eq_ok_iff : read tokens = .ok (p, rest) ↔ Accepts tokens p rest := by
  constructor
  · intro found
    have filled (found : readFrom [] tokens = .ok (p, rest)) : Accepts tokens p rest := by
      obtain ⟨list, p, names, split, filled, rfl, distinct, plain⟩ :=
        isFilled_of_readFrom found List.nodup_nil
      exact ⟨list, names, split, filled.isList, distinct, plain⟩
    cases tokens with
    | nil => exact filled found
    | cons close tokens =>
      rw [read] at found
      split at found
      · rename_i closes
        cases found
        exact ⟨[close], [], rfl, .empty closes, List.nodup_nil, List.not_mem_nil⟩
      · exact filled found
  · rintro ⟨list, names, rfl, isList, distinct, plain⟩
    obtain ⟨close, closes, rfl, rfl, rfl⟩ | filled := isList.isFilled
    · rw [List.cons_append, read, if_pos closes, List.nil_append]
    · have found : readFrom [] (list ++ rest) = .ok (p, rest) :=
        readFrom_of_isFilled filled distinct plain
      -- A list that is not empty does not start with the parenthesis that closes it.
      have starts : ∃ token tokens, list = token :: tokens ∧ token.isClose = false := by
        cases filled with
        | variadic ellipsis closes =>
          exact ⟨_, _, rfl, Token.isPunctuator_of_isPunctuator ellipsis _⟩
        | rest isName ellipsis closes => exact ⟨_, _, rfl, Token.isPunctuator_of_isName isName _⟩
        | last isName closes => exact ⟨_, _, rfl, Token.isPunctuator_of_isName isName _⟩
        | more isName isComma others => exact ⟨_, _, rfl, Token.isPunctuator_of_isName isName _⟩
      obtain ⟨token, tokens, rfl, other⟩ := starts
      rw [List.cons_append, read, other, if_neg Bool.false_ne_true]
      exact found

/-! ## Lists that are refused -/

/-- What can be wrong with a list is said about one of its tokens, or about no token. -/
structure Refuses (tokens : List Token) (error : DefinitionError) : Prop where
  site : ∀ token ∈ error.token, token ∈ tokens
  code : error.code = .invalidMacroParams ∨ error.code = .duplicateMacroParam

theorem Refuses.mono {error : DefinitionError} {others : List Token}
    (refuses : Refuses tokens error) (subset : tokens ⊆ others) : Refuses others error :=
  ⟨fun token member => subset (refuses.site token member), refuses.code⟩

theorem refuses_readEnd {error : DefinitionError} (found : readEnd p tokens = .error error) :
    Refuses tokens error := by
  cases tokens with
  | nil =>
    cases found
    exact ⟨by simp, .inl rfl⟩
  | cons token tokens =>
    rw [readEnd] at found
    split at found
    · cases found
    · cases found
      exact ⟨by simp, .inl rfl⟩

theorem refuses_nameError? {error : DefinitionError} (found : nameError? token = some error) :
    Refuses [token] error := by
  unfold nameError? at found
  split at found
  · cases found
    exact ⟨by simp, .inl rfl⟩
  · split at found
    · cases found
      exact ⟨by simp, .inl rfl⟩
    · cases found

theorem refuses_readFrom {error : DefinitionError} (found : readFrom named tokens = .error error) :
    Refuses tokens error := by
  fun_induction readFrom named tokens with
  | case1 named =>
    cases found
    exact ⟨by simp, .inl rfl⟩
  | case2 named points tokens ellipsis =>
    exact (refuses_readEnd found).mono (List.subset_cons_self _ _)
  | case3 named token tokens plain error refused =>
    cases found
    exact (refuses_nameError? refused).mono (by simp)
  | case4 named token tokens plain accepted ellipsis =>
    exact (refuses_readEnd found).mono
      (List.subset_cons_of_subset _ (List.drop_subset 1 tokens))
  | case5 =>
    cases found
    exact ⟨by simp, .inr rfl⟩
  | case6 =>
    cases found
    exact ⟨by simp, .inl rfl⟩
  | case7 named token plain accepted fresh comma tokens isComma other ih =>
    exact (ih found).mono (List.subset_cons_of_subset _ (List.subset_cons_self _ _))
  | case8 => cases found
  | case9 =>
    cases found
    exact ⟨by simp, .inl rfl⟩

theorem refuses_read {error : DefinitionError} (found : read tokens = .error error) :
    Refuses tokens error := by
  cases tokens with
  | nil =>
    have found : readFrom [] [] = .error error := found
    exact refuses_readFrom found
  | cons token tokens =>
    rw [read] at found
    split at found
    · cases found
    · exact refuses_readFrom found

end ParameterList

namespace Directive

/-- A definition with a parameter list is read on exactly if the list is one that a definition may
have; with any other list it is given up with one report, and no macro changes. -/
theorem define_parameters (d : Directive) (s : Session) {name opening : Token} {tokens : List Token}
    (args : d.args = name :: opening :: tokens) (isName : name.isName = true)
    (free : name.lexeme ≠ "defined".toList) (opens : opening.isOpen = true)
    (adjacent : opening.afterSpace = false) :
    (∀ p rest, ParameterList.read tokens = .ok (p, rest) ↔ ParameterList.Accepts tokens p rest) ∧
      (∀ p rest, ParameterList.Accepts tokens p rest →
        ReplacementList.error? name.lexeme (some p) rest = none →
          (d.define s).macros = (s.macros.define
            { name := name.lexeme, replacement := .function p rest, definedAt := some name }).2) ∧
      ((∀ p rest, ¬ParameterList.Accepts tokens p rest) →
        (d.define s).macros = s.macros ∧
          ∃ site ∈ opening :: tokens, ∃ code detail,
            (code = .invalidMacroParams ∨ code = .duplicateMacroParam) ∧
              d.define s = (s.reportSpellings d.args).report site code detail) := by
  have found : d.macroName? s = (some name, s) := by
    simp only [macroName?, args, isName, Bool.not_true, Bool.false_eq_true, if_false, if_neg free]
  have opened : (opening.isOpen && !opening.afterSpace) = true := by rw [opens, adjacent]; rfl
  refine ⟨fun p rest => ParameterList.read_eq_ok_iff, ?_, ?_⟩
  · intro p rest accepted sound
    have read : readDefinition name (d.args.drop 1) = .ok
        { name := name.lexeme, replacement := .function p rest, definedAt := some name } := by
      rw [args, List.drop_one, List.tail_cons]
      simp only [readDefinition, opened, if_true, ParameterList.read_eq_ok_iff.mpr accepted, sound]
    rw [← s.macros_reportSpellings d.args, define, found]
    simp only [read]
    split
    · rfl
    · rfl
  · intro refused
    obtain ⟨error, wrong⟩ : ∃ error, ParameterList.read tokens = .error error := by
      cases read : ParameterList.read tokens with
      | error error => exact ⟨error, rfl⟩
      | ok found => exact absurd (ParameterList.read_eq_ok_iff.mp read) (refused found.1 found.2)
    have refuses := ParameterList.refuses_read wrong
    have read : readDefinition name (d.args.drop 1) =
        .error { error with token := error.token <|> some opening } := by
      rw [args, List.drop_one, List.tail_cons]
      simp only [readDefinition, opened, if_true, wrong]
    have reported : d.define s = (s.reportSpellings d.args).report (error.token.getD opening)
        error.code error.detail := by
      rw [define, found]
      simp only [read]
      cases error.token with
      | none => rfl
      | some token => rfl
    have site : error.token.getD opening ∈ opening :: tokens := by
      cases token : error.token with
      | none => exact List.mem_cons_self
      | some token' => exact List.mem_cons_of_mem _ (refuses.site token' token)
    refine ⟨?_, _, site, _, _, refuses.code, reported⟩
    rw [reported, Session.macros_report, Session.macros_reportSpellings]

/-- In `#define F(a, a...) a` the variable arguments have the name of the first parameter, and the
macro is defined. -/
theorem define_parameters_repeated :
    let symbol (lexeme : Text) : Token := { kind := .punctuator, lexeme }
    let a : Token := { kind := .identifier, lexeme := ['a'] }
    let f : Token := { kind := .identifier, lexeme := ['F'] }
    let list := [a, symbol [','], a, symbol ['.', '.', '.'], symbol [')']]
    let d : Directive := ⟨symbol ['#'], none, f :: symbol ['('] :: (list ++ [a])⟩
    let s : Session := ⟨{}, {}, ⟨[], { capacity := 1, capacity_pos := Nat.one_pos }⟩, {}⟩
    ParameterList.Accepts (list ++ [a]) ⟨[['a']], some ['a']⟩ [a] ∧
      (d.define s).macros.find? ['F'] =
        some ⟨['F'], .function ⟨[['a']], some ['a']⟩ [a], some f⟩ := by
  intro symbol a f list d s
  have accepted : ParameterList.Accepts (list ++ [a]) ⟨[['a']], some ['a']⟩ [a] :=
    ⟨list, [['a'], ['a']], rfl, .namesRest (.one rfl) rfl rfl rfl rfl, by decide, by decide⟩
  have defined := (define_parameters d s rfl rfl (by decide) rfl rfl).2.1 _ _ accepted rfl
  refine ⟨accepted, ?_⟩
  rw [defined]
  rfl

end Directive

end CPreprocessor
