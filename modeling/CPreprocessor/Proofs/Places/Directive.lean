/-
# Directives and places

Under a view that shows white space and what the macros ask for, a directive does the same
in sessions that show the same: one lemma for each kind of directive, put together in
`Directive.execute_seen`. The `#` and the name of the directive are shown by reports only.
-/
import CPreprocessor.Directive.Execute
import CPreprocessor.Proofs.Places.Session

namespace CPreprocessor

variable {v : View}

/-- The action as it is seen. -/
def Action.seen (v : View) : Action → Action
  | .nothing => .nothing
  | .enter header site => .enter header (site.seen v.marks)
  | .present line name => .present line name
  | .pass => .pass
  | .once => .once

/-- The error as it is seen. -/
def DefinitionError.seen (v : View) (error : DefinitionError) : DefinitionError :=
  { error with token := error.token.map (Token.seen v) }

/-- The directive as it is shown to a session: of its `#` and its name only what reports show. -/
def Directive.shown (v : View) (d : Directive) : Directive where
  hash := d.hash.seen v.marks
  name := d.name.map (Token.seen v.marks)
  args := d.args.map (Token.seen v)

/-! ## Definitions -/

namespace ParameterList

variable (v)

/-- What is seen of a parameter list and of the tokens after it. -/
def seenResult (result : Except DefinitionError (Parameters × List Token)) :
    Except DefinitionError (Parameters × List Token) :=
  (result.map fun (p, rest) => (p, rest.map (Token.seen v))).mapError (DefinitionError.seen v)

theorem readEnd_seen (p : Parameters) (tokens : List Token) :
    readEnd p (tokens.map (Token.seen v)) = seenResult v (readEnd p tokens) := by
  cases tokens with
  | nil => rfl
  | cons token rest =>
    simp only [List.map_cons, readEnd, Token.isClose_seen]
    split <;> rfl

theorem isEllipsis_seen (token : Token) : isEllipsis (token.seen v) = isEllipsis token := (rfl)

theorem nameError?_seen (token : Token) :
    nameError? (token.seen v) = (nameError? token).map (DefinitionError.seen v) := by
  simp only [nameError?, Token.isName_seen, Token.lexeme_seen]
  split_ifs <;> rfl

theorem readFrom_seen (named : List Text) (tokens : List Token) :
    readFrom named (tokens.map (Token.seen v)) = seenResult v (readFrom named tokens) := by
  induction size : tokens.length using Nat.strongRecOn generalizing named tokens with
  | ind size ih =>
    cases tokens with
    | nil => rfl
    | cons token rest =>
      have follows : (rest.map (Token.seen v)).head?.any isEllipsis = rest.head?.any isEllipsis := by
        cases rest <;> rfl
      rw [List.map_cons, readFrom.eq_def, readFrom.eq_def named (token :: rest)]
      simp only [isEllipsis_seen, readEnd_seen, nameError?_seen, follows, Token.lexeme_seen]
      split
      · rfl
      · cases nameError? token with
        | some error => rfl
        | none =>
          simp only [Option.map_none]
          split
          · rw [← List.map_drop, readEnd_seen]
          · split
            · rfl
            · cases rest with
              | nil => rfl
              | cons separator rest =>
                simp only [List.map_cons, Token.isPunctuator_seen, Token.isClose_seen]
                split
                · exact ih rest.length (by simp only [List.length_cons] at size; omega) _ rest rfl
                · split <;> rfl

theorem read_seen (tokens : List Token) :
    read (tokens.map (Token.seen v)) = seenResult v (read tokens) := by
  cases tokens with
  | nil => rfl
  | cons token rest =>
    have from_ := readFrom_seen v [] (token :: rest)
    simp only [List.map_cons] at from_
    simp only [List.map_cons, read, Token.isClose_seen, from_]
    split <;> rfl

end ParameterList

theorem ReplacementList.error?_seen (v : View) (name : Text) (parameters : Option Parameters)
    (body : List Token) :
    error? name parameters (body.map (Token.seen v))
      = (error? name parameters body).map (DefinitionError.seen v) := by
  have bad (p : Parameters) (body : List Token) :
      badHash? p (body.map (Token.seen v)) = (badHash? p body).map (Token.seen v) := by
    induction body with
    | nil => rfl
    | cons token rest ih =>
      have operand : ((rest.map (Token.seen v)).head?.any fun next =>
            (p.indexOf? next).isSome || p.isOptional next)
          = rest.head?.any fun next => (p.indexOf? next).isSome || p.isOptional next := by
        cases rest <;> rfl
      simp only [List.map_cons, badHash?, Token.isHash_seen, operand, ih]
      split <;> rfl
  have paste (token : Option Token) : (token.map (Token.seen v)).filter Token.isPaste
      = (token.filter Token.isPaste).map (Token.seen v) := by
    cases token with
    | none => rfl
    | some token => simp only [Option.map_some, Option.filter_some, Token.isPaste_seen]; split <;> rfl
  simp only [error?, List.head?_map, List.getLast?_map, paste]
  cases body.head?.filter Token.isPaste with
  | some first => rfl
  | none =>
    cases body.getLast?.filter Token.isPaste with
    | some last => rfl
    | none =>
      cases parameters with
      | none => rfl
      | some p =>
        simp only [Option.bind_some, bad]
        cases badHash? p body <;> rfl

/-! ## Line numbers -/

namespace LineArguments

/-- The errors are reported alike, if they are compared. -/
def SameError (v : View) (e e' : LineError) : Prop :=
  v.reports = true → e.token.seen v = e'.token.seen v ∧ e.detail = e'.detail

/-- Arguments give the same line and the same name, or errors that are reported alike. -/
def SameResult {α : Type} (v : View) : Except LineError α → Except LineError α → Prop
  | .ok found, .ok found' => found = found'
  | .error e, .error e' => SameError v e e'
  | _, _ => False

variable {v : View} {token token' : Token}

theorem sameResult_readNumber (looks : token.seen v = token'.seen v) (sofar : Nat) (digits : Text) :
    SameResult v (readNumber token sofar digits) (readNumber token' sofar digits) := by
  have lexeme : token.lexeme = token'.lexeme := Token.congr_seen Token.lexeme (fun _ => rfl) looks
  induction digits generalizing sofar with
  | nil => rfl
  | cons c rest ih =>
    simp only [readNumber, lexeme]
    split
    · exact fun _ => ⟨looks, rfl⟩
    · split
      · exact fun _ => ⟨looks, rfl⟩
      · exact ih _

theorem sameResult_readName (looks : token.seen v = token'.seen v) :
    SameResult v (readName token) (readName token') := by
  have lexeme : token.lexeme = token'.lexeme := Token.congr_seen Token.lexeme (fun _ => rfl) looks
  have kind : token.kind = token'.kind := Token.congr_seen Token.kind (fun _ => rfl) looks
  simp only [readName, lexeme, kind]
  split
  · rfl
  · exact fun _ => ⟨looks, rfl⟩

/-- Arguments that look alike are read alike. -/
theorem sameResult_read {name name' : Token} (names : name.seen v = name'.seen v)
    {tokens tokens' : List Token} (looks : tokens.map (Token.seen v) = tokens'.map (Token.seen v))
    (join : v.reports = true → Spelling.join tokens = Spelling.join tokens') :
    SameResult v (read name tokens) (read name' tokens') := by
  cases tokens with
  | nil =>
    cases tokens' with
    | nil => exact fun _ => ⟨names, rfl⟩
    | cons _ _ => cases looks
  | cons first rest =>
    cases tokens' with
    | nil => cases looks
    | cons first' rest' =>
      rw [List.map_cons, List.map_cons, List.cons.injEq] at looks
      have lexeme : first.lexeme = first'.lexeme :=
        Token.congr_seen Token.lexeme (fun _ => rfl) looks.1
      have kind : first.kind = first'.kind := Token.congr_seen Token.kind (fun _ => rfl) looks.1
      have number := sameResult_readNumber looks.1 0 first'.lexeme
      simp only [read, lexeme, kind]
      split
      · exact fun compared => ⟨looks.1, join compared⟩
      · cases one : readNumber first 0 first'.lexeme <;>
        cases two : readNumber first' 0 first'.lexeme <;> rw [one, two] at number
        case error.error => exact number
        case error.ok => exact number.elim
        case ok.error => exact number.elim
        case ok.ok line line' =>
          obtain rfl : line = line' := number
          cases rest with
          | nil =>
            cases rest' with
            | nil => rfl
            | cons _ _ => cases looks.2
          | cons file more =>
            cases rest' with
            | nil => cases looks.2
            | cons file' more' =>
              rw [List.map_cons, List.map_cons, List.cons.injEq] at looks
              have shown := sameResult_readName looks.2.1
              simp only []
              cases three : readName file <;> cases four : readName file' <;>
                rw [three, four] at shown
              case error.error => exact shown
              case error.ok => exact shown.elim
              case ok.error => exact shown.elim
              case ok.ok => exact congrArg (fun shown => (line, some shown)) shown

end LineArguments

/-- A token is reported as it is shown. -/
theorem Session.Shows.report_shown {s t : Session} (shows : Session.Shows v s t) (token : Token)
    (code : Code) (detail : Text) :
    Session.Shows v (s.report token code detail) (t.report (token.seen v.marks) code detail) :=
  shows.report_marks (fun _ => ⟨(token.seen_seen _).symm, rfl⟩) code

theorem Session.Shows.report_failure {s t : Session} (shows : Session.Shows v s t) (token : Token)
    (failure : Failure) :
    Session.Shows v (s.report (failure.token.getD token) failure.code failure.detail)
      (t.report ((failure.seen v).token.getD (token.seen v.marks)) (failure.seen v).code
        (failure.seen v).detail) := by
  obtain ⟨code, given, detail⟩ := failure
  cases given with
  | none => exact shows.report_shown token code detail
  | some given => exact shows.report given code detail

namespace Directive

variable {s t : Session} (setup : Setup) (place : Place) (d : Directive)

/-- The second result is what is seen of the first one. -/
def ShowsResult (v : View) (a b : Action × Session) : Prop :=
  b.1 = a.1.seen v ∧ Session.Shows v a.2 b.2

/-- The directive goes on with a conditional of the present file or closes one, if it does so at all, or
the view shows whose conditionals are open. -/
def OwnsTop (v : View) (place : Place) (s : Session) (d : Directive) : Prop :=
  v.level = true ∨ d.kind.opens = true ∨ d.kind.isConditional = false
    ∨ ∀ frame, s.conditions.top? = some frame → frame.includeDepth = place.includeDepth

variable {place d} in
/-- The view shows whose the conditional is that the directive goes on with or closes, or it is one of the
present file. -/
theorem OwnsTop.level_or_own (owns : d.OwnsTop v place s) (goesOn : d.kind.opens = false)
    (conditional : d.kind.isConditional = true) :
    v.level = true
      ∨ ∀ frame, s.conditions.top? = some frame → frame.includeDepth = place.includeDepth := by
  obtain level | opens | other | owns := owns
  · exact .inl level
  · rw [goesOn] at opens
    cases opens
  · rw [conditional] at other
    cases other
  · exact .inr owns

theorem kind_shown : (d.shown v).kind = d.kind := by
  unfold kind shown
  cases d.name <;> rfl

theorem args_shown : (d.shown v).args = d.args.map (Token.seen v) := rfl

theorem hash_shown : (d.shown v).hash = d.hash.seen v.marks := rfl

theorem nameToken_shown : (d.shown v).nameToken = d.nameToken.seen v.marks := by
  obtain ⟨hash, name, args⟩ := d
  cases name <;> rfl

theorem title_shown : (d.shown v).title = d.title := by
  rw [title, nameToken_shown, Token.lexeme_seen]
  rfl

theorem reportExtra_seen (used : Nat) (shows : Session.Shows v s t) :
    Session.Shows v (d.reportExtra used s) ((d.shown v).reportExtra used t) := by
  simp only [reportExtra, args_shown, title_shown, ← List.map_drop]
  cases d.args.drop used with
  | nil => exact shows
  | cons token rest => exact shows.report token _ _

theorem macroName?_seen (shows : Session.Shows v s t) :
    ((d.shown v).macroName? t).1 = (d.macroName? s).1.map (Token.seen v)
      ∧ Session.Shows v (d.macroName? s).2 ((d.shown v).macroName? t).2 := by
  simp only [macroName?, args_shown, title_shown, nameToken_shown]
  cases d.args with
  | nil => exact ⟨rfl, shows.report_shown _ _ _⟩
  | cons token rest =>
    simp only [List.map_cons, Token.isName_seen, Token.lexeme_seen]
    split
    · exact ⟨rfl, shows.report token _ _⟩
    · split
      · exact ⟨rfl, shows.report token _ _⟩
      · exact ⟨rfl, shows⟩

theorem undef_seen (shows : Session.Shows v s t) :
    Session.Shows v (d.undef s) ((d.shown v).undef t) := by
  have named := macroName?_seen d shows
  simp only [undef]
  generalize d.macroName? s = one at named ⊢
  generalize (d.shown v).macroName? t = two at named ⊢
  obtain ⟨name, s'⟩ := one
  obtain ⟨name', t'⟩ := two
  simp only [] at named
  obtain ⟨rfl, shows'⟩ := named
  cases name with
  | none => exact shows'
  | some name =>
    have spelled := shows'.reportSpellings d.args
    refine reportExtra_seen d 1 ?_
    simp only [args_shown, Token.lexeme_seen, spelled.macros, MacroTable.erase_seen]
    exact spelled.withMacros _

variable (spaces : v.space = true)
include spaces

theorem readDefinition_seen (name : Token) (tokens : List Token) :
    readDefinition (name.seen v) (tokens.map (Token.seen v))
      = ((readDefinition name tokens).map (Macro.seen v)).mapError (DefinitionError.seen v) := by
  cases tokens with
  | nil =>
    simp only [List.map_nil, readDefinition, Token.lexeme_seen]
    rfl
  | cons opening rest =>
    have whole := ReplacementList.error?_seen v name.lexeme none (opening :: rest)
    simp only [List.map_cons] at whole
    simp only [List.map_cons, readDefinition, Token.isOpen_seen, Token.lexeme_seen,
      Substitution.afterSpace_seen spaces, ParameterList.read_seen, whole]
    split
    · cases ParameterList.read rest with
      | error error =>
        obtain ⟨code, token, detail⟩ := error
        cases token <;> rfl
      | ok result =>
        obtain ⟨p, body⟩ := result
        simp only [ParameterList.seenResult, Except.map, Except.mapError,
          ReplacementList.error?_seen]
        cases ReplacementList.error? name.lexeme (some p) body <;> rfl
    · cases ReplacementList.error? name.lexeme none (opening :: rest) <;> rfl

theorem define_seen (shows : Session.Shows v s t) :
    Session.Shows v (d.define s) ((d.shown v).define t) := by
  have named := macroName?_seen d shows
  simp only [define]
  generalize d.macroName? s = one at named ⊢
  generalize (d.shown v).macroName? t = two at named ⊢
  obtain ⟨name, s'⟩ := one
  obtain ⟨name', t'⟩ := two
  simp only [] at named
  obtain ⟨rfl, shows'⟩ := named
  cases name with
  | none => exact shows'
  | some name =>
    have spelled := shows'.reportSpellings d.args
    simp only [Option.map_some, args_shown, ← List.map_drop, readDefinition_seen spaces,
      Token.lexeme_seen]
    cases readDefinition name (d.args.drop 1) with
    | error error =>
      obtain ⟨code, token, detail⟩ := error
      cases token with
      | none => exact spelled.report name _ _
      | some token => exact spelled.report token _ _
    | ok m =>
      simp only [Except.map, Except.mapError, spelled.macros, MacroTable.define_seen _ spaces]
      have changed := spelled.withMacros ((s'.reportSpellings d.args).macros.define m).2
      split
      · exact changed.report name _ _
      · exact changed

/-! ## Conditions -/

theorem expressionHolds_seen (shows : Session.Shows v s t) (clear : s.macros.IsClear v)
    (speaks : v.Speaks d.args)
    (finds : v.Finds setup place ∨ (d.expressionHolds setup place s).2.lookups = s.lookups
      ∨ ((d.shown v).expressionHolds setup (place.seen v) t).2.lookups = t.lookups) :
    ((d.shown v).expressionHolds setup (place.seen v) t).1 = (d.expressionHolds setup place s).1
      ∧ Session.Shows v (d.expressionHolds setup place s).2
          ((d.shown v).expressionHolds setup (place.seen v) t).2
      ∧ Session.SameLookups s (d.expressionHolds setup place s).2 t
          ((d.shown v).expressionHolds setup (place.seen v) t).2 := by
  -- If the count is the same in the end, it is the same after each of the two rounds of questions.
  have here := finds.imp_right
    (Or.imp d.lookups_answerAll_of_expressionHolds (d.shown v).lookups_answerAll_of_expressionHolds)
  have spelled : Session.SameLookups s (s.reportSpellings d.args) t
      (t.reportSpellings (d.args.map (Token.seen v))) :=
    .of_eq (s.lookups_reportSpellings _) (t.lookups_reportSpellings _)
  have macros : (s.reportSpellings d.args).macros = s.macros := s.macros_reportSpellings d.args
  have kept := (Query.macros_answerAll setup place d.args (s.reportSpellings d.args)).trans macros
  have known {tokens : List Token} (done : (Query.answerAll setup place d.args
      (s.reportSpellings d.args)).1 = .ok tokens) : v.Speaks tokens := Query.speaks_answerAll speaks done
  have first := Query.answerAll_seen spaces setup place (shows.reportSpellings d.args)
    (macros ▸ clear) speaks here
  rw [lookups_expressionHolds, lookups_expressionHolds] at finds
  simp only [args_shown] at finds here
  simp only [expressionHolds, args_shown, nameToken_shown]
  generalize Query.answerAll setup place d.args (s.reportSpellings d.args) = one
    at first here kept known finds ⊢
  generalize Query.answerAll setup (place.seen v) (d.args.map (Token.seen v))
    (t.reportSpellings (d.args.map (Token.seen v))) = two at first here finds ⊢
  obtain ⟨answered, s'⟩ := one
  obtain ⟨answered', t'⟩ := two
  simp only [] at first kept known here
  obtain ⟨rfl, shows', counted⟩ := first
  cases answered with
  | error failure => exact ⟨rfl, shows'.report_failure d.nameToken failure, spelled.trans counted⟩
  | ok tokens =>
    have clear' : s'.macros.IsClear v := kept.symm ▸ clear
    have table : (s'.context setup place).table.IsClear v := clear'
    have expanded := Expansion.expandCondition_seen table (known rfl) shows'.expansion
    have words := table.preserves.expandCondition (known rfl) s'.expansion
    simp only [Except.map, Except.mapError, shows'.context] at finds ⊢
    generalize Expansion.expandCondition (s'.context setup place) tokens s'.expansion = one
      at expanded words finds ⊢
    generalize Expansion.expandCondition ((s'.context setup place).seen v)
      (tokens.map (Token.seen v)) t'.expansion = two at expanded finds ⊢
    obtain ⟨operands, x⟩ := one
    obtain ⟨operands', x'⟩ := two
    obtain ⟨same, state⟩ := expanded
    simp only [] at same state
    subst same
    have counted' : Session.SameLookups (s.reportSpellings d.args) { s' with expansion := x }
        (t.reportSpellings (d.args.map (Token.seen v))) { t' with expansion := x' } := counted
    have later := counted'.rest (finds.imp_right (Or.imp
      (·.trans (s.lookups_reportSpellings _).symm) (·.trans (t.lookups_reportSpellings _).symm))) here
    have second := Query.answerAll_seen spaces setup place (shows'.withExpansion state)
      clear' words later
    simp only []
    generalize Query.answerAll setup place operands { s' with expansion := x } = one at second ⊢
    generalize Query.answerAll setup (place.seen v) (operands.map (Token.seen v))
      { t' with expansion := x' } = two at second ⊢
    obtain ⟨answered, s''⟩ := one
    obtain ⟨answered', t''⟩ := two
    simp only [] at second
    obtain ⟨rfl, shows'', counted''⟩ := second
    have all := spelled.trans (counted'.trans counted'')
    cases answered with
    | error failure => exact ⟨rfl, shows''.report_failure d.nameToken failure, all⟩
    | ok operands =>
      have value := evaluateCondition_seen v operands
        (fun _ => (d.nameToken.seen_seen v.marks).symm) shows''.expansion
      simp only [Except.map, Except.mapError]
      exact ⟨congrArg (Option.any Value.isTrue) value.1, shows''.withExpansion value.2, all⟩

omit spaces in
theorem nameHolds_seen (wanted : Bool) (shows : Session.Shows v s t) :
    ((d.shown v).nameHolds wanted t).1 = (d.nameHolds wanted s).1
      ∧ Session.Shows v (d.nameHolds wanted s).2 ((d.shown v).nameHolds wanted t).2 := by
  have named := macroName?_seen d shows
  simp only [nameHolds]
  generalize d.macroName? s = one at named ⊢
  generalize (d.shown v).macroName? t = two at named ⊢
  obtain ⟨name, s'⟩ := one
  obtain ⟨name', t'⟩ := two
  simp only [] at named
  obtain ⟨rfl, shows'⟩ := named
  cases name with
  | none => exact ⟨rfl, shows'⟩
  | some name =>
    refine ⟨?_, reportExtra_seen d 1 shows'⟩
    simp only [Option.map_some, Query.isDefined, shows'.macros, MacroTable.isDefined_seen,
      Token.lexeme_seen]

theorem holds_seen (shows : Session.Shows v s t) (clear : s.macros.IsClear v)
    (speaks : v.Speaks d.args)
    (finds : v.Finds setup place ∨ (d.holds setup place s).2.lookups = s.lookups
      ∨ ((d.shown v).holds setup (place.seen v) t).2.lookups = t.lookups) :
    ((d.shown v).holds setup (place.seen v) t).1 = (d.holds setup place s).1
      ∧ Session.Shows v (d.holds setup place s).2 ((d.shown v).holds setup (place.seen v) t).2
      ∧ Session.SameLookups s (d.holds setup place s).2 t
          ((d.shown v).holds setup (place.seen v) t).2 := by
  have named (wanted : Bool) :
      ((d.shown v).nameHolds wanted t).1 = (d.nameHolds wanted s).1
        ∧ Session.Shows v (d.nameHolds wanted s).2 ((d.shown v).nameHolds wanted t).2
        ∧ Session.SameLookups s (d.nameHolds wanted s).2 t ((d.shown v).nameHolds wanted t).2 := by
    have held := nameHolds_seen d wanted shows
    exact ⟨held.1, held.2,
      .of_eq (d.lookups_nameHolds s wanted) ((d.shown v).lookups_nameHolds t wanted)⟩
  simp only [holds, kind_shown] at finds ⊢
  cases kind : d.kind
  case ifdef | elifdef => exact named true
  case ifndef | elifndef => exact named false
  all_goals
    simp only [kind] at finds
    exact expressionHolds_seen setup place d spaces shows clear speaks finds

omit spaces in
/-- The conditional that the present file has open is the same where it matters. -/
theorem present?_seen (shows : Session.Shows v s t)
    (owns : v.level = true
      ∨ ∀ frame, s.conditions.top? = some frame → frame.includeDepth = place.includeDepth) :
    present? (place.seen v) t = (present? place s).map (ConditionFrame.seen v) := by
  simp only [present?, shows.conditions, ConditionStack.top?_seen, Place.includeDepth_seen]
  cases top : s.conditions.top? with
  | none => rfl
  | some frame =>
    simp only [Option.map_some, Option.filter_some, ConditionFrame.includeDepth_seen]
    obtain level | owns := owns
    · simp only [View.depthOf, level, if_true]
      split <;> rfl
    · simp only [owns frame top, decide_true, if_true, Option.map_some]

omit spaces in
/-- Another branch is entered in the same way. -/
theorem enterBranch_seen (shows : Session.Shows v s t)
    (owns : v.level = true
      ∨ ∀ frame, s.conditions.top? = some frame → frame.includeDepth = place.includeDepth)
    {enter enter' : ConditionFrame → Session}
    (entered : ∀ frame, Session.Shows v (enter frame) (enter' (frame.seen v))) :
    Session.Shows v (d.enterBranch place s enter)
      ((d.shown v).enterBranch (place.seen v) t enter') := by
  simp only [enterBranch, present?_seen place shows owns, title_shown]
  cases present? place s with
  | none => exact shows.report_shown d.hash _ _
  | some frame =>
    simp only [Option.map_some, ConditionFrame.branch_seen]
    split
    · have reported := shows.report_shown d.hash .elseAfterElse d.title
      have skipped := reported.withConditions
        (s.report d.hash .elseAfterElse d.title).conditions.skipRest
      rw [← ConditionStack.skipRest_seen, ← reported.conditions] at skipped
      exact skipped
    · exact entered frame

omit spaces in
theorem reportAnyToken_seen (frame : ConditionFrame) (shows : Session.Shows v s t) :
    Session.Shows v (d.reportAnyToken frame s) ((d.shown v).reportAnyToken (frame.seen v) t) := by
  simp only [reportAnyToken, ConditionFrame.parentLive_seen]
  split
  · exact reportExtra_seen d 0 shows
  · exact shows

omit spaces in
/-- A conditional directive whose condition is known turns to the same branch. -/
theorem turn_seen (shows : Session.Shows v s t) (owns : d.OwnsTop v place s) (condition : Bool) :
    Session.Shows v (d.turn place s condition)
      ((d.shown v).turn (place.seen v) t condition) := by
  have further (goesOn : d.kind.opens = false) (conditional : d.kind.isConditional = true) :
      Session.Shows v
        (d.enterBranch place s fun _ => { s with conditions := s.conditions.enterFurther condition })
        ((d.shown v).enterBranch (place.seen v) t fun _ =>
          { t with conditions := t.conditions.enterFurther condition }) := by
    refine enterBranch_seen place d shows (owns.level_or_own goesOn conditional) fun _ => ?_
    rw [shows.conditions, ConditionStack.enterFurther_seen]
    exact shows.withConditions _
  have opened : Session.Shows v
      { s with conditions := s.conditions.push d.hash condition place.includeDepth }
      { t with
        conditions := t.conditions.push (d.shown v).hash condition (place.seen v).includeDepth } := by
    rw [shows.conditions, Place.includeDepth_seen, hash_shown, ConditionStack.push_seen]
    exact shows.withConditions _
  simp only [turn, kind_shown]
  cases kind : d.kind
  case ifExpression | ifdef | ifndef => exact opened
  case elif | elifdef | elifndef => exact further (by rw [kind]; rfl) (by rw [kind]; rfl)
  case elseBranch =>
    refine enterBranch_seen place d shows
      (owns.level_or_own (by rw [kind]; rfl) (by rw [kind]; rfl)) fun frame => ?_
    have reported := reportAnyToken_seen d frame shows
    have entered := reported.withConditions (d.reportAnyToken frame s).conditions.enterLast
    rw [← ConditionStack.enterLast_seen, ← reported.conditions] at entered
    exact entered
  case endif =>
    simp only [closeCondition,
      present?_seen place shows (owns.level_or_own (by rw [kind]; rfl) (by rw [kind]; rfl))]
    cases present? place s with
    | none => exact shows.report_shown d.hash _ _
    | some frame =>
      have reported := reportAnyToken_seen d frame shows
      have closed := reported.withConditions (d.reportAnyToken frame s).conditions.pop
      rw [← ConditionStack.pop_seen, ← reported.conditions] at closed
      exact closed
  all_goals exact shows

omit spaces in
theorem asks_seen (shows : Session.Shows v s t) (owns : d.OwnsTop v place s) :
    (d.shown v).asks (place.seen v) t = d.asks place s := by
  have further (goesOn : d.kind.opens = false) (conditional : d.kind.isConditional = true) :
      ((present? (place.seen v) t).any fun frame => frame.branch ≠ .last)
        = (present? place s).any fun frame => frame.branch ≠ .last := by
    rw [present?_seen place shows (owns.level_or_own goesOn conditional)]
    cases present? place s <;> rfl
  simp only [asks, kind_shown, shows.conditions, ConditionStack.isLive_seen,
    ConditionStack.needsCondition_seen]
  cases kind : d.kind
  case elif | elifdef | elifndef =>
    simp only [further (by rw [kind]; rfl) (by rw [kind]; rfl)]
  all_goals rfl

/-! ## Other directives -/

theorem includeHeader_seen (shows : Session.Shows v s t) (clear : s.macros.IsClear v)
    (speaks : v.Speaks d.args)
    (finds : v.Finds setup place ∨ (d.includeHeader setup place s).2.lookups = s.lookups
      ∨ ((d.shown v).includeHeader setup (place.seen v) t).2.lookups = t.lookups) :
    ShowsResult v (d.includeHeader setup place s)
        ((d.shown v).includeHeader setup (place.seen v) t)
      ∧ Session.SameLookups s (d.includeHeader setup place s).2 t
          ((d.shown v).includeHeader setup (place.seen v) t).2 := by
  have read := shows.readHeaderName spaces clear setup place speaks
  refine and_comm.mp ⟨?_, ?_⟩
  · unfold Session.SameLookups
    rw [lookups_includeHeader, lookups_includeHeader, args_shown, read.1]
    cases d.args with
    | nil => exact Nat.add_comm _ _
    | cons first rest =>
      cases (s.readHeaderName setup place (first :: rest)).1 <;>
        (simp only [List.map_cons]; omega)
  rw [lookups_includeHeader, lookups_includeHeader, args_shown] at finds
  simp only [includeHeader, args_shown, title_shown, nameToken_shown, kind_shown]
  cases given : d.args with
  | nil => exact ⟨rfl, shows.report_shown d.nameToken _ _⟩
  | cons first rest =>
    have joined := Spelling.join_seen spaces (first :: rest)
    simp only [List.map_cons] at joined
    simp only [given, List.map_cons] at read finds
    simp only [List.map_cons, joined]
    generalize s.readHeaderName setup place (first :: rest) = one at read finds ⊢
    generalize t.readHeaderName setup (place.seen v) (first.seen v :: rest.map (Token.seen v)) = two
      at read finds ⊢
    obtain ⟨name, tokens, s'⟩ := one
    obtain ⟨name', tokens', t'⟩ := two
    simp only [] at read
    obtain ⟨rfl, rfl, shows'⟩ := read
    cases name' with
    | none => exact ⟨rfl, shows'.report first _ _⟩
    | some name =>
      simp only [] at finds
      have found := (shows'.reportRest tokens name.consumed d.title).findHeader setup place
        (d.kind = .includeNext) name (by
          refine finds.imp_right fun still => .inl ?_
          refine Session.lookups_findHeader_of_isAbsolute _ setup place _ ?_
          by_contra relative
          obtain still | still := still
          all_goals
            simp only [if_neg relative] at still
            omega)
      simp only []
      generalize Session.findHeader _ setup (place.seen v) (d.kind = .includeNext) name = two
        at found ⊢
      generalize Session.findHeader _ setup place (d.kind = .includeNext) name = one at found ⊢
      obtain ⟨header, s''⟩ := one
      obtain ⟨header', t''⟩ := two
      simp only [] at found
      obtain ⟨rfl, shows''⟩ := found
      cases header' with
      | none => exact ⟨rfl, shows''.report first _ _⟩
      | some header => exact ⟨rfl, shows''⟩

/-- The arguments of a line directive look alike in reports, and they are joined to the same text. -/
theorem lineArguments_seen (shows : Session.Shows v s t) (clear : s.macros.IsClear v)
    (speaks : v.Speaks d.args) :
    ((d.shown v).lineArguments setup (place.seen v) t).1.map (Token.seen v.marks)
        = (d.lineArguments setup place s).1.map (Token.seen v.marks)
      ∧ Spelling.join ((d.shown v).lineArguments setup (place.seen v) t).1
        = Spelling.join (d.lineArguments setup place s).1
      ∧ Session.Shows v (d.lineArguments setup place s).2
          ((d.shown v).lineArguments setup (place.seen v) t).2 := by
  have spelled := shows.reportSpellings d.args
  have clear' : (s.reportSpellings d.args).macros.IsClear v :=
    (s.macros_reportSpellings d.args).symm ▸ clear
  have number : ((d.args.map (Token.seen v)).head?.any fun token => token.kind ≠ .number)
      = d.args.head?.any fun token => token.kind ≠ .number := by
    cases d.args <;> rfl
  have marked (tokens : List Token) :
      (tokens.map (Token.seen v)).map (Token.seen v.marks) = tokens.map (Token.seen v.marks) := by
    rw [List.map_map]
    exact List.map_congr_left fun token _ => Token.seen_marks_of_seen (token.seen_seen v)
  simp only [lineArguments, kind_shown, nameToken_shown, args_shown, number]
  split
  · refine ⟨?_, ?_, shows⟩
    · rw [List.map_cons, List.map_cons, marked, Token.seen_seen]
    · have joined := Spelling.join_seen spaces (d.nameToken :: d.args)
      simp only [List.map_cons] at joined
      rw [← joined]
      cases d.args <;> rfl
  · split
    · have expanded := spelled.expand clear' setup place speaks
      rw [expanded.1]
      exact ⟨marked _, Spelling.join_seen spaces _, expanded.2⟩
    · exact ⟨marked _, Spelling.join_seen spaces _, spelled⟩

theorem presentLine_seen (shows : Session.Shows v s t) (clear : s.macros.IsClear v)
    (speaks : v.Speaks d.args) :
    ShowsResult v (d.presentLine setup place s)
      ((d.shown v).presentLine setup (place.seen v) t) := by
  have lines := lineArguments_seen setup place d spaces shows clear speaks
  simp only [presentLine, kind_shown, nameToken_shown]
  split
  · exact ⟨rfl, shows⟩
  · generalize d.lineArguments setup place s = one at lines ⊢
    generalize (d.shown v).lineArguments setup (place.seen v) t = two at lines ⊢
    obtain ⟨tokens, s'⟩ := one
    obtain ⟨tokens', t'⟩ := two
    simp only [] at lines ⊢
    obtain ⟨looks, joined, shows'⟩ := lines
    have read := LineArguments.sameResult_read (v := v.marks)
      (d.nameToken.seen_seen v.marks).symm looks.symm (fun _ => joined.symm)
    have extras := congrArg (List.drop 2) looks
    rw [← List.map_drop, ← List.map_drop] at extras
    cases one : LineArguments.read d.nameToken tokens <;>
    cases two : LineArguments.read (d.nameToken.seen v.marks) tokens' <;> rw [one, two] at read
    case error.error error error' =>
      refine ⟨rfl, shows'.report_marks (fun compared => ?_) _⟩
      exact read compared
    case error.ok => exact read.elim
    case ok.error => exact read.elim
    case ok.ok result result' =>
      obtain rfl : result = result' := read
      obtain ⟨line, name⟩ := result
      refine ⟨rfl, ?_⟩
      cases left : tokens.drop 2 with
      | nil =>
        rw [left, List.map_nil, List.map_eq_nil_iff] at extras
        rw [extras]
        exact shows'
      | cons extra more =>
        rw [left] at extras
        cases left' : tokens'.drop 2 with
        | nil =>
          rw [left'] at extras
          cases extras
        | cons extra' more' =>
          rw [left', List.map_cons, List.map_cons, List.cons.injEq] at extras
          simp only []
          split
          · exact shows'
          · exact shows'.report_marks (fun _ => ⟨extras.1.symm, rfl⟩) _

theorem reportMessage_seen (code : Code) {tokens : List Token} (shows : Session.Shows v s t)
    (clear : s.macros.IsClear v) (speaks : v.Speaks tokens) :
    Session.Shows v (d.reportMessage setup place code tokens s)
      ((d.shown v).reportMessage setup (place.seen v) code (tokens.map (Token.seen v)) t) := by
  have expanded := shows.expand clear setup place speaks
  have text (tokens : List Token) :
      messageText (tokens.map (Token.seen v)) = messageText tokens := by
    have strings : (tokens.map (Token.seen v)).filter (·.kind = .string)
        = (tokens.filter (·.kind = .string)).map (Token.seen v) := by
      rw [List.filter_map]
      rfl
    simp only [messageText, strings, List.map_eq_nil_iff, Spelling.join_seen spaces,
      List.flatMap_map, Token.lexeme_seen]
  simp only [reportMessage]
  rw [expanded.1, text]
  exact expanded.2.report_shown d.hash _ _

omit spaces in
theorem savedName?_seen (tokens : List Token) :
    savedName? (tokens.map (Token.seen v)) = savedName? tokens := by
  match tokens with
  | [] => rfl
  | [_] => rfl
  | [_, _] => rfl
  | opening :: name :: close :: _ =>
    simp only [List.map_cons, savedName?, Token.isOpen_seen, Token.kind_seen, Token.isClose_seen,
      Token.lexeme_seen]

theorem pragma_seen (shows : Session.Shows v s t) (clear : s.macros.IsClear v)
    (speaks : v.Speaks d.args) :
    ShowsResult v (d.pragma setup place s) ((d.shown v).pragma setup (place.seen v) t) := by
  simp only [pragma, args_shown]
  cases given : d.args with
  | nil => exact ⟨rfl, shows⟩
  | cons first rest =>
    obtain ⟨-, others⟩ := List.forall_mem_cons.mp (given ▸ speaks)
    have code : (rest.map (Token.seen v)).head?.bind userCode? = rest.head?.bind userCode? := by
      cases rest <;> rfl
    simp only [List.map_cons, Token.isNamed_seen, savedName?_seen, code, ← List.map_drop]
    split
    · exact ⟨rfl, reportExtra_seen d 1 shows⟩
    split
    · cases savedName? rest with
      | none => exact ⟨rfl, shows⟩
      | some name =>
        refine ⟨rfl, ?_⟩
        simp only [shows.macros, MacroTable.push_seen]
        exact shows.withMacros _
    split
    · cases savedName? rest with
      | none => exact ⟨rfl, shows⟩
      | some name =>
        refine ⟨rfl, ?_⟩
        simp only [shows.macros, MacroTable.pop_seen]
        exact shows.withMacros _
    split
    · exact ⟨rfl, shows⟩
    split
    · exact ⟨rfl, reportMessage_seen setup place d spaces _ shows clear others⟩
    split
    · cases rest.head?.bind userCode? with
      | none => exact ⟨rfl, shows⟩
      | some code =>
        exact ⟨rfl, reportMessage_seen setup place d spaces code shows clear
          fun token member => others token (List.mem_of_mem_drop member)⟩
    · exact ⟨rfl, shows⟩

/-- A directive asks for the same and leaves sessions that show the same, if the place can be told or
one of the two looks nothing up, and if it is known whose conditional it goes on with. -/
theorem execute_seen (shows : Session.Shows v s t) (clear : s.macros.IsClear v)
    (speaks : v.Speaks d.args)
    (owns : d.OwnsTop v place s)
    (finds : v.Finds setup place ∨ (d.execute setup place s).2.lookups = s.lookups
      ∨ ((d.shown v).execute setup (place.seen v) t).2.lookups = t.lookups) :
    ShowsResult v (d.execute setup place s) ((d.shown v).execute setup (place.seen v) t)
      ∧ Session.SameLookups s (d.execute setup place s).2 t
          ((d.shown v).execute setup (place.seen v) t).2 := by
  cases conditional : d.kind.isConditional with
  | true =>
    have turned {s t : Session} (condition : Bool) : Session.SameLookups s (d.turn place s condition) t
        ((d.shown v).turn (place.seen v) t condition) :=
      .of_eq (lookups_turn ..) (lookups_turn ..)
    rw [execute_of_isConditional _ _ _ _ conditional,
      execute_of_isConditional _ _ _ _ ((kind_shown d).symm ▸ conditional),
      asks_seen place d shows owns] at finds ⊢
    simp only [] at finds ⊢
    split
    · rename_i asks
      simp only [if_pos asks, lookups_turn] at finds
      have held := holds_seen setup place d spaces shows clear speaks finds
      rw [held.1]
      refine ⟨⟨rfl, turn_seen place d held.2.1 ?_ _⟩, held.2.2.trans (turned _)⟩
      exact owns.imp_right (Or.imp_right (Or.imp_right fun owns => by
        rw [conditions_holds]
        exact owns))
    · exact ⟨⟨rfl, turn_seen place d shows owns false⟩, turned false⟩
  | false =>
    have joined := Spelling.join_seen spaces d.args
    simp only [execute, shows.conditions, ConditionStack.isLive_seen, kind_shown, conditional,
      Bool.or_false] at finds ⊢
    split
    · rename_i live
      simp only [if_pos live, carryOut, kind_shown, args_shown, joined, title_shown,
        nameToken_shown] at finds ⊢
      cases kind : d.kind
      case define =>
        exact ⟨⟨rfl, define_seen d spaces shows⟩, .of_eq (lookups_define ..) (lookups_define ..)⟩
      case undef =>
        exact ⟨⟨rfl, undef_seen d shows⟩, .of_eq (lookups_undef ..) (lookups_undef ..)⟩
      case includeHeader | includeNext =>
        simp only [kind] at finds
        exact includeHeader_seen setup place d spaces shows clear speaks finds
      case error | warning => exact ⟨⟨rfl, shows.report_shown d.hash _ _⟩, .refl s t⟩
      case pragma =>
        exact ⟨pragma_seen setup place d spaces shows clear speaks,
          .of_eq (lookups_pragma ..) (lookups_pragma ..)⟩
      case line | lineMarker =>
        exact ⟨presentLine_seen setup place d spaces shows clear speaks,
          .of_eq (lookups_presentLine ..) (lookups_presentLine ..)⟩
      case null => exact ⟨⟨rfl, shows⟩, .refl s t⟩
      case unknown => exact ⟨⟨rfl, shows.report_shown d.nameToken _ _⟩, .refl s t⟩
      all_goals
        rw [kind] at conditional
        cases conditional
    · exact ⟨⟨rfl, shows⟩, .refl s t⟩

end Directive

end CPreprocessor
