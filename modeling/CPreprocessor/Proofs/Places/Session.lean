/-
# Sessions and places

What a session shows under a view: its macros and open conditionals as they are seen,
the same search path and the same answers for headers, the same counter, and the same
reports if they are compared. This module follows what the parts of a session do:
reporting, expanding, looking for headers, and answering the questions of conditions. White
space has to be seen, since the names of headers depend on it; where the view hides in which
file a session stands, no header may be looked for.
-/
import CPreprocessor.Proofs.Directive.Lookups
import CPreprocessor.Proofs.Places.Condition

namespace CPreprocessor

variable {v : View}

theorem View.IsClear.spaced (clear : v.IsClear) : v.spaced = v := by
  have space := clear.space
  cases v
  cases space
  rfl

/-! ## Places -/

/-- The place as it is seen. -/
def Place.seen (v : View) (place : Place) : Place :=
  if v.level then place
  else { path := [], searchIndex := none, includeDepth := 0, baseFile := place.baseFile }

theorem Place.includeDepth_seen (place : Place) :
    (place.seen v).includeDepth = v.depthOf place.includeDepth := by
  unfold seen View.depthOf
  split <;> rfl

theorem Place.baseFile_seen (place : Place) : (place.seen v).baseFile = place.baseFile := by
  unfold seen
  split <;> rfl

theorem Place.seen_of_level (level : v.level = true) (place : Place) : place.seen v = place := by
  rw [seen, if_pos level]

/-- What is found in the place can be told: the place is seen, and where the view relies on answers
that are right, they are for the files of the run and its directory has a plain name. -/
structure View.Finds (v : View) (setup : Setup) (place : Place) : Prop where
  level : v.level = true
  plain : ∀ files searchPath, v.answers = some (files, searchPath) →
    files = setup.files ∧ '|' ∉ Path.parent place.path

/-! ## Open conditionals -/

/-- The conditional as it is seen. -/
def ConditionFrame.seen (v : View) (frame : ConditionFrame) : ConditionFrame :=
  { frame with opener := frame.opener.seen v.marks, includeDepth := v.depthOf frame.includeDepth }

namespace ConditionFrame

variable (v) (frame : ConditionFrame)

@[simp] theorem branch_seen : (frame.seen v).branch = frame.branch := (rfl)

@[simp] theorem parentLive_seen : (frame.seen v).parentLive = frame.parentLive := (rfl)

@[simp] theorem includeDepth_seen : (frame.seen v).includeDepth = v.depthOf frame.includeDepth := (rfl)

end ConditionFrame

namespace ConditionStack

/-- The conditionals as they are seen. -/
def seen (v : View) (stack : ConditionStack) : ConditionStack :=
  ⟨stack.frames.map (ConditionFrame.seen v)⟩

variable (v) (stack : ConditionStack)

@[simp] theorem isLive_seen : (stack.seen v).isLive = stack.isLive := by
  obtain ⟨frames⟩ := stack
  cases frames <;> rfl

@[simp] theorem depth_seen : (stack.seen v).depth = stack.depth :=
  List.length_map _

@[simp] theorem top?_seen : (stack.seen v).top? = stack.top?.map (ConditionFrame.seen v) :=
  List.head?_map

@[simp] theorem needsCondition_seen : (stack.seen v).needsCondition = stack.needsCondition := by
  obtain ⟨frames⟩ := stack
  cases frames <;> rfl

theorem push_seen (opener : Token) (condition : Bool) (includeDepth : Nat) :
    (stack.seen v).push (opener.seen v.marks) condition (v.depthOf includeDepth)
      = (stack.push opener condition includeDepth).seen v := by
  simp only [push, isLive_seen]
  rfl

theorem modifyTop_seen {f : ConditionFrame → ConditionFrame}
    (blind : ∀ frame, f (frame.seen v) = (f frame).seen v) :
    (stack.seen v).modifyTop f = (stack.modifyTop f).seen v := by
  obtain ⟨frames⟩ := stack
  cases frames with
  | nil => rfl
  | cons frame outer => simp only [modifyTop, seen, List.map_cons, blind]

theorem enterFurther_seen (condition : Bool) :
    (stack.seen v).enterFurther condition = (stack.enterFurther condition).seen v :=
  modifyTop_seen v stack fun _ => rfl

theorem enterLast_seen : (stack.seen v).enterLast = stack.enterLast.seen v :=
  modifyTop_seen v stack fun _ => rfl

theorem skipRest_seen : (stack.seen v).skipRest = stack.skipRest.seen v :=
  modifyTop_seen v stack fun _ => rfl

theorem pop_seen : (stack.seen v).pop = stack.pop.seen v := by
  simp only [pop, seen, List.map_drop]

theorem popAbove_seen (depth : Nat) :
    (stack.seen v).popAbove depth
      = ((stack.popAbove depth).1.map (ConditionFrame.seen v), (stack.popAbove depth).2.seen v) := by
  simp only [popAbove, depth_seen]
  simp only [seen, List.map_take, List.map_drop]

end ConditionStack

/-! ## Sessions -/

/-- What is seen of a resolver: all of it, or that its answers are right. -/
def Resolver.Shows (v : View) (r t : Resolver) : Prop :=
  match v.answers with
  | none => t = r
  | some (files, searchPath) => r.IsSound files searchPath ∧ t.IsSound files searchPath

theorem Resolver.shows_self {r : Resolver}
    (sound : ∀ files searchPath, v.answers = some (files, searchPath) → r.IsSound files searchPath) :
    r.Shows v r := by
  unfold Resolver.Shows
  split
  · rfl
  · rename_i files searchPath kept
    exact ⟨sound files searchPath kept, sound files searchPath kept⟩

/-- Resolvers that show the same answer a question in the same way, if it is about a directory with a
plain name. -/
theorem Resolver.Shows.ask {r t : Resolver} (shows : r.Shows v t) (files : FileSystem)
    (question : Question)
    (plain : ∀ known searchPath, v.answers = some (known, searchPath) →
      known = files ∧ question.HasPlainDirectory) :
    (t.ask files question).1 = (r.ask files question).1
      ∧ (r.ask files question).2.Shows v (t.ask files question).2 := by
  unfold Resolver.Shows at shows ⊢
  cases kept : v.answers with
  | none =>
    rw [kept] at shows
    subst shows
    exact ⟨rfl, rfl⟩
  | some known =>
    obtain ⟨known, searchPath⟩ := known
    rw [kept] at shows
    obtain ⟨rfl, directory⟩ := plain known searchPath kept
    obtain ⟨sound, sound'⟩ := shows
    have one := sound.ask directory
    have two := sound'.ask directory
    exact ⟨two.1.trans one.1.symm, one.2, two.2⟩

namespace Session

/-- What is seen of a session. -/
structure Shows (v : View) (s t : Session) : Prop where
  macros : t.macros = s.macros.seen v
  conditions : t.conditions = s.conditions.seen v
  resolver : s.resolver.Shows v t.resolver
  expansion : Expansion.State.Alike v s.expansion t.expansion

/-- Two sessions show the same. -/
def Alike (v : View) (s s' : Session) : Prop :=
  ∃ t, Shows v s t ∧ Shows v s' t

variable {s t : Session}

namespace Shows

/-- Every session shows something, if it keeps right answers where that is relied on. -/
theorem exists_shows (v : View) (s : Session)
    (sound : ∀ files searchPath, v.answers = some (files, searchPath) →
      s.resolver.IsSound files searchPath) : ∃ t, Shows v s t :=
  ⟨{ s with macros := s.macros.seen v, conditions := s.conditions.seen v },
    rfl, rfl, Resolver.shows_self sound, .refl _⟩

theorem report_marks (shows : Shows v s t) {token token' : Token} {detail detail' : Text}
    (looks : v.reports = true → token.seen v.marks = token'.seen v.marks ∧ detail = detail')
    (code : Code) : Shows v (s.report token code detail) (t.report token' code detail') :=
  ⟨shows.macros, shows.conditions, shows.resolver, shows.expansion.report_marks looks code⟩

theorem report (shows : Shows v s t) (token : Token) (code : Code) (detail : Text) :
    Shows v (s.report token code detail) (t.report (token.seen v) code detail) :=
  ⟨shows.macros, shows.conditions, shows.resolver, shows.expansion.report token code detail⟩

theorem reportSpelling (shows : Shows v s t) (token : Token) :
    Shows v (s.reportSpelling token) (t.reportSpelling (token.seen v)) := by
  simp only [Session.reportSpelling, Token.error_seen]
  cases token.error with
  | none => exact shows
  | some error => exact shows.report token error.code token.lexeme

theorem reportSpellings (shows : Shows v s t) (tokens : List Token) :
    Shows v (s.reportSpellings tokens) (t.reportSpellings (tokens.map (Token.seen v))) := by
  induction tokens generalizing s t with
  | nil => exact shows
  | cons token rest ih => exact ih (shows.reportSpelling token)

theorem withExpansion (shows : Shows v s t) {x x' : Expansion.State}
    (same : Expansion.State.Alike v x x') :
    Shows v { s with expansion := x } { t with expansion := x' } :=
  ⟨shows.macros, shows.conditions, shows.resolver, same⟩

theorem withConditions (shows : Shows v s t) (conditions : ConditionStack) :
    Shows v { s with conditions } { t with conditions := conditions.seen v } :=
  ⟨shows.macros, rfl, shows.resolver, shows.expansion⟩

theorem withMacros (shows : Shows v s t) (macros : MacroTable) :
    Shows v { s with macros } { t with macros := macros.seen v } :=
  ⟨rfl, shows.conditions, shows.resolver, shows.expansion⟩

theorem context (shows : Shows v s t) (setup : Setup) (place : Place) :
    t.context setup (place.seen v) = (s.context setup place).seen v := by
  simp only [Session.context, Expansion.Context.seen, shows.macros, Place.includeDepth_seen,
    Place.baseFile_seen]

/-- What follows the name of a header is reported. -/
theorem reportRest (shows : Shows v s t) (tokens : List Token) (used : Nat) (title : Text) :
    Shows v
      (match tokens.drop used with
        | [] => s
        | extra :: _ => s.report extra .extraTokens title)
      (match (tokens.map (Token.seen v)).drop used with
        | [] => t
        | extra :: _ => t.report extra .extraTokens title) := by
  rw [← List.map_drop]
  cases tokens.drop used with
  | nil => exact shows
  | cons extra more => exact shows.report extra _ _

/-- A header is found alike, if the place can be told or one of the sessions looks nothing up. -/
theorem findHeader (shows : Shows v s t) (setup : Setup) (place : Place) (next : Bool)
    (name : IncludeName)
    (finds : v.Finds setup place ∨ (s.findHeader setup place next name).2.lookups = s.lookups
      ∨ (t.findHeader setup (place.seen v) next name).2.lookups = t.lookups) :
    (t.findHeader setup (place.seen v) next name).1 = (s.findHeader setup place next name).1
      ∧ Shows v (s.findHeader setup place next name).2
        (t.findHeader setup (place.seen v) next name).2 := by
  have absolute (s : Session) (place : Place)
      (still : (s.findHeader setup place next name).2.lookups = s.lookups) :
      Path.isAbsolute name.name = true := by
    have counted := s.lookups_findHeader setup place next name
    rw [still] at counted
    split at counted
    · assumption
    · omega
  rw [or_congr (Iff.refl _) (or_iff_left_of_imp fun still =>
    s.lookups_findHeader_of_isAbsolute setup place next (absolute t _ still))] at finds
  rw [findHeader_eq_ask, findHeader_eq_ask]
  obtain finds | still := finds
  · rw [Place.seen_of_level finds.level]
    have asked := shows.resolver.ask setup.files (headerQuestion place next name)
      fun known searchPath kept =>
        have plain := finds.plain known searchPath kept
        ⟨plain.1, hasPlainDirectory_headerQuestion plain.2 next name⟩
    exact ⟨asked.1, shows.macros, shows.conditions, asked.2, shows.expansion⟩
  · -- Only an absolute name is not looked up.
    have isAbsolute := absolute s place still
    have ask (r : Resolver) (place : Place) :
        r.ask setup.files (headerQuestion place next name)
          = (Resolver.absoluteHeader setup.files name.name, r) := by
      rw [Resolver.ask_of_isAbsolute (by rwa [name_headerQuestion]), name_headerQuestion]
    rw [ask, ask]
    exact ⟨rfl, shows.macros, shows.conditions, shows.resolver, shows.expansion⟩

theorem expand (shows : Shows v s t) (clear : s.macros.IsClear v) (setup : Setup) (place : Place)
    {tokens : List Token} (speaks : v.Speaks tokens) :
    (t.expand setup (place.seen v) (tokens.map (Token.seen v))).1
        = (s.expand setup place tokens).1.map (Token.seen v)
      ∧ Shows v (s.expand setup place tokens).2
          (t.expand setup (place.seen v) (tokens.map (Token.seen v))).2 := by
  have clear : (s.context setup place).table.IsClear v := clear
  have expanded := Expansion.expandAll_seen clear speaks shows.expansion
  simp only [Session.expand, shows.context]
  exact ⟨expanded.tokens, shows.withExpansion expanded.state⟩

end Shows

end Session

/-! ## Names of headers -/

section Names

variable (spaces : v.space = true)
include spaces

theorem IncludeName.read?_seen (tokens : List Token) :
    IncludeName.read? (tokens.map (Token.seen v)) = IncludeName.read? tokens := by
  have upTo (isFirst : Bool) (tokens : List Token) :
      upToClose? isFirst (tokens.map (Token.seen v)) = upToClose? isFirst tokens := by
    induction tokens generalizing isFirst with
    | nil => rfl
    | cons token rest ih =>
      simp only [List.map_cons, upToClose?, Token.isPunctuator_seen, Token.lexeme_seen,
        Substitution.afterSpace_seen spaces, ih]
  cases tokens with
  | nil => rfl
  | cons token rest =>
    simp only [List.map_cons, read?, Token.kind_seen, Token.lexeme_seen, Token.isPunctuator_seen,
      upTo]

theorem Session.Shows.readHeaderName {s t : Session} (shows : Shows v s t)
    (clear : s.macros.IsClear v) (setup : Setup) (place : Place) {tokens : List Token}
    (speaks : v.Speaks tokens) :
    (t.readHeaderName setup (place.seen v) (tokens.map (Token.seen v))).1
        = (s.readHeaderName setup place tokens).1
      ∧ (t.readHeaderName setup (place.seen v) (tokens.map (Token.seen v))).2.1
        = (s.readHeaderName setup place tokens).2.1.map (Token.seen v)
      ∧ Shows v (s.readHeaderName setup place tokens).2.2
          (t.readHeaderName setup (place.seen v) (tokens.map (Token.seen v))).2.2 := by
  have isName : (tokens.map (Token.seen v)).head?.any Token.isName
      = tokens.head?.any Token.isName := by
    cases tokens <;> rfl
  have expanded := shows.expand clear setup place speaks
  simp only [Session.readHeaderName, IncludeName.read?_seen spaces, isName]
  cases IncludeName.read? tokens with
  | some name => exact ⟨rfl, rfl, shows⟩
  | none =>
    simp only []
    split
    · rw [expanded.1, IncludeName.read?_seen spaces]
      exact ⟨rfl, rfl, expanded.2⟩
    · exact ⟨rfl, rfl, shows⟩

theorem Spelling.join_seen (tokens : List Token) :
    Spelling.join (tokens.map (Token.seen v)) = Spelling.join tokens := by
  have after (previous : Token) (tokens : List Token) :
      joinAfter (previous.seen v) (tokens.map (Token.seen v)) = joinAfter previous tokens := by
    induction tokens generalizing previous with
    | nil => rfl
    | cons token rest ih =>
      simp only [List.map_cons, joinAfter, Token.isEnd_seen, Token.lexeme_seen,
        Substitution.afterSpace_seen spaces, ih]
  cases tokens with
  | nil => rfl
  | cons token rest => simp only [List.map_cons, join, Token.isEnd_seen, Token.lexeme_seen, after]

end Names

/-! ## Questions -/

namespace Query

/-- The tokens that are looked at to answer the question. -/
def inner : Query → List Token
  | header _ inner => inner
  | _ => []

/-- The question as it is seen. -/
def seen (v : View) : Query → Query
  | defined name => .defined name
  | header onward inner => .header onward (inner.map (Token.seen v))
  | feature => .feature

variable (v) in
theorem read?_seen (token : Token) (rest : List Token) :
    read? (token.seen v) (rest.map (Token.seen v)) =
      (read? token rest).map (Except.map fun (query, after) =>
        (query.seen v, after.map (Token.seen v))) := by
  have definedName : readDefined (rest.map (Token.seen v)) =
      (readDefined rest).map fun (query, after) => (query.seen v, after.map (Token.seen v)) := by
    match rest with
    | [] => rfl
    | [token] =>
      simp only [List.map_cons, List.map_nil, readDefined, Token.isOpen_seen, Token.isName_seen]
      split_ifs <;> rfl
    | [token, name] =>
      simp only [List.map_cons, List.map_nil, readDefined, Token.isOpen_seen, Token.isName_seen]
      split_ifs <;> rfl
    | token :: name :: close :: after =>
      simp only [List.map_cons, readDefined, Token.isOpen_seen, Token.isName_seen,
        Token.isClose_seen]
      split_ifs <;> rfl
  have opens : (rest.map (Token.seen v)).head?.any Token.isOpen = rest.head?.any Token.isOpen := by
    cases rest <;> rfl
  have feature : featureOperators.any (token.seen v).isNamed = featureOperators.any token.isNamed := rfl
  simp only [read?, Token.isNamed_seen, definedName, Operation.parenthesized?_seen, opens, feature,
    Token.lexeme_seen]
  split_ifs
  · rfl
  · cases Operation.parenthesized? rest <;> rfl
  · cases Operation.parenthesized? rest <;> rfl
  · rfl

theorem subset_of_readDefined {rest after : List Token} {query : Query}
    (found : readDefined rest = .ok (query, after)) : query.inner ⊆ rest ∧ after ⊆ rest := by
  unfold readDefined at found
  simp only [] at found
  repeat' split at found
  all_goals cases found
  all_goals exact ⟨List.nil_subset _, fun token member => by simp [member]⟩

/-- What a question is about, and what follows it, are tokens after its first one. -/
theorem subset_of_read? {token : Token} {rest after : List Token} {query : Query}
    (found : read? token rest = some (.ok (query, after))) : query.inner ⊆ rest ∧ after ⊆ rest := by
  have inside {inner : List Token} (closes : Operation.parenthesized? rest = some (inner, after)) :
      inner ⊆ rest ∧ after ⊆ rest := by
    obtain ⟨opening, close, -, -, rfl⟩ := Operation.exists_of_parenthesized? closes
    exact ⟨fun token member => by simp [member], fun token member => by simp [member]⟩
  unfold read? at found
  split_ifs at found
  · exact subset_of_readDefined (Option.some.inj found)
  all_goals
    split at found
    · rename_i closes
      cases found
      obtain ⟨inner, later⟩ := inside closes
      first | exact ⟨inner, later⟩ | exact ⟨List.nil_subset _, later⟩
    · cases found

/-- The answers to questions are numbers, and what stands between them stays. -/
theorem speaks_answerAll {setup : Setup} {place : Place} {tokens answered : List Token} {s : Session}
    (speaks : v.Speaks tokens) (done : (answerAll setup place tokens s).1 = .ok answered) :
    v.Speaks answered := by
  fun_induction answerAll setup place tokens s generalizing answered with
  | case1 s =>
    cases done
    exact List.forall_mem_nil _
  | case2 token rest s found more s' step ih =>
    obtain ⟨here, others⟩ := List.forall_mem_cons.mp speaks
    obtain _ | more := more
    · cases done
    · cases done
      exact List.forall_mem_cons.mpr ⟨here, ih others (by rw [step])⟩
  | case3 token rest s wrong found => cases done
  | case4 token rest s query after found wrong s' answer => cases done
  | case5 token rest s query after found value s' answer more s'' step ih =>
    obtain ⟨-, others⟩ := List.forall_mem_cons.mp speaks
    have number : v.vocabulary.has (answerToken token value).lexeme := by
      cases value
      · exact v.vocabulary.number 0
      · exact v.vocabulary.number 1
    obtain _ | more := more
    · cases done
    · cases done
      have later : v.Speaks after := fun t member => others t ((subset_of_read? found).2 member)
      exact List.forall_mem_cons.mpr ⟨number, ih later (by rw [step])⟩

variable (spaces : v.space = true) {s t : Session} (setup : Setup) (place : Place)
include spaces

/-- A question has the same answer. -/
theorem answer_seen (shows : Session.Shows v s t) (clear : s.macros.IsClear v) (site : Token)
    (query : Query) (speaks : v.Speaks query.inner)
    (finds : v.Finds setup place ∨ (query.answer setup place site s).2.lookups = s.lookups
      ∨ ((query.seen v).answer setup (place.seen v) (site.seen v) t).2.lookups = t.lookups) :
    ((query.seen v).answer setup (place.seen v) (site.seen v) t).1 = (query.answer setup place site s).1
      ∧ Session.Shows v (query.answer setup place site s).2
          ((query.seen v).answer setup (place.seen v) (site.seen v) t).2
      ∧ Session.SameLookups s (query.answer setup place site s).2 t
          ((query.seen v).answer setup (place.seen v) (site.seen v) t).2 := by
  cases query with
  | defined name =>
    simp only [seen, answer, isDefined, shows.macros, MacroTable.isDefined_seen]
    exact ⟨trivial, shows, .refl s t⟩
  | feature => exact ⟨rfl, shows, .refl s t⟩
  | header onward inner =>
    have speaks : v.Speaks inner := speaks
    have read := shows.readHeaderName spaces clear setup place speaks
    have same := s.lookups_readHeaderName setup place inner
    have same' := t.lookups_readHeaderName setup (place.seen v) (inner.map (Token.seen v))
    simp only [seen, answer] at finds ⊢
    generalize s.readHeaderName setup place inner = one at read same finds ⊢
    generalize t.readHeaderName setup (place.seen v) (inner.map (Token.seen v)) = two
      at read same' finds ⊢
    obtain ⟨name, tokens, s'⟩ := one
    obtain ⟨name', tokens', t'⟩ := two
    simp only [] at read same same'
    obtain ⟨rfl, rfl, shows'⟩ := read
    have start : Session.SameLookups s s' t t' := .of_eq same same'
    cases name' with
    | none => exact ⟨rfl, shows', start⟩
    | some name =>
      simp only [List.length_map] at finds ⊢
      split
      · rename_i whole
        simp only [if_pos whole] at finds
        have found := shows'.findHeader setup place onward name
          (finds.imp_right (Or.imp (·.trans same.symm) (·.trans same'.symm)))
        exact ⟨by rw [found.1], found.2, start.trans (.findHeader setup place onward name)⟩
      · exact ⟨rfl, shows', start⟩

/-- All questions have the same answers. -/
theorem answerAll_seen (shows : Session.Shows v s t) (clear : s.macros.IsClear v)
    {tokens : List Token} (speaks : v.Speaks tokens)
    (finds : v.Finds setup place ∨ (answerAll setup place tokens s).2.lookups = s.lookups
      ∨ (answerAll setup (place.seen v) (tokens.map (Token.seen v)) t).2.lookups = t.lookups) :
    (answerAll setup (place.seen v) (tokens.map (Token.seen v)) t).1
        = ((answerAll setup place tokens s).1.map (List.map (Token.seen v))).mapError (Failure.seen v)
      ∧ Session.Shows v (answerAll setup place tokens s).2
          (answerAll setup (place.seen v) (tokens.map (Token.seen v)) t).2
      ∧ Session.SameLookups s (answerAll setup place tokens s).2 t
          (answerAll setup (place.seen v) (tokens.map (Token.seen v)) t).2 := by
  induction size : tokens.length using Nat.strongRecOn generalizing tokens s t with
  | ind size ih =>
    cases tokens with
    | nil =>
      simp only [List.map_nil, answerAll]
      exact ⟨rfl, shows, .refl s t⟩
    | cons token rest =>
      simp only [List.length_cons] at size
      obtain ⟨here, others⟩ := List.forall_mem_cons.mp speaks
      have whole := finds
      rw [List.map_cons] at whole
      rw [List.map_cons, answerAll_cons, answerAll_cons, read?_seen]
      rw [List.map_cons, answerAll_cons, answerAll_cons, read?_seen] at finds
      cases asked : read? token rest with
      | none =>
        simp only [asked, Option.map_none] at finds
        have later := ih rest.length (by omega) shows clear others finds rfl
        simp only [Option.map_none]
        refine ⟨?_, later.2⟩
        rw [later.1]
        cases (answerAll setup place rest s).1 <;> rfl
      | some found =>
        cases found with
        | error wrong => exact ⟨rfl, shows, .refl s t⟩
        | ok found =>
          obtain ⟨query, after⟩ := found
          have shorter := length_read? asked
          have parts := subset_of_read? asked
          -- If the count is the same after all questions, it is the same after each of them.
          have macros := macros_answer setup place token s query
          have asked' : read? (token.seen v) (rest.map (Token.seen v))
              = some (.ok (query.seen v, after.map (Token.seen v))) := by
            rw [read?_seen, asked]
            rfl
          have here := whole.imp_right (Or.imp (lookups_answer_of_answerAll setup place asked)
            (lookups_answer_of_answerAll setup (place.seen v) asked'))
          simp only [asked, Option.map_some, Except.map] at finds ⊢
          have answered := answer_seen spaces setup place shows clear token query
            (fun t member => others t (parts.1 member)) here
          generalize query.answer setup place token s = one at answered here macros finds ⊢
          generalize (query.seen v).answer setup (place.seen v) (token.seen v) t = two
            at answered here finds ⊢
          obtain ⟨answer, s'⟩ := one
          obtain ⟨answer', t'⟩ := two
          obtain ⟨rfl, shows', counted⟩ := answered
          cases answer' with
          | error wrong => exact ⟨rfl, shows', counted⟩
          | ok value =>
            have later := ih after.length (by omega) shows' (macros ▸ clear)
              (fun t member => others t (parts.2 member)) (counted.rest finds here) rfl
            refine ⟨?_, later.2.1, counted.trans later.2.2⟩
            simp only [later.1]
            have number : answerToken (token.seen v) value = (answerToken token value).seen v := by
              simp only [answerToken, Substitution.withSpace_seen spaces,
                Substitution.afterSpace_seen spaces]
              rfl
            rw [number]
            cases (answerAll setup place after s').1 <;> rfl

end Query

end CPreprocessor
