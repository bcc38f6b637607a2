/-
# Runs over plain text

A main file without directives is read after the macros of the configuration are defined
and removed. What the run gives is then the expansion of the tokens of the file under the
macros that the preamble leaves (`processSource_eq_expandAll`): the tokens that a run
pulls one by one, and pushes back and pulls across the end of the preamble, are expanded as
if they were all there.
-/
import CPreprocessor.Proofs.Directive.Definitions
import CPreprocessor.Proofs.Expansion.Termination
import CPreprocessor.Proofs.Guard.Include
import CPreprocessor.Proofs.Lexing.Alone
import CPreprocessor.Proofs.Run.Opening
import CPreprocessor.Proofs.Run.Streaming
import CPreprocessor.Proofs.Source.Lines

namespace CPreprocessor

open Expansion

/-! ## The preamble -/

namespace Configuration

/-- The lexer at the start of the preamble, which is the second file of a run. -/
def preambleLexer (config : Configuration) : Lexer :=
  .ofSource (Source.ofDecoded false config.preamble) ⟨[], Preprocessor.preambleName, 2⟩
    config.language false

/-- The preamble consists of these directives, and they define macros or remove them. -/
structure Predefines (config : Configuration) (directives : List Directive) : Prop where
  kinds : ∀ d ∈ directives, d.kind = .define ∨ d.kind = .undef
  reads : ∃ last final after, config.preambleLexer.Reads (directives.map .directive) last
    ∧ last.item = (.finish final, after)

end Configuration

/-- Definitions are carried out one after the other. -/
theorem Item.processAll_predefine (setup : Setup) (place : Place) {directives : List Directive}
    (kinds : ∀ d ∈ directives, d.kind = .define ∨ d.kind = .undef) {s : Session}
    (closed : s.conditions.frames = []) :
    Item.processAll setup place (directives.map .directive) s
        = ([], directives.foldl Session.predefine s)
      ∧ Item.AllQuiet setup place (directives.map .directive) s := by
  induction directives generalizing s with
  | nil => exact ⟨rfl, trivial⟩
  | cons d more ih =>
    obtain ⟨kind, later⟩ := List.forall_mem_cons.mp kinds
    have live : s.conditions.isLive = true := by
      unfold ConditionStack.isLive
      rw [closed]
    have executed : d.execute setup place s = (.nothing, s.predefine d) := by
      unfold Directive.execute Directive.carryOut Session.predefine
      obtain kind | kind := kind <;> simp [live, kind]
    have silent : d.asks place s = false := by
      unfold Directive.asks
      obtain kind | kind := kind <;> rw [kind]
    obtain ⟨⟨macros, journal, changed⟩, -⟩ := s.redefines_predefine d
    have still : (s.predefine d).conditions.frames = [] := by
      rw [changed]
      exact closed
    obtain ⟨processed, quiet⟩ := ih later still
    simp only [List.map_cons, processAll, AllQuiet, process, Quiet, silent, executed, processed, quiet,
      and_self, and_true]
    rfl

/-- Definitions leave the open conditionals as they are. -/
theorem Session.conditions_predefine (directives : List Directive) (s : Session) :
    (directives.foldl predefine s).conditions = s.conditions := by
  induction directives generalizing s with
  | nil => rfl
  | cons d more ih =>
    obtain ⟨⟨macros, journal, changed⟩, -⟩ := s.redefines_predefine d
    rw [List.foldl_cons, ih, changed]
    rfl

/-- A file of definitions is gone through without a token. -/
theorem Reader.reads_predefine (setup : Setup) {start : Reader} {frame : Frame} {outer : List Frame}
    (isOpen : start.frames = frame :: outer) (idle : start.queued = [])
    (closed : start.session.conditions.frames = []) (level : frame.conditionDepth = 0)
    {directives : List Directive} (kinds : ∀ d ∈ directives, d.kind = .define ∨ d.kind = .undef)
    {last after : Lexer} {final : { token : Token // token.isEnd = true }}
    (reads : frame.lexer.Reads (directives.map .directive) last)
    (finish : last.item = (.finish final, after)) :
    ∃ journal guards status ending,
      start.Reads setup []
        { start with
          session := (directives.foldl Session.predefine start.session).annotated journal,
          frames := outer, guards, status, ending } := by
  obtain ⟨processed, quiet⟩ := Item.processAll_predefine setup start.place kinds closed
  obtain ⟨atEnd, reading, guard, status, stands⟩ := reads_processAll setup (r := start)
    isOpen idle reads quiet ⟨frame.guard, start.status, by rw [← isOpen]⟩
  rw [processed] at reading stands
  have frames : atEnd.frames = { frame with lexer := last, guard } :: outer := by rw [stands]
  have deep : frame.conditionDepth = atEnd.session.conditions.depth := by
    rw [stands, level]
    simp only [Session.conditions_predefine, ConditionStack.depth, closed, List.length_nil]
  obtain ⟨journal, guards, status', finishing⟩ := reads_finish setup frames
    (by rw [stands]; exact idle) deep finish
  have whole := reading.trans finishing
  rw [stands] at whole
  exact ⟨journal, guards, status', _, whole⟩

/-- All tokens of a text are plain ones and the end of the file. -/
theorem Lexer.inside_of_drain {l : Lexer} {plain : List Token} {final : Token}
    (drained : l.drain.1 = plain ++ [final]) : Inside plain ∧ final.isEnd = true := by
  induction plain generalizing l with
  | nil =>
    rw [drain_eq] at drained
    split at drained
    · rename_i ends
      simp only [List.nil_append, List.cons.injEq, and_true] at drained
      exact ⟨.nil, drained ▸ ends⟩
    · simp only [List.nil_append, List.cons.injEq] at drained
      exact absurd drained.2 (drain_ne_nil _)
  | cons token rest ih =>
    rw [drain_eq] at drained
    split at drained
    · simp at drained
    · rename_i goesOn
      simp only [List.cons_append, List.cons.injEq] at drained
      obtain ⟨inside, ends⟩ := ih drained.2
      exact ⟨.cons (by simpa [drained.1] using goesOn) inside, ends⟩

theorem MacroTable.isInside_addBuiltins : (addBuiltins {}).IsInside := by
  have builtin : ∀ m ∈ (addBuiltins {}).macros, m.body = [] := by
    decide
  intro m member
  rw [builtin m member]
  exact .nil

/-! ## Opening a main file -/

namespace Preprocessor

variable {setup : Setup} {p q : Preprocessor} {text name : Text}

/-- What expansion depends on in a main file with these definitions before it. -/
def predefinedContext (setup : Setup) (p : Preprocessor) (directives : List Directive)
    (name : Text) : Context where
  table := (directives.foldl Session.predefine p.reader.session).macros
  language := setup.config.language
  clock := setup.clock
  includeLevel := 0
  baseFile := name

/-- The definitions before the main file open no conditional and do not count, and no replacement list
that they leave has an end of a file in it. -/
theorem IsNew.predefined (isNew : p.IsNew) {directives : List Directive}
    (predefines : setup.config.Predefines directives) :
    (directives.foldl Session.predefine p.reader.session).conditions = {}
      ∧ (directives.foldl Session.predefine p.reader.session).expansion.counter = 0
      ∧ (directives.foldl Session.predefine p.reader.session).macros.IsInside := by
  obtain ⟨last, final, after, reads, -⟩ := predefines.reads
  have builtins : p.reader.session.macros.IsInside := by
    rw [isNew.macros]
    exact MacroTable.isInside_addBuiltins
  obtain ⟨macros, journal, same, inside⟩ := Session.exists_predefine
    (fun d member => reads.inside_args (List.mem_map_of_mem member)) builtins
  rw [same]
  exact ⟨isNew.unconditional, isNew.counter, inside⟩

/-- The reader in its main file, of which nothing is read, and after the definitions. -/
structure IsPredefined (setup : Setup) (p : Preprocessor) (directives : List Directive)
    (source : Source) (name : Text) (r : Reader) : Prop where
  idle : r.queued = []
  session : ∃ journal, r.session
    = (directives.foldl Session.predefine p.reader.session).annotated journal
  frames : r.frames = (p.mainReader setup source name).frames
  baseFile : r.baseFile = name

/-- The run has not ended with an error in the definitions. -/
structure IsReady (setup : Setup) (p : Preprocessor) (directives : List Directive) (source : Source)
    (name : Text) (r : Reader) : Prop extends IsPredefined setup p directives source name r where
  ok : r.status = .ok

/-- Without a preamble the main file is read at once. -/
theorem eq_nil_of_predefines {directives : List Directive}
    (predefines : setup.config.Predefines directives) (empty : setup.config.preamble = []) :
    directives = [] := by
  obtain ⟨last, final, after, reads, -⟩ := predefines.reads
  have nothing : setup.config.preambleLexer.rest = [] := by
    rw [Configuration.preambleLexer, empty]
    exact Source.ofDecoded_nil false
  cases directives with
  | nil => rfl
  | cons d more =>
    cases reads with
    | directive here later =>
      have ends : setup.config.preambleLexer.next.1.isEnd = true := Lexer.isEnd_next_of_nil rfl nothing
      rw [Lexer.item_of_isEnd ends] at here
      cases here

/-- The preamble is gone through without a token. -/
theorem exists_isPredefined (created : create setup = .ok p) {directives : List Directive}
    (predefines : setup.config.Predefines directives) (source : Source) (name : Text) :
    ∃ r : Reader, (openPreamble setup (p.mainReader setup source name)).Reads setup [] r
      ∧ IsPredefined setup p directives source name r := by
  have isNew := isNew_of_create created
  unfold openPreamble
  by_cases empty : setup.config.preamble = []
  · rw [eq_nil_of_predefines predefines empty]
    simp only [if_pos empty]
    exact ⟨_, .done _, isNew.idle, ⟨p.reader.session.expansion.journal, rfl⟩, rfl, rfl⟩
  · simp only [if_neg empty]
    obtain ⟨last, final, after, reads, finish⟩ := predefines.reads
    let start := (p.mainReader setup source name).openFrame setup
      (Source.ofDecoded false setup.config.preamble) [] preambleName [] none 0 true
    let preamble : Frame :=
      { lexer := setup.config.preambleLexer, path := [], canonical := [], searchIndex := none,
        includeDepth := 0, conditionDepth := 0, isPreamble := true }
    have isOpen : start.frames = preamble :: (p.mainReader setup source name).frames := by
      simp only [start, preamble, Reader.openFrame, mainReader, isNew.number, isNew.unconditional]
      rfl
    have unconditional : start.session.conditions.frames = [] :=
      congrArg ConditionStack.frames isNew.unconditional
    obtain ⟨journal, guards, status, ending, reading⟩ :=
      Reader.reads_predefine setup isOpen isNew.idle unconditional rfl predefines.kinds reads finish
    exact ⟨_, reading, isNew.idle, ⟨journal, rfl⟩, rfl, rfl⟩

theorem IsNew.status_openPreamble (isNew : p.IsNew) (source : Source) (name : Text) :
    (openPreamble setup (p.mainReader setup source name)).status = .ok := by
  simp only [openPreamble]
  split <;> exact isNew.ok

/-- The preamble is read before a token of the main file is pulled. -/
theorem exists_isReady (created : create setup = .ok p) (lenient : setup.config.failFast = false)
    {directives : List Directive} (predefines : setup.config.Predefines directives)
    (source : Source) (name : Text) :
    ∃ r : Reader, (openPreamble setup (p.mainReader setup source name)).pull setup = r.pull setup
      ∧ IsReady setup p directives source name r := by
  have running : (openPreamble setup (p.mainReader setup source name)).status = .ok :=
    (isNew_of_create created).status_openPreamble source name
  obtain ⟨r, reads, predefined⟩ := exists_isPredefined created predefines source name
  exact ⟨r, reads.pull_eq lenient rfl (by rw [running]; decide),
    { predefined with ok := (reads.status lenient).trans running }⟩

/-- Once the preamble is read, the tokens of the main file are supplied. -/
theorem exists_supplies (created : create setup = .ok p) (lenient : setup.config.failFast = false)
    {directives : List Directive} (predefines : setup.config.Predefines directives) {source : Source}
    {plain : List Token} {final : Token}
    (drained : (Lexer.ofSource source ⟨name, name, 1⟩ setup.config.language false).drain.1
      = plain ++ [final])
    (noDirective : ∀ token ∈ plain, Reader.startsDirective token = false) :
    ∃ r : Reader, (openPreamble setup (p.mainReader setup source name)).pull setup = r.pull setup
      ∧ r.Supplies setup (p.predefinedContext setup directives name) 0 plain final := by
  have isNew := isNew_of_create created
  obtain ⟨inside, isEnd⟩ := Lexer.inside_of_drain drained
  obtain ⟨r, same, ready⟩ := exists_isReady created lenient predefines source name
  obtain ⟨journal, session⟩ := ready.session
  obtain ⟨conditions, counter, -⟩ := isNew.predefined predefines
  let main : Frame :=
    { lexer := .ofSource source ⟨name, name, 1⟩ setup.config.language false
      path := name, canonical := setup.files.canonical name, searchIndex := none
      includeDepth := 0, conditionDepth := 0, isPreamble := false }
  have isOpen : r.frames = [main] := by
    rw [ready.frames]
    simp only [mainReader, Reader.openFrame, isNew.number, isNew.closed, isNew.unconditional]
    rfl
  refine ⟨r, same, ready.idle, ready.ok, ?_, ?_, ?_, inside, noDirective, isEnd,
    .inl ⟨main, isOpen, rfl, rfl, drained⟩⟩
  · rw [session]
    exact congrArg ConditionStack.frames conditions
  · rw [session, ready.baseFile]
    rfl
  · rw [session]
    exact counter

/-- The next token depends on what is pulled and not on how. -/
theorem next_congr (running : p.reader.status = .ok) (running' : q.reader.status = .ok)
    (waiting : p.pending = []) (waiting' : q.pending = [])
    (pulled : p.reader.pull setup = q.reader.pull setup) : p.next setup = q.next setup := by
  have taken : p.take setup = q.take setup := by
    unfold take
    rw [waiting, waiting', pulled]
  have expanded : p.expandNext setup = q.expandNext setup := by
    generalize found : p.take setup = result at taken
    obtain ⟨site, after⟩ := result
    cases called : Head.called? after.reader.session.macros site with
    | none => rw [expandNext_of_none found called, expandNext_of_none taken.symm called]
    | some m => rw [expandNext_of_some found called, expandNext_of_some taken.symm called]
  rw [next_of_running (by simp [isAborted, running]), next_of_running (by simp [isAborted, running']),
    expanded]

/-- A token that names no macro stays, so a list of such tokens does. -/
theorem expandAll_of_unnamed (ctx : Context) {tokens : List Token} (inside : Inside tokens)
    (unnamed : ∀ token ∈ tokens, ctx.table.findToken? token = none) (s : State) :
    expandAll ctx tokens s = (tokens, s) := by
  refine expandAll_of_uncalled ctx inside (fun token member => ?_) s
  simp [Head.called?, unnamed token member]

/-- A main file without directives gives the tokens that the expansion of its tokens gives, under the
macros that the configuration leaves, and then its end; unless a pragma operator is among them. If
no token names a macro, the tokens are given as they are. -/
theorem processSource_eq_expandAll (created : create setup = .ok p)
    (lenient : setup.config.failFast = false) (untranslated : setup.config.trigraphs = false)
    {directives : List Directive} (predefines : setup.config.Predefines directives)
    {plain : List Token} {final : Token}
    (lexed : tokenize text (some ⟨name, name, 1⟩) setup.config.language = .ok (plain ++ [final]))
    (noDirective : ∀ token ∈ plain, Reader.startsDirective token = false)
    (noPragma : ∀ token ∈ (expandAll (p.predefinedContext setup directives name) plain {}).1,
      startsPragma token = false) :
    let output := (expandAll (p.predefinedContext setup directives name) plain {}).1
    (∃ q, p.openSource setup text name = .ok q
        ∧ ∀ n, output.length < n → (q.tokensWithin setup n).1 = output ++ [final])
      ∧ (output.length < greatestLength →
        ∃ result last, p.processSource setup text name = .ok (result, last)
          ∧ result.tokens = output ++ [final])
      ∧ ((∀ token ∈ plain,
          (p.predefinedContext setup directives name).table.findToken? token = none) →
        output = plain) := by
  intro output
  have isNew := isNew_of_create created
  obtain ⟨source, decoded, drained⟩ := exists_source_of_tokenize lexed
  rw [← untranslated] at decoded
  have opened := isNew.openSource_eq decoded
  obtain ⟨r, pulled, supplies⟩ := exists_supplies created lenient predefines drained noDirective
  have holds : ({ reader := r } : Preprocessor).Holds setup (p.predefinedContext setup directives name)
      0 plain final := by
    refine ⟨⟨plain, supplies, rfl⟩, fun token member isEnd => ?_⟩
    rw [supplies.inside token member] at isEnd
    cases isEnd
  let q : Preprocessor := { p with reader := openPreamble setup (p.mainReader setup source name) }
  have ok : q.reader.status = .ok := by
    simp only [q, openPreamble]
    split <;> exact isNew.ok
  have reading (n : Nat) (enough : output.length < n) :
      (q.tokensWithin setup n).1 = output ++ [final] := by
    have given := tokensWithin_holds lenient (isNew.predefined predefines).2.2 holds noPragma enough
    cases n with
    | zero => cases enough
    | succ n =>
      have same : q.next setup = ({ reader := r } : Preprocessor).next setup :=
        next_congr ok supplies.ok isNew.pending rfl pulled
      rw [tokensWithin] at given ⊢
      rwa [same]
  refine ⟨⟨_, opened, reading⟩, fun short => ?_, fun unnamed => ?_⟩
  · rw [processSource, opened]
    exact ⟨_, _, rfl, reading greatestLength short⟩
  · exact congrArg Prod.fst (expandAll_of_unnamed _ supplies.inside unnamed {})

/-! A main file with a call across two lines and a call that its end cuts off, after the definition of
the macro that is called. -/

/-- A macro is defined first, and no others are. -/
def callingSetup : Setup where
  config := { standardMacros := false, definitions := [("F(x)".toList, "[x]".toList)] }

/-- The line of the definition. -/
def callingLine : Directive :=
  let lexer := callingSetup.config.preambleLexer
  (lexer.next.2.directive lexer.next.1).1

/-- The text of the main file. -/
def callingText : List Char :=
  "F (\ny) F (z\n".toList

/-- The end of the main file. -/
def callingEnd : Token :=
  { Token.endOfFile ⟨['m'], ['m'], 1⟩ 3 0 12 with afterSpace := true }

/-- The tokens of the main file in front of its end. -/
def callingTokens : List Token :=
  match tokenize callingText (some ⟨['m'], ['m'], 1⟩) callingSetup.config.language with
  | .ok tokens => tokens.dropLast
  | .error _ => []

theorem callingSetup_predefines : callingSetup.config.Predefines [callingLine] := by
  let lexer := callingSetup.config.preambleLexer
  have line : lexer.next.1.isEnd = false ∧ Reader.startsDirective lexer.next.1 = true
      ∧ callingLine.kind = .define
      ∧ (lexer.next.2.directive lexer.next.1).2.next.1.isEnd = true := by
    decide +kernel
  obtain ⟨more, starts, kind, ends⟩ := line
  refine ⟨by simp [kind], (lexer.next.2.directive lexer.next.1).2, _, _, ?_, Lexer.item_of_isEnd ends⟩
  exact .directive (Lexer.item_of_startsDirective more starts) (.done _)

/-- The first call is replaced although its argument is on the next line, and the tokens of the second
are given as they were. -/
theorem processSource_eq_expandAll_calls :
    ∃ result last,
      processSource callingSetup Reader.freshRun callingText ['m'] = .ok (result, last)
        ∧ result.tokens.map (·.lexeme) = [['['], ['y'], [']'], ['F'], ['('], ['z'], []] := by
  let ctx := predefinedContext callingSetup Reader.freshRun [callingLine] ['m']
  have lexed : tokenize callingText (some ⟨['m'], ['m'], 1⟩) callingSetup.config.language
      = .ok (callingTokens ++ [callingEnd]) := by
    decide +kernel
  have noDirective : ∀ token ∈ callingTokens, Reader.startsDirective token = false := by
    decide +kernel
  obtain ⟨output, halts, lexemes, noPragma⟩ :
      ∃ output ∈ Machine.result? ((Machine.step ctx)^[40] (Machine.start callingTokens {})),
        output.map (·.lexeme) = [['['], ['y'], [']'], ['F'], ['('], ['z']]
          ∧ ∀ token ∈ output, startsPragma token = false := by
    decide +kernel
  have expands : (expandAll ctx callingTokens {}).1 = output :=
    Machine.expandAll_of_result? halts
  have given := (processSource_eq_expandAll (p := Reader.freshRun) rfl rfl rfl
    callingSetup_predefines lexed noDirective (by rwa [expands])).2.1
  have few : output.length = 6 := by
    simpa using congrArg List.length lexemes
  rw [expands, few] at given
  obtain ⟨result, last, processed, tokens⟩ := given (by decide)
  refine ⟨result, last, processed, ?_⟩
  rw [tokens, List.map_append, lexemes]
  rfl

end Preprocessor

end CPreprocessor
