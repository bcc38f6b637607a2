/-
# Text with line markers

The tokens of a run are written with line markers, and the text is preprocessed again. It
gives the same tokens, and the lines come back with their numbers and file names, as long as
the drift of the printer is nothing (`processSource_render`). A run over such a text carries
out the markers and gives the other tokens as they are (`tokensWithin_presents`).
-/
import CPreprocessor.Proofs.Lexing.Lines
import CPreprocessor.Proofs.Run.FailFast
import CPreprocessor.Proofs.Run.Predefinitions

namespace CPreprocessor

/-! ## Reading on -/

namespace Reader

/-- The reader is in its main file, and no other one is open. Nothing waits, everything counts, and
these macros are known. -/
structure IsReading (table : MacroTable) (r : Reader) (l : Lexer) : Prop where
  idle : r.queued = []
  ok : r.status = .ok
  unconditional : r.session.conditions.frames = []
  macros : r.session.macros = table
  frame : ∃ frame, r.frames = [frame] ∧ frame.includeDepth = 0 ∧ frame.conditionDepth = 0
    ∧ frame.lexer = l

variable {setup : Setup} {table : MacroTable} {r : Reader} {l after : Lexer}

theorem IsReading.isLive (reading : r.IsReading table l) : r.session.conditions.isLive = true := by
  have closed := reading.unconditional
  unfold ConditionStack.isLive
  rw [closed]

theorem IsReading.running (reading : r.IsReading table l) : r.status ≠ .aborted := by
  rw [reading.ok]
  decide

/-- A token without a spelling error is given. -/
theorem IsReading.pull_token (setup : Setup) (reading : r.IsReading table l) {token : Token}
    (here : l.item = (.token token, after)) (noError : token.error = none) :
    ∃ next, r.pull setup = (token, next) ∧ next.IsReading table after := by
  obtain ⟨frame, isOpen, top, level, rfl⟩ := reading.frame
  have stepped := (step_of_readToken setup reading.idle isOpen reading.running).trans
    (readToken_eq setup r frame [])
  rw [here] at stepped
  simp only [reading.isLive, if_true] at stepped
  refine ⟨_, pull_of_give stepped, ?_⟩
  rw [accept, reportSpelling, noError]
  exact ⟨reading.idle, reading.ok, reading.unconditional, reading.macros, _, rfl, top, level, rfl⟩

section Lenient

variable (lenient : setup.config.failFast = false)
include lenient

/-- A line marker is carried out. -/
theorem IsReading.pull_marker (applies : setup.config.appliesLines = true)
    (reading : r.IsReading table l) {d : Directive} {n : Nat} {name : Option Text}
    (here : l.item = (.directive d, after)) (kind : d.kind = .lineMarker)
    (read : LineArguments.read d.nameToken (d.nameToken :: d.args) = .ok (n, name)) :
    ∃ next : Reader, r.pull setup = next.pull setup
      ∧ next.IsReading table (after.presentLine n name) := by
  obtain ⟨frame, isOpen, top, level, rfl⟩ := reading.frame
  have stepped := (step_of_readToken setup reading.idle isOpen reading.running).trans
    (readToken_eq setup r frame [])
  have executed : d.execute setup r.place r.session = (.present n name, r.session) := by
    rw [Directive.execute, reading.isLive, Bool.true_or, if_pos rfl, Directive.carryOut, kind]
    simp only [Directive.presentLine, applies, Bool.not_true, Bool.false_eq_true, if_false,
      Directive.lineArguments, kind, if_true, read]
    split <;> rfl
  rw [here] at stepped
  simp only [afterDirective, executed, checkAbort_of_lenient lenient] at stepped
  exact ⟨_, pull_of_goOn stepped,
    reading.idle, reading.ok, reading.unconditional, reading.macros, _, rfl, top, level, rfl⟩

/-- At the end of the file its end is given. -/
theorem IsReading.pull_end (reading : r.IsReading table l) (ends : l.next.1.isEnd = true) :
    (r.pull setup).1.isEnd = true := by
  obtain ⟨frame, isOpen, top, level, rfl⟩ := reading.frame
  have drained : frame.lexer.drain.1 = [] ++ [frame.lexer.next.1] := by
    rw [Lexer.drain_eq, if_pos ends]
    rfl
  have supplies : r.Supplies setup _ r.session.expansion.counter [] frame.lexer.next.1 :=
    ⟨reading.idle, reading.ok, reading.unconditional, rfl, rfl, .nil, List.forall_mem_nil _, ends,
      .inl ⟨frame, isOpen, top, level, drained⟩⟩
  rw [(supplies.pull_nil lenient).1]
  exact ends

end Lenient

end Reader

namespace Preprocessor

variable {setup : Setup} {p : Preprocessor}

/-- A token that is pulled is given if it neither calls a macro nor starts a pragma operator. -/
theorem next_of_pull (lenient : setup.config.failFast = false) (waiting : p.pending = [])
    (running : p.reader.status = .ok) {token : Token} {r : Reader}
    (pulled : p.reader.pull setup = (token, r)) (called : Head.called? r.session.macros token = none)
    (plain : startsPragma token = false) :
    p.next setup = give token { p with reader := r } := by
  have taken : p.take setup = (token, { p with reader := r }) := by
    rw [take, waiting, pulled]
  have expanded := expandNext_of_none taken called
  rw [next_of_plain (by simp [isAborted, running]) (by rw [expanded, plain]; exact Bool.false_ne_true),
    expanded, checkAbort, Reader.checkAbort_of_lenient lenient]

/-- The tokens that a lexer presents are given, if they neither call macros nor start pragma operators,
and then the end of the file. -/
theorem tokensWithin_presents (lenient : setup.config.failFast = false)
    (applies : setup.config.appliesLines = true) {table : MacroTable} {l last : Lexer}
    {tokens : List Token} (presents : l.Presents tokens last) (ends : last.next.1.isEnd = true)
    (sound : ∀ token ∈ tokens, token.isEnd = false ∧ token.error = none
      ∧ Head.called? table token = none ∧ startsPragma token = false)
    (waiting : p.pending = []) (reading : p.reader.IsReading table l) {n : Nat}
    (enough : tokens.length < n) :
    ∃ final, final.isEnd = true ∧ (p.tokensWithin setup n).1 = tokens ++ [final] := by
  induction presents generalizing p n with
  | done l =>
    obtain ⟨n, rfl⟩ := Nat.exists_eq_add_of_lt enough
    have isEnd := reading.pull_end lenient ends
    have next := next_of_pull lenient waiting reading.ok rfl (called?_of_isEnd isEnd)
      (startsPragma_of_isEnd isEnd)
    have given : (p.next setup).1.isEnd = true := by
      rw [next, give]
      split
      · exact (finish_facts _).1
      · exact isEnd
    exact ⟨_, given, by rw [List.length_nil, Nat.zero_add, tokensWithin_of_isEnd given]; rfl⟩
  | @token l after last token tokens here more ih =>
    obtain ⟨⟨goesOn, noError, called, plain⟩, later⟩ := List.forall_mem_cons.mp sound
    obtain ⟨r, pulled, reading'⟩ := reading.pull_token setup here noError
    have next := next_of_pull lenient waiting reading.ok pulled
      (by rw [reading'.macros]; exact called) plain
    rw [give, if_neg (by simp [isAborted, reading'.ok])] at next
    cases n with
    | zero => cases enough
    | succ n =>
      obtain ⟨final, isEnd, given⟩ := ih (p := { p with reader := r }) ends later waiting reading'
        (Nat.lt_of_succ_lt_succ enough)
      refine ⟨final, isEnd, ?_⟩
      rw [tokensWithin_of_more (by rw [next]; exact goesOn), next, List.cons_append]
      exact congrArg (token :: ·) given
  | @marker l after last d line name tokens here kind read more ih =>
    obtain ⟨r, pulled, reading'⟩ := reading.pull_marker lenient applies here kind read
    obtain ⟨final, isEnd, given⟩ := ih (p := { p with reader := r }) ends sound waiting reading' enough
    refine ⟨final, isEnd, ?_⟩
    have same : p.next setup = ({ p with reader := r } : Preprocessor).next setup :=
      next_congr reading.ok reading'.ok waiting waiting pulled
    cases n with
    | zero => cases enough
    | succ n =>
      rw [tokensWithin] at given ⊢
      rwa [same]

end Preprocessor

/-! ## Names without a macro -/

/-- A macro that is there after definitions was there before them, or one of them defines its name. -/
theorem Session.mem_macros_predefine {directives : List Directive} {s : Session} {m : Macro}
    (known : m ∈ (directives.foldl predefine s).macros.macros) :
    m ∈ s.macros.macros ∨ ∃ d ∈ directives, d.args.head?.map Token.lexeme = some m.name := by
  induction directives generalizing s with
  | nil => exact .inl known
  | cons d more ih =>
    obtain before | ⟨later, member, named⟩ := ih known
    · obtain old | ⟨named, -⟩ := (s.redefines_predefine d).macros m before
      · exact .inl old
      · exact .inr ⟨d, List.mem_cons_self, named⟩
    · exact .inr ⟨later, List.mem_cons_of_mem _ member, named⟩

theorem MacroTable.name_of_mem_addBuiltins {m : Macro} (known : m ∈ (addBuiltins {}).macros) :
    m.name ∈ Builtin.all.map Builtin.name := by
  have builtin : ∀ m ∈ (addBuiltins {}).macros, m.name ∈ Builtin.all.map Builtin.name := by
    decide
  exact builtin m known

/-- A token whose name has no macro names none. -/
theorem MacroTable.findToken?_eq_none {table : MacroTable} {token : Token}
    (unnamed : token.isName = true → ∀ m ∈ table.macros, m.name ≠ token.lexeme) :
    table.findToken? token = none := by
  rw [findToken?]
  split
  · rename_i isName
    refine Option.eq_none_iff_forall_ne_some.mpr fun m found => ?_
    exact unnamed isName m (mem_of_find? found) (name_of_find? found)
  · rfl

namespace Configuration

/-- The names that mean something before a file defines any. -/
def reservedNames : List Text :=
  Preprocessor.pragmaOperator :: (standardDefinitions.map Prod.fst ++ Builtin.all.map Builtin.name)

/-- The line that defines the first of the standard macros. -/
def firstStandardLine : Directive × Lexer :=
  let lexer := ({} : Configuration).preambleLexer
  lexer.next.2.directive lexer.next.1

/-- The line that defines the second one. -/
def secondStandardLine : Directive × Lexer :=
  firstStandardLine.2.next.2.directive firstStandardLine.2.next.1

theorem predefines_standard :
    ({} : Configuration).Predefines [firstStandardLine.1, secondStandardLine.1] := by
  let lexer := ({} : Configuration).preambleLexer
  have lines : (lexer.next.1.isEnd = false ∧ Reader.startsDirective lexer.next.1 = true)
      ∧ (firstStandardLine.2.next.1.isEnd = false
        ∧ Reader.startsDirective firstStandardLine.2.next.1 = true)
      ∧ secondStandardLine.2.next.1.isEnd = true
      ∧ firstStandardLine.1.kind = .define ∧ secondStandardLine.1.kind = .define := by
    decide +kernel
  obtain ⟨⟨more, starts⟩, ⟨more', starts'⟩, ends, kind, kind'⟩ := lines
  refine ⟨by simp [kind, kind'], secondStandardLine.2, _, _, ?_, Lexer.item_of_isEnd ends⟩
  exact .directive (Lexer.item_of_startsDirective more starts)
    (.directive (Lexer.item_of_startsDirective more' starts') (.done _))

/-- The standard lines define names that are reserved. -/
theorem mem_reservedNames_of_standard {d : Directive}
    (member : d ∈ [firstStandardLine.1, secondStandardLine.1]) {name : Text}
    (named : d.args.head?.map Token.lexeme = some name) : name ∈ reservedNames := by
  have names : ∀ d ∈ [firstStandardLine.1, secondStandardLine.1],
      (d.args.head?.map Token.lexeme).all (reservedNames.contains ·) = true := by
    decide +kernel
  have one := names d member
  rw [named] at one
  exact List.contains_iff_mem.mp one

end Configuration

namespace Spelling

/-- Each token is on a line. -/
theorem exists_mem_lines {tokens : List Token} {token : Token} (present : token ∈ tokens) :
    ∃ line ∈ lines tokens, token ∈ line := by
  induction tokens using lines_induction with
  | nil => cases present
  | line first line more _ _ same ih =>
    rw [same]
    rw [← List.cons_append] at present
    obtain here | later := List.mem_append.mp present
    · exact ⟨_, List.mem_cons_self, here⟩
    · obtain ⟨found, member, inside⟩ := ih later
      exact ⟨found, List.mem_cons_of_mem _ member, inside⟩

end Spelling

/-! ## Text that is preprocessed again -/

namespace Preprocessor

open Spelling

variable {setup : Setup} {p : Preprocessor}

/-- Once the preamble is read, the main file is read from its start. -/
theorem IsReady.isReading (isNew : p.IsNew) {directives : List Directive}
    (predefines : setup.config.Predefines directives) {source : Source} {name : Text} {r : Reader}
    (ready : IsReady setup p directives source name r) :
    r.IsReading (directives.foldl Session.predefine p.reader.session).macros
      (.ofSource source ⟨name, name, 1⟩ setup.config.language false) := by
  obtain ⟨journal, session⟩ := ready.session
  refine ⟨ready.idle, ready.ok, ?_, by rw [session]; rfl, ?_⟩
  · rw [session]
    exact congrArg ConditionStack.frames (isNew.predefined predefines).1
  · rw [ready.frames]
    simp only [mainReader, Reader.openFrame, isNew.number, isNew.closed, isNew.unconditional]
    exact ⟨_, rfl, rfl, rfl, rfl⟩

/-- A main file whose tokens neither name macros nor start pragma operators gives them, and then its
end, and the line markers in it are carried out. -/
theorem exists_processSource_presents (created : create setup = .ok p)
    (lenient : setup.config.failFast = false) (applies : setup.config.appliesLines = true)
    {directives : List Directive} (predefines : setup.config.Predefines directives)
    {text name : Text} {source : Source}
    (decoded : Source.ofBytes text name setup.config.trigraphs = .ok source) {tokens : List Token}
    {last : Lexer}
    (presents : (Lexer.ofSource source ⟨name, name, 1⟩ setup.config.language false).Presents tokens last)
    (ends : last.next.1.isEnd = true)
    (sound : ∀ token ∈ tokens, token.isEnd = false ∧ token.error = none
      ∧ Head.called? (directives.foldl Session.predefine p.reader.session).macros token = none
      ∧ startsPragma token = false)
    (short : tokens.length < greatestLength) :
    ∃ result final q, final.isEnd = true ∧ p.processSource setup text name = .ok (result, q)
      ∧ result.tokens = tokens ++ [final] := by
  have isNew := isNew_of_create created
  obtain ⟨r, pulled, ready⟩ := exists_isReady created lenient predefines source name
  have reading := ready.isReading isNew predefines
  obtain ⟨final, isEnd, given⟩ := tokensWithin_presents (p := { p with reader := r }) lenient applies
    presents ends sound isNew.pending reading short
  let opened : Preprocessor := { p with reader := openPreamble setup (p.mainReader setup source name) }
  have running : opened.reader.status = .ok := isNew.status_openPreamble source name
  have same : opened.next setup = ({ p with reader := r } : Preprocessor).next setup :=
    next_congr running reading.ok isNew.pending isNew.pending pulled
  have given : (opened.tokensWithin setup greatestLength).1 = tokens ++ [final] := by
    obtain ⟨n, enough⟩ := Nat.exists_eq_add_of_lt short
    rw [enough, tokensWithin] at given ⊢
    rwa [same]
  rw [processSource, isNew.openSource_eq decoded]
  exact ⟨_, final, _, isEnd, rfl, given⟩

/-- A name that is not reserved has no macro after the standard definitions. -/
theorem findToken?_standard (created : create setup = .ok p) {token : Token}
    (unnamed : token.isName = true → token.lexeme ∉ Configuration.reservedNames) :
    ([Configuration.firstStandardLine.1, Configuration.secondStandardLine.1].foldl Session.predefine
      p.reader.session).macros.findToken? token = none := by
  refine MacroTable.findToken?_eq_none fun isName m known same => unnamed isName ?_
  obtain old | ⟨d, member, named⟩ := Session.mem_macros_predefine known
  · rw [(isNew_of_create created).macros] at old
    rw [← same]
    exact List.mem_cons_of_mem _ (List.mem_append_right _ (MacroTable.name_of_mem_addBuiltins old))
  · exact Configuration.mem_reservedNames_of_standard member (same ▸ named)

/-- Tokens that are written with line markers come back when the text is preprocessed as a main file,
with the same kinds and lexemes. The first token of each line comes back under the name of its file,
and on its line as far as the printer has kept up with the line feeds it wrote (`drifts`); so it
comes back on its own line if each line has a number of its own. For the numbers the text has to have
fewer than `2 ^ 32` lines. -/
theorem processSource_render (created : create setup = .ok p) (standard : setup.config = {})
    {tokens : List Token} {ending : Token} (isEnd : ending.isEnd = true)
    (legible : ∀ line ∈ lines tokens, IsLegible line)
    (unnamed : ∀ token ∈ tokens, token.isName = true →
      token.lexeme ∉ Configuration.reservedNames)
    (short : tokens.length < greatestLength) (name : Text) :
    ∃ result last back final,
      p.processSource setup (render true (tokens ++ [ending])) name = .ok (result, last)
        ∧ result.tokens = back ++ [final] ∧ final.isEnd = true
        ∧ back.map Token.word = tokens.map Token.word
        ∧ List.Forall₂ (fun sent found =>
            ComesBack (render true (tokens ++ [ending])).CountsLines sent.1 sent.2 found)
          (tokens.zip (({ markers := true } : Printer).drifts 0 tokens)) back
        ∧ (HasOwnLines tokens →
          List.Forall₂ (ComesBack (render true (tokens ++ [ending])).CountsLines · 0 ·) tokens back) := by
  have inside : ∀ token ∈ tokens, token.isEnd = false := by
    intro token present
    obtain ⟨line, isLine, onLine⟩ := exists_mem_lines present
    exact ((legible line isLine).writable token onLine).isEnd
  have written : render true (tokens ++ [ending]) = ({ markers := true } : Printer).write tokens :=
    Printer.write_append_end inside isEnd
  rw [written]
  generalize isText : ({ markers := true } : Printer).write tokens = text
  -- The text is its own source, and a lexer at its start presents the tokens.
  have plain : text.IsPlain := isText ▸ Printer.isPlain_write legible rfl fun _ _ => .inl rfl
  have noMark : ¬ Encoding.HasMark text := isText ▸ Printer.not_hasMark_write inside
  have decoded : Source.ofBytes text name setup.config.trigraphs = .ok (.ofDecoded false text) := by
    rw [Source.ofBytes, Encoding.decode_of_not_hasMark noMark, standard]
  have stands := Lexer.standsAfter_ofSource plain ⟨name, name, 1⟩
  have precedes : ∀ token ∈ tokens.head?, ({ markers := true } : Printer).Precedes text
      (.ofSource (.ofDecoded false text) ⟨name, name, 1⟩ .standard false) 0 token :=
    fun _ _ => ⟨rfl, .inl ⟨rfl, rfl, rfl⟩⟩
  obtain ⟨back, last, presents, ends, words, sound, found⟩ :=
    stands.presents_write legible precedes ((Source.text_ofDecoded_plain plain).trans isText.symm)
  have quiet : ∀ token ∈ back, token.isEnd = false ∧ token.error = none
      ∧ Head.called? ([Configuration.firstStandardLine.1, Configuration.secondStandardLine.1].foldl
        Session.predefine p.reader.session).macros token = none
      ∧ startsPragma token = false := by
    intro token present
    obtain ⟨sent, isSent, word⟩ : ∃ sent ∈ tokens, sent.word = token.word :=
      List.mem_map.mp (words ▸ List.mem_map_of_mem present)
    have kind : sent.kind = token.kind := congrArg Prod.fst word
    have lexeme : sent.lexeme = token.lexeme := congrArg Prod.snd word
    have notReserved := unnamed sent isSent
    rw [Token.isName, kind, lexeme] at notReserved
    refine ⟨?_, sound token present, ?_, ?_⟩
    · have more := inside sent isSent
      rwa [Token.isEnd, kind] at more
    · rw [Head.called?, findToken?_standard created notReserved]
      split <;> rfl
    · rw [Bool.eq_false_iff]
      intro starts
      simp only [startsPragma, Token.isNamed, Bool.and_eq_true, beq_iff_eq] at starts
      refine notReserved starts.1.1 ?_
      rw [starts.1.2]
      exact List.mem_cons_self
  have sameLength : back.length = tokens.length := by
    rw [← List.length_map Token.word, words, List.length_map]
  obtain ⟨result, final, q, final', processed, given⟩ := exists_processSource_presents created
    (by rw [standard]) (by rw [standard]) (by rw [standard]; exact Configuration.predefines_standard)
    decoded (by rw [standard]; exact presents) ends quiet (by rwa [sameLength])
  refine ⟨result, q, back, final, processed, given, final', words, found, fun own => ?_⟩
  have onTime := Printer.drifts_eq_zero own inside (p := { markers := true }) rfl
    fun _ _ => .inl ⟨rfl, rfl⟩
  exact comesBack_of_onTime onTime (Printer.length_drifts _ _ _) found

/-! Two words that line directives put on the same line. -/

/-- A word at the start of the fifth line. -/
def fifthLineWord : Token :=
  { kind := .identifier, lexeme := ['x'], file := ⟨['m'], ['m'], 1⟩, line := 5, atLineStart := true }

theorem isLegible_fifthLineWord : IsLegible [fifthLineWord] := by
  have noMark : ¬ Encoding.HasMark ['x'] := by
    simp [Encoding.HasMark]
  have areBytes : Text.IsBytes ['x'] := List.forall_mem_singleton.mpr (by decide)
  have producible : IsProducible (.identifier, ['x']) :=
    isProducible_of_read areBytes (by decide) (by decide) noMark (by decide) rfl rfl
  have writable : fifthLineWord.IsWritable :=
    ⟨producible, by decide, by decide, by decide, by decide, noMark⟩
  have markable : Text.IsMarkable ['m'] := by
    constructor <;> decide
  refine ⟨List.forall_mem_singleton.mpr writable, by simp [PointsMeet, PointsStart], ?_, ?_, ?_, ?_⟩
  · rintro _ ⟨⟩
    decide
  · rintro _ ⟨⟩
    rfl
  · rintro _ ⟨⟩
    exact markable
  · rintro _ ⟨⟩
    simp [fifthLineWord, LineArguments.greatestLine]

/-- The second word comes back on the line after. -/
theorem processSource_render_fifthLine :
    ∃ result last back final,
      processSource {} Reader.freshRun
          (render true ([fifthLineWord, fifthLineWord] ++ [Token.endOfFile .unknown 6 0 0])) ['m']
        = .ok (result, last)
        ∧ result.tokens = back ++ [final] ∧ final.isEnd = true
        ∧ back.map (fun token => (token.word, token.line))
          = [((.identifier, ['x']), 5), ((.identifier, ['x']), 6)] := by
  have ownLines : lines [fifthLineWord, fifthLineWord] = [[fifthLineWord], [fifthLineWord]] := by
    simp [lines, staysOnLine, fifthLineWord]
  have legible : ∀ line ∈ lines [fifthLineWord, fifthLineWord], IsLegible line := by
    rw [ownLines]
    simp [isLegible_fifthLineWord]
  have unnamed : ∀ token ∈ [fifthLineWord, fifthLineWord], token.isName = true →
      token.lexeme ∉ Configuration.reservedNames := by
    decide
  obtain ⟨result, last, back, final, processed, given, isEnd, words, found, -⟩ :=
    processSource_render (rfl : create {} = .ok Reader.freshRun) rfl
      (rfl : (Token.endOfFile .unknown 6 0 0).isEnd = true) legible unnamed (by decide) ['m']
  have drifts : ({ markers := true } : Printer).drifts 0 [fifthLineWord, fifthLineWord] = [0, 1] := by
    decide
  have counts : (render true ([fifthLineWord, fifthLineWord]
      ++ [Token.endOfFile .unknown 6 0 0])).CountsLines := by
    unfold Text.CountsLines
    decide +kernel
  rw [drifts] at found
  refine ⟨result, last, back, final, processed, given, isEnd, ?_⟩
  cases found with
  | cons first found =>
    cases found with
    | cons second found =>
      cases found
      rw [List.map_cons, List.map_cons, List.map_nil, first.word, second.word, first.line counts rfl,
        second.line counts rfl]
      rfl

end Preprocessor

end CPreprocessor
