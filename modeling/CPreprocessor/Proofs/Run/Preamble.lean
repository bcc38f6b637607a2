/-
# Predefined macros one by one

The macros that the configuration defines and removes are written line by line into one
text, which is read before the main file. If each line that another one follows ends where
it ends on its own (`Text.EndsAlone`), that is, if it does not end with a backslash and no
comment and no raw string of it runs on, then the text makes of the macros what its lines
make of them as sources of their own, one after the other (`macros_before_main`).
-/
import CPreprocessor.Proofs.Directive.Macros
import CPreprocessor.Proofs.Places.Directive
import CPreprocessor.Proofs.Reading.Entries
import CPreprocessor.Proofs.Reading.Exchange
import CPreprocessor.Proofs.Run.FailFast
import CPreprocessor.Proofs.Run.Predefinitions

namespace CPreprocessor

/-! ## Definitions under a view -/

namespace MacroTable

variable {v : View}

theorem afterDefine_seen (spaces : v.space = true) (table : MacroTable) (args : List Token) :
    (table.seen v).afterDefine (args.map (Token.seen v)) = (table.afterDefine args).seen v := by
  cases args with
  | nil => rfl
  | cons name rest =>
    have allowed : allows (name.seen v) = allows name := rfl
    simp only [List.map_cons, afterDefine, allowed, Directive.readDefinition_seen spaces]
    by_cases allows : allows name = true
    · rw [if_pos allows, if_pos allows]
      cases Directive.readDefinition name rest with
      | error error => rfl
      | ok m => exact congrArg Prod.snd (define_seen table spaces m)
    · rw [if_neg allows, if_neg allows]

theorem afterUndef_seen (table : MacroTable) (args : List Token) :
    (table.seen v).afterUndef (args.map (Token.seen v)) = (table.afterUndef args).seen v := by
  cases args with
  | nil => rfl
  | cons name rest =>
    have allowed : allows (name.seen v) = allows name := rfl
    simp only [List.map_cons, afterUndef, allowed, Token.lexeme_seen, erase_seen]
    exact (apply_ite (seen v) _ _ _).symm

/-- Directives that look the same make tables that look the same. -/
theorem predefine_seen (spaces : v.space = true) {table table' : MacroTable} {d d' : Directive}
    (kind : d.kind = d'.kind) (args : d.args.map (Token.seen v) = d'.args.map (Token.seen v))
    (same : table.seen v = table'.seen v) :
    (table.predefine d).seen v = (table'.predefine d').seen v := by
  unfold predefine
  rw [kind]
  by_cases define : d'.kind = .define
  · rw [if_pos define, if_pos define, ← afterDefine_seen spaces, ← afterDefine_seen spaces, args, same]
  · rw [if_neg define, if_neg define, ← afterUndef_seen, ← afterUndef_seen, args, same]

end MacroTable

/-! ## The lines of the preamble -/

namespace Configuration

/-- The lines of the preamble. -/
def entries (config : Configuration) : List Text :=
  ((if config.standardMacros then standardDefinitions else []) ++ config.definitions).map
      (fun (name, value) => definitionLine name value)
    ++ config.removals.map removalLine

theorem flatten_entries (config : Configuration) : config.entries.flatten = config.preamble := by
  rw [entries, List.flatten_append, ← List.flatMap_def, ← List.flatMap_def]
  rfl

/-- No name holds the end of a line. -/
structure NamesInLine (config : Configuration) : Prop where
  definitions : ∀ entry ∈ config.definitions, '\n' ∉ entry.1 ∧ '\r' ∉ entry.1
  removals : ∀ name ∈ config.removals, '\n' ∉ name ∧ '\r' ∉ name

/-- Whatever the value is, it stays on its line. -/
theorem isEntry_definitionLine {name : Text} (value : Text) (inLine : '\n' ∉ name ∧ '\r' ∉ name) :
    (definitionLine name value).IsEntry := by
  let body : Text := (if value = [] then ['1'] else value).map fun c =>
    if c = '\n' || c = '\r' then ' ' else c
  have kept : '\n' ∉ body ∧ '\r' ∉ body := by
    refine ⟨fun member => ?_, fun member => ?_⟩
    all_goals
      obtain ⟨c, -, same⟩ := List.mem_map.mp member
      split at same <;> simp_all
  have line : definitionLine name value
      = '#' :: ("define".toList ++ ' ' :: (name ++ ' ' :: body)) ++ ['\n'] := by
    have word : "#define ".toList = '#' :: ("define".toList ++ [' ']) := by
      decide
    show "#define ".toList ++ name ++ ' ' :: body ++ ['\n'] = _
    simp only [word, List.cons_append, List.append_assoc, List.nil_append]
  refine ⟨"define".toList, by simp [Text.entryWords], _, line, ?_, ?_⟩
  · simp [inLine, kept]
  · simp [inLine, kept]

theorem isEntry_removalLine {name : Text} (inLine : '\n' ∉ name ∧ '\r' ∉ name) :
    (removalLine name).IsEntry :=
  ⟨"undef".toList, by simp [Text.entryWords], name, rfl, inLine.1, inLine.2⟩

theorem NamesInLine.isEntry {config : Configuration} (inLine : config.NamesInLine) :
    ∀ line ∈ config.entries, line.IsEntry := by
  have standard : ∀ entry ∈ standardDefinitions, '\n' ∉ entry.1 ∧ '\r' ∉ entry.1 := by
    decide
  intro line member
  obtain defines | removes := List.mem_append.mp member
  · obtain ⟨⟨name, value⟩, known, rfl⟩ := List.mem_map.mp defines
    refine isEntry_definitionLine value ?_
    obtain isStandard | isOwn := List.mem_append.mp known
    · split at isStandard
      · exact standard _ isStandard
      · cases isStandard
    · exact inLine.definitions _ isOwn
  · obtain ⟨name, known, rfl⟩ := List.mem_map.mp removes
    exact isEntry_removalLine (inLine.removals name known)

end Configuration

/-! ## Lines one by one -/

namespace Text

/-- Before other text the line ends where it ends on its own: it is not joined to what follows, and no
comment and no literal of it runs past its end. -/
def EndsAlone (language : Language) (line after : Text) : Prop :=
  ∃ part, (Source.ofDecoded false line).text = part ++ ['\n']
    ∧ stopsAt language part.length (Source.ofDecoded false (line ++ after)).text = true

/-- Each line that another one follows ends where it ends on its own. -/
def EndAlone (language : Language) : List Text → Prop
  | [] => True
  | [_] => True
  | line :: next :: more =>
    line.EndsAlone language (next :: more).flatten ∧ EndAlone language (next :: more)

/-- The line makes a directive that defines a macro or removes one. As a source of its own it makes one
that looks the same. -/
structure Makes (language : Language) (line : Text) (d : Directive) : Prop where
  kind : d.kind = .define ∨ d.kind = .undef
  looks : (Lexer.ofSource (.ofDecoded false line) .unknown language false).item.1.seen .blind
    = (Item.directive d).seen .blind

end Text

/-- An item that looks like a directive is one. -/
theorem Text.Makes.of_seen {language : Language} {line : Text} {d : Directive}
    (makes : line.Makes language d) {item : Item}
    (same : item.seen .blind = (Item.directive d).seen .blind) :
    ∃ d', item = .directive d' ∧ line.Makes language d' := by
  cases item with
  | token token => cases same
  | finish final => cases same
  | directive d' =>
    have kind : d'.kind = d.kind := by
      rw [← d'.kind_seen .blind, ← d.kind_seen .blind, (Item.directive.inj same : d'.seen _ = d.seen _)]
    exact ⟨d', rfl, by rw [kind]; exact makes.kind, makes.looks.trans same.symm⟩

/-- Directives that a line makes in two places do the same to macros that look the same. -/
theorem Text.Makes.predefine_seen {language : Language} {line : Text} {d d' : Directive}
    (makes : line.Makes language d) (makes' : line.Makes language d') {macros macros' : MacroTable}
    (same : macros.seen View.blind.spaced = macros'.seen View.blind.spaced) :
    (macros.predefine d).seen View.blind.spaced = (macros'.predefine d').seen View.blind.spaced := by
  have looks : d.seen .blind = d'.seen .blind := Item.directive.inj (makes.looks.symm.trans makes'.looks)
  refine MacroTable.predefine_seen rfl ?_ (congrArg Directive.args looks) same
  rw [← d.kind_seen .blind, ← d'.kind_seen .blind, looks]

theorem Text.kinds_of_makes {language : Language} {lines : List Text} {directives : List Directive}
    (makes : List.Forall₂ (Makes language) lines directives) :
    ∀ d ∈ directives, d.kind = .define ∨ d.kind = .undef := by
  induction makes with
  | nil => exact List.forall_mem_nil _
  | cons head _ ih => exact List.forall_mem_cons.mpr ⟨head.kind, ih⟩

theorem Text.IsEntry.not_hasMark {line : Text} (entry : line.IsEntry) : ¬Encoding.HasMark line := by
  obtain ⟨word, -, rest, rfl, -⟩ := entry
  rintro (mark | mark | mark)
  all_goals exact absurd (List.cons_prefix_cons.mp mark).1 (by decide)

theorem Text.IsEntry.isLines {line : Text} (entry : line.IsEntry) (after : Text) :
    line.IsLines after := by
  obtain ⟨word, -, rest, rfl, -⟩ := entry
  intro last isLast
  rw [List.getLast?_concat] at isLast
  cases isLast
  rfl

namespace Lexer

variable {l : Lexer} {language : Language}

/-- A lexer before an entry finds the directive of the entry, and then the end. -/
theorem IsBare.makes (bare : l.IsBare) (spoken : l.language = language)
    (splits : language.SplitsHash) (starts : l.atLineStart = true) (closed : l.openComment = false)
    {line : Text} (entry : line.IsEntry) (text : l.rest = (Source.ofDecoded false line).text) :
    ∃ d after final last, l.item = (.directive d, after) ∧ after.item = (.finish final, last)
      ∧ line.Makes language d := by
  subst spoken
  have holds : l.rest.HoldsEntry := by
    rw [text]
    exact entry.holdsEntry
  obtain ⟨d, after, final, last, here, finish, kind⟩ := bare.exists_item_entry splits starts holds
  have alike : Alike .blind (ofSource (.ofDecoded false line) .unknown l.language false) l :=
    { language := rfl
      skips := ⟨rfl, bare.skips⟩
      nothingPeeked := ⟨rfl, bare.fresh⟩
      rest := text.symm
      atLineStart := starts.symm
      afterSpace := nofun
      openComment := closed.symm
      file := rfl
      presented := rfl
      lineShift := nofun
      line := nofun
      column := nofun
      offset := nofun }
  have looks := alike.item.1
  rw [here] at looks
  exact ⟨d, after, final, last, here, finish, kind, looks⟩

/-- Entries that end where they end on their own are read one by one. -/
theorem IsBare.exists_reads_entries (splits : language.SplitsHash) {entries : List Text}
    (areEntries : ∀ line ∈ entries, line.IsEntry) (apart : Text.EndAlone language entries)
    (bare : l.IsBare) (spoken : l.language = language) (starts : l.atLineStart = true)
    (closed : l.openComment = false)
    (text : l.rest = (Source.ofDecoded false entries.flatten).text) :
    ∃ directives last final after, l.Reads (directives.map .directive) last
      ∧ last.item = (.finish final, after) ∧ List.Forall₂ (Text.Makes language) entries directives := by
  induction entries generalizing l with
  | nil =>
    have nothing : l.rest = [] := text.trans (Source.ofDecoded_nil false)
    exact ⟨[], l, _, _, .done l, item_of_isEnd (bare.isEnd_next (.inl nothing)), .nil⟩
  | cons line more ih =>
    obtain ⟨entry, areEntries⟩ := List.forall_mem_cons.mp areEntries
    cases more with
    | nil =>
      rw [List.flatten_cons, List.flatten_nil, List.append_nil] at text
      obtain ⟨d, after, final, last, here, finish, makes⟩ :=
        bare.makes spoken splits starts closed entry text
      exact ⟨[d], after, final, last, .directive here (.done _), finish, .cons makes .nil⟩
    | cons next more =>
      obtain ⟨⟨part, ends, stops⟩, apart⟩ := apart
      let later := (next :: more).flatten
      let n := (Source.ofDecoded false line).text.length
      have whole : l.rest = (Source.ofDecoded false line).text ++ (Source.ofDecoded false later).text := by
        rw [text, List.flatten_cons, Source.text_ofDecoded_append (entry.isLines later)]
      have within : l.Within (l.index + n) := by
        refine ⟨bare.skips, bare.fresh, closed, part, (Source.ofDecoded false later).text, ?_, ?_, ?_⟩
        · rw [whole, ends, List.append_assoc, List.singleton_append]
        · simp only [n, ends, List.length_append, List.length_singleton, Nat.add_assoc]
        · rw [spoken, text, List.flatten_cons]
          exact stops
      have own : (ofSource (.ofDecoded false line) .unknown language false).IsBare := ⟨rfl, rfl⟩
      obtain ⟨d, after, final, last, here, finish, makes⟩ := own.makes rfl splits rfl rfl entry rfl
      rw [← spoken] at here
      obtain ⟨items, behind, reads, looks, crossed⟩ := within.exists_alike_reads
        (.directive here (.done _)) finish starts
        (by rw [Nat.add_sub_cancel_left, whole, List.take_left])
      rw [Nat.add_sub_cancel_left] at crossed
      obtain ⟨item, rfl, same⟩ := List.map_eq_singleton_iff.mp looks
      obtain ⟨d', rfl, makes'⟩ := makes.of_seen same
      obtain ⟨directives, last', final', after', reads', finish', makes''⟩ :=
        ih areEntries apart (l := l.past n) ⟨bare.skips, bare.fresh⟩ spoken rfl closed (by
          show l.rest.drop n = _
          rw [whole, List.drop_left])
      obtain ⟨last'', reads'', same'⟩ :=
        reads'.exists_of_item (item_eq_of_skipGap bare.skips bare.fresh crossed)
      cases reads with
      | directive found none =>
        cases none
        exact ⟨d' :: directives, last'', final', after', .directive found reads'',
          same'.trans finish', .cons makes' makes''⟩

end Lexer

/-- The preamble consists of the directives that its lines make. -/
theorem Configuration.exists_predefines {config : Configuration} (splits : config.language.SplitsHash)
    (inLine : config.NamesInLine) (apart : Text.EndAlone config.language config.entries) :
    ∃ directives, config.Predefines directives
      ∧ List.Forall₂ (Text.Makes config.language) config.entries directives := by
  have bare : config.preambleLexer.IsBare := ⟨rfl, rfl⟩
  obtain ⟨directives, last, final, after, reads, finish, makes⟩ :=
    bare.exists_reads_entries splits inLine.isEntry apart rfl rfl rfl
      (by rw [config.flatten_entries]; rfl)
  exact ⟨directives, ⟨Text.kinds_of_makes makes, last, final, after, reads, finish⟩, makes⟩

/-! ## Lines as sources of their own -/

/-- The setup for a source that no macros are defined for, and that is read to its end. -/
def Setup.alone (setup : Setup) : Setup :=
  { setup with
    config :=
      { setup.config with
        standardMacros := false, definitions := [], removals := [], trigraphs := false
        failFast := false } }

namespace Preprocessor

variable {setup : Setup} {p q : Preprocessor}

/-- The run with other macros. -/
def withMacros (p : Preprocessor) (macros : MacroTable) : Preprocessor :=
  { p with reader := { p.reader with session := { p.reader.session with macros } } }

/-- What a run over the text, and nothing before it, makes of the macros. -/
def macrosAfter (setup : Setup) (p : Preprocessor) (macros : MacroTable) (text : Text) : MacroTable :=
  match (p.withMacros macros).processSource setup.alone text preambleName with
  | .ok (_, last) => last.reader.session.macros
  | .error _ => macros

/-- Where the end of the file is pulled, it is the next token, and the macros stay as they are. -/
theorem next_of_pull_isEnd (running : p.isAborted = false) (nothing : p.pending = [])
    (isEnd : (p.reader.pull setup).1.isEnd = true) :
    (p.next setup).1.isEnd = true
      ∧ (p.next setup).2.reader.session.macros = (p.reader.pull setup).2.session.macros := by
  have taken : p.take setup = ((p.reader.pull setup).1, { p with reader := (p.reader.pull setup).2 }) := by
    unfold take
    rw [nothing]
  have expanded := expandNext_of_none taken (called?_of_isEnd isEnd)
  rw [next_of_plain (by simp [running]) (by simp [expanded, startsPragma_of_isEnd isEnd]), expanded]
  have kept (r : Reader) : (r.checkAbort setup).session = r.session := by
    unfold Reader.checkAbort
    split <;> rfl
  unfold give
  split
  · refine ⟨Reader.finish_isEnd.1, ?_⟩
    have same := (Reader.finish_isEnd (r := (p.reader.pull setup).2.checkAbort setup)).2.2.2
    exact congrArg Session.macros (same.trans (kept _))
  · exact ⟨isEnd, congrArg Session.macros (kept _)⟩

/-- As a source of its own a line makes of the macros what its directive makes of them. -/
theorem IsNew.exists_macrosAfter (isNew : p.IsNew) (splits : setup.config.language.SplitsHash)
    {line : Text} (entry : line.IsEntry) (macros : MacroTable) :
    ∃ d, line.Makes setup.config.language d ∧ p.macrosAfter setup macros line = macros.predefine d := by
  let source := Source.ofDecoded false line
  let start := p.withMacros macros
  let r := start.mainReader setup.alone source preambleName
  let main : Frame :=
    { lexer := .ofSource source ⟨preambleName, preambleName, 1⟩ setup.config.language false
      path := preambleName, canonical := setup.files.canonical preambleName, searchIndex := none
      includeDepth := 0, conditionDepth := 0, isPreamble := false }
  have isOpen : r.frames = [main] := by
    simp only [r, start, main, withMacros, mainReader, Reader.openFrame, isNew.number, isNew.closed,
      isNew.unconditional]
    rfl
  have opened : start.openSource setup.alone line preambleName = .ok { start with reader := r } := by
    have decoded : Source.ofBytes line preambleName false = .ok source := by
      rw [Source.ofBytes, Encoding.decode_of_not_hasMark entry.not_hasMark]
    show start.openMain setup.alone (Source.ofBytes line preambleName false) preambleName = _
    have unopened : start.reader.opened = false := isNew.unopened
    rw [decoded, openMain, unopened]
    rfl
  have bare : main.lexer.IsBare := ⟨rfl, rfl⟩
  obtain ⟨d, after, final, last, here, finish, makes⟩ := bare.makes rfl splits rfl rfl entry rfl
  obtain ⟨journal, guards, status, ending, reads⟩ := Reader.reads_predefine setup.alone isOpen
    isNew.idle (congrArg ConditionStack.frames isNew.unconditional) rfl
    (List.forall_mem_singleton.mpr makes.kind) (.directive here (.done _)) finish
  have ok : r.status = .ok := isNew.ok
  have pulled := (reads.pull_eq rfl rfl (by rw [ok]; decide)).trans
    (Reader.pull_of_isFinished ⟨isNew.idle, .inl rfl⟩)
  let q : Preprocessor := { start with reader := r }
  have running : q.isAborted = false := by
    simp only [isAborted, q, ok]
    rfl
  have ends : (q.reader.pull setup.alone).1.isEnd = true := by
    rw [pulled]
    exact Reader.finish_isEnd.1
  obtain ⟨isEnd, same⟩ := next_of_pull_isEnd running isNew.pending ends
  refine ⟨d, makes, ?_⟩
  rw [macrosAfter, processSource, opened]
  show (q.tokensWithin setup.alone (greatestLength - 1 + 1)).2.reader.session.macros = _
  rw [tokensWithin_of_isEnd isEnd, same, pulled, Reader.finish_isEnd.2.2.2]
  exact d.macros_predefine _

/-- The directives of the preamble make of the macros what its lines make of them as sources of their
own, one after the other. -/
theorem IsNew.foldl_predefine_seen (isNew : p.IsNew) (splits : setup.config.language.SplitsHash)
    {lines : List Text} {directives : List Directive} (areEntries : ∀ line ∈ lines, line.IsEntry)
    (makes : List.Forall₂ (Text.Makes setup.config.language) lines directives) {s : Session}
    {macros : MacroTable} (same : s.macros.seen View.blind.spaced = macros.seen View.blind.spaced) :
    (directives.foldl Session.predefine s).macros.seen View.blind.spaced
      = (lines.foldl (p.macrosAfter setup) macros).seen View.blind.spaced := by
  induction makes generalizing s macros with
  | nil => exact same
  | @cons line d lines directives head _ ih =>
    obtain ⟨entry, areEntries⟩ := List.forall_mem_cons.mp areEntries
    obtain ⟨own, alone, after⟩ := isNew.exists_macrosAfter splits entry macros
    refine ih areEntries ?_
    rw [after, d.macros_predefine]
    exact head.predefine_seen alone same

/-- **Predefined macros take effect one by one.** A run that has opened its main file goes through the
preamble without a token and then stands before the main file, of which nothing is read. If each
entry ends where it ends on its own, the macros there look as if each entry had been read as a source
of its own, in order, with the macros that the entries before it leave. The first token that the run
pulls is the one that it pulls from there, unless it is to end with its first error. -/
theorem macros_before_main (created : create setup = .ok p)
    (splits : setup.config.language.SplitsHash) (inLine : setup.config.NamesInLine)
    (apart : Text.EndAlone setup.config.language setup.config.entries)
    {source : Except SourceError Source} {name : Text} (opened : p.openMain setup source name = .ok q) :
    ∃ text r, source = .ok text ∧ q.reader.Reads setup [] r
      ∧ r.frames = (p.mainReader setup text name).frames ∧ r.queued = []
      ∧ r.session.macros.seen View.blind.spaced
        = (setup.config.entries.foldl (p.macrosAfter setup) (MacroTable.addBuiltins {})).seen
            View.blind.spaced
      ∧ (q.reader.pull setup = r.pull setup
        ∨ setup.config.failFast = true
          ∧ ∃ ended : Reader, ended.status = .aborted ∧ q.reader.pull setup = ended.finish) := by
  have isNew := isNew_of_create created
  obtain ⟨text, rfl, rfl⟩ := isNew.openMain_eq_ok.mp opened
  obtain ⟨directives, predefines, makes⟩ := Configuration.exists_predefines splits inLine apart
  obtain ⟨r, reads, predefined⟩ := exists_isPredefined created predefines text name
  obtain ⟨journal, session⟩ := predefined.session
  have running : (openPreamble setup (p.mainReader setup text name)).status = .ok :=
    isNew.status_openPreamble text name
  refine ⟨text, r, rfl, reads, predefined.frames, predefined.idle, ?_, ?_⟩
  · rw [session]
    exact isNew.foldl_predefine_seen splits inLine.isEntry makes (by rw [isNew.macros])
  · cases strict : setup.config.failFast with
    | false => exact .inl (reads.pull_eq strict rfl (by rw [running]; decide))
    | true =>
      exact (reads.pull_eq_or_finished rfl (by rw [running]; decide)).imp_right fun ended => ⟨rfl, ended⟩

/-- Two macros are defined, one of them without a value, and one is removed. -/
def entriesSetup : Setup where
  config :=
    { standardMacros := false, definitions := [(['X'], ['1']), (['Y'], [])], removals := [['X']] }

theorem entriesSetup_endAlone :
    Text.EndAlone entriesSetup.config.language entriesSetup.config.entries := by
  refine ⟨⟨"#define X 1".toList, ?_⟩, ⟨"#define Y 1".toList, ?_⟩, trivial⟩
  · decide +kernel
  · decide +kernel

/-- The three lines are read one by one. -/
theorem macros_before_main_entriesSetup :
    ∃ (q : Preprocessor) (r : Reader), Reader.freshRun.openSource entriesSetup ['y', '\n'] ['m'] = .ok q
      ∧ q.reader.pull entriesSetup = r.pull entriesSetup
      ∧ r.session.macros.seen View.blind.spaced
        = (["#define X 1\n".toList, "#define Y 1\n".toList, "#undef X\n".toList].foldl
            (Reader.freshRun.macrosAfter entriesSetup) (MacroTable.addBuiltins {})).seen
              View.blind.spaced := by
  have opened : Reader.freshRun.openSource entriesSetup ['y', '\n'] ['m'] = .ok _ := rfl
  have inLine : entriesSetup.config.NamesInLine := ⟨by decide, by decide⟩
  have lines : entriesSetup.config.entries
      = ["#define X 1\n".toList, "#define Y 1\n".toList, "#undef X\n".toList] := by
    decide
  obtain ⟨text, r, -, -, -, -, same, pulled⟩ :=
    macros_before_main rfl (by decide) inLine entriesSetup_endAlone opened
  rw [lines] at same
  exact ⟨_, r, opened, pulled.resolve_right fun strict => absurd strict.1 (by decide), same⟩

end Preprocessor

end CPreprocessor
