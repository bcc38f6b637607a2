/-
# Including a header is reading its lines

A main file that includes a header gives the words that it gives with the lines of the
header in place of the include, and it leaves the same names defined
(`words_including`). The two runs are twins if guarded headers are read again in the second one
(`twins_inlined`), and whether they are makes no difference (`twins_skipping`).
Twins show the same of all macros that are called. A macro that asks for a place, `__LINE__` or
another one, is not called if its name is none of the words that the first run comes to know. A
`Vocabulary` holds these words: the condition is one on the words of the texts, and on what can be
pasted of them. What marks a file or looks for a header next to it depends on what file it stands
in: there the words may differ (`not_words_including_marked`).
-/
import CPreprocessor.Proofs.Run.HeaderLines
import CPreprocessor.Proofs.Run.Playing

namespace CPreprocessor

/-- The names of the macros that ask for places. -/
def placeNames : List Text :=
  [Builtin.name .line, Builtin.name .file, Builtin.name .includeLevel]

theorem not_begins_placeName {c : Char} (other : c ≠ '_') (rest : Text) {name : Text}
    (place : name ∈ placeNames) : ¬c :: rest <+: name := by
  have underscore : ∀ name ∈ placeNames, name.head? = some '_' := by decide
  rintro ⟨more, rfl⟩
  exact other (Option.some.inj (underscore _ place))

/-- A number is no beginning of a name. -/
theorem not_begins_placeName_ofNat (n : Nat) {name : Text} (place : name ∈ placeNames) :
    ¬Text.ofNat n <+: name := by
  obtain ⟨c, rest, split⟩ := List.exists_cons_of_ne_nil (Text.ofNat_ne_nil n)
  have digit : c.isDigit = true := Text.isDigit_of_mem_ofNat c (split ▸ List.mem_cons_self)
  rw [split]
  exact not_begins_placeName (by rintro rfl; cases digit) rest place

namespace Vocabulary

/-- The words that are no names of macros that ask for places. They are enough if nothing is pasted. -/
def placeless : Vocabulary where
  has word := word ∉ placeNames
  pastes := false
  append := nofun
  number n place := not_begins_placeName_ofNat n place List.prefix_rfl
  quoted text place := not_begins_placeName (by decide) text place List.prefix_rfl

/-- The words with which no name of a macro that asks for places begins. Pasting makes no such name of
them. -/
def pasteable : Vocabulary where
  has word := ∀ name ∈ placeNames, word ≠ [] → ¬word <+: name
  pastes := true
  append _ left right one two name place nonempty begins := by
    cases left with
    | nil => exact two name place nonempty begins
    | cons c left =>
      exact one name place (List.cons_ne_nil c left) ((List.prefix_append _ _).trans begins)
  number n _ place _ := not_begins_placeName_ofNat n place
  quoted text _ place _ := not_begins_placeName (by decide) text place

instance : DecidablePred placeless.has :=
  inferInstanceAs (DecidablePred fun word : Text => word ∉ placeNames)

instance : DecidablePred pasteable.has :=
  inferInstanceAs (DecidablePred fun word : Text => ∀ name ∈ placeNames, word ≠ [] → ¬word <+: name)

end Vocabulary

namespace Preprocessor

/-- The names that are defined after `n` tokens. -/
def defines (setup : Setup) (n : Nat) (p : Preprocessor) (name : Text) : Bool :=
  (p.tokensWithin setup n).2.reader.session.macros.isDefined name

variable {setup : Setup} {known : Vocabulary} {i : Inlining} {wanted : IncludeName} {header : Header}
  {name : Text} {p q q' : Preprocessor}

/-- The main file stands below the preamble, if there is one. -/
theorem isRooted_openMain {source : Source} (isNew : p.IsNew) :
    (openPreamble setup (p.mainReader setup source name)).IsRooted setup name := by
  have main : (p.mainReader setup source name).IsRooted setup name := by
    simp only [mainReader, Reader.openFrame, isNew.closed, isNew.number]
    refine ⟨Nat.one_lt_two, by simp, fun frame last => ?_⟩
    cases last
    exact ⟨rfl, rfl, rfl, rfl, rfl⟩
  unfold openPreamble
  simp only []
  split
  · exact main
  · refine main.opens ?_ rfl rfl rfl
    simp [mainReader, Reader.openFrame]

/-- The readers start in step, with the same files open. -/
theorem inStep_openMain (created : create setup = .ok p) (fits : i.Fits setup name wanted header) :
    (openPreamble setup (p.mainReader setup i.including name)).InStep setup known i header name
      (openPreamble setup (p.mainReader setup i.inlined name)) := by
  have isNew := isNew_of_create created
  have opening : p.openMain setup (.ok i.including) name = .ok _ :=
    isNew.openMain_eq_ok.mpr ⟨_, rfl, rfl⟩
  have opening' : p.openMain (setup.skipping false) (.ok i.inlined) name = .ok _ :=
    isNew.openMain_eq_ok.mpr ⟨_, rfl, rfl⟩
  have parts := Lexer.inlined_ofSource fits.toIsProper ⟨name, name, 1⟩
  rw [fits.language] at parts
  have mains : List.Forall₂ (Frame.Alike (.words setup known true) (Lexer.SameWords i))
      (p.mainReader setup i.including name).frames (p.mainReader setup i.inlined name).frames := by
    simp only [mainReader, Reader.openFrame, isNew.closed, isNew.number]
    exact .cons ⟨.inr ⟨rfl, parts⟩, rfl, rfl, rfl, rfl, rfl, rfl, rfl, (absurd · Bool.false_ne_true)⟩ .nil
  have consistent' : Reader.Consistent (setup.skipping false) _ :=
    @Reader.consistent_openMain (setup.skipping false) _ _ _ _ created opening'
  refine ⟨Reader.consistent_openMain created opening, consistent',
    isRooted_openMain isNew, ?_, ?_, .inl ⟨?_, ?_⟩⟩
  all_goals
    unfold openPreamble
    simp only []
    split
  any_goals rfl
  · exact mains
  · exact .cons ⟨.inl (Lexer.alike_ofSource _ _ rfl), rfl, rfl, rfl, rfl, rfl, rfl, rfl,
      (absurd · Bool.false_ne_true)⟩ mains

/-- A new run has no answers. -/
theorem isSound_of_create (created : create setup = .ok p) :
    p.reader.session.resolver.IsSound setup.files setup.config.searchPath := by
  unfold create Cache.empty? at created
  split at created
  · cases created
    exact ⟨rfl, [], nofun, Cache.isLinked_empty _, nofun⟩
  · cases created

/-- The readers start in step and show the same words, if the first one's macros ask for nothing that is
hidden. -/
theorem inlines_openMain (created : create setup = .ok p) (fits : i.Fits setup name wanted header)
    (opening : p.openMain setup (.ok i.including) name = .ok q)
    (opening' : p.openMain setup (.ok i.inlined) name = .ok q')
    (clear : q.reader.session.macros.IsClear (.words setup known false)) :
    q.reader.Inlines setup known i header name q'.reader := by
  have isNew := isNew_of_create created
  have sound := isSound_of_create created
  have session {source : Source} : (openPreamble setup (p.mainReader setup source name)).session
      = p.reader.session := by
    unfold openPreamble
    simp only []
    split <;> rfl
  have others {source : Source} : (openPreamble setup (p.mainReader setup source name)).status
        = p.reader.status
      ∧ (openPreamble setup (p.mainReader setup source name)).ending = p.reader.ending
      ∧ (openPreamble setup (p.mainReader setup source name)).baseFile = name := by
    unfold openPreamble
    simp only []
    split <;> exact ⟨rfl, rfl, rfl⟩
  obtain ⟨_, same, rfl⟩ := isNew.openMain_eq_ok.mp opening
  cases same
  obtain ⟨_, same, rfl⟩ := isNew.openMain_eq_ok.mp opening'
  cases same
  obtain ⟨t, shows⟩ := Session.Shows.exists_shows (View.words setup known false).spaced p.reader.session
    fun files searchPath kept => by
      cases kept
      exact sound
  refine ⟨⟨?_, clear, others.1.trans others.1.symm, ?_, others.2.2.trans others.2.2.symm⟩,
    .inr (inStep_openMain created fits)⟩
  · simp only [session]
    exact ⟨t, shows, shows⟩
  · simp only [others.2.1]

theorem pending_openMain (created : create setup = .ok p) {source : Except SourceError Source}
    (opening : p.openMain setup source name = .ok q) : q.pending = [] := by
  have isNew := isNew_of_create created
  obtain ⟨_, -, rfl⟩ := isNew.openMain_eq_ok.mp opening
  exact isNew.pending

/-- The first reader of a run is passed. -/
theorem passes_openMain (created : create setup = .ok p) {source : Except SourceError Source}
    (opening : p.openMain setup source name = .ok q) : q.Passes setup q.reader := by
  have isNew := isNew_of_create created
  have nothing := pending_openMain created opening
  obtain ⟨text, -, rfl⟩ := isNew.openMain_eq_ok.mp opening
  refine .next (.expanding ?_ (.taking nothing (.here _)))
  have running : (openPreamble setup (p.mainReader setup text name)).status = p.reader.status := by
    unfold openPreamble
    simp only []
    split <;> rfl
  rw [isAborted, running, isNew.ok]
  rfl

/-- Including a header gives the words of its lines. In a run that goes on after errors, let a main file
include a header that is found, is not the main file and can be included in it, and let another main
file have the lines of the header in place of the include. The lines include nothing, and before, in
and after them no comment, no raw string and no joined line is left open, and no conditional in
them. Then both files give the same words and leave the same names defined, on these conditions:

- No macro of the first run makes strings of its arguments, and the words of this run are those of a
  vocabulary without the names of the macros that ask for places: the tokens and the words of directives
  that it reads, its replacement lists, and the strings of the pragma operators that it carries out.
- Up to where the first run has passed the line, the header is not marked to be read only once, and no
  directive of it looks for a header.
- No file that the first run reads stands in a directory with a bar in its name, for there another
  question for a header has the same key.
- The headers that either run enters stand where they have been found. -/
theorem words_including (created : create setup = .ok p) (lenient : setup.config.failFast = false)
    (proper : setup.files.IsProper) (fits : i.Fits setup name wanted header)
    (opening : p.openMain setup (.ok i.including) name = .ok q)
    (opening' : p.openMain setup (.ok i.inlined) name = .ok q')
    (can : ∀ r, q.Passes setup r → r.CanInline setup known i header)
    (applies : ∀ args, q.Applies setup args → ∀ token ∈ args, known.has token.lexeme)
    (found : ∀ r, q'.Passes setup r → r.EntersFound setup) (n : Nat) :
    (q.tokensWithin setup n).1.map Token.word = (q'.tokensWithin setup n).1.map Token.word
      ∧ ∀ word, q.defines setup n word = q'.defines setup n word := by
  have nothing := pending_openMain created opening
  have nothing' := pending_openMain created opening'
  have clear := (can _ (passes_openMain created opening)).clear
  have inlined := (Reader.twins_inlined fits lenient proper).tokensWithin
    ⟨inlines_openMain created fits opening opening' clear, by rw [nothing, nothing'],
      by rw [nothing]; exact List.forall_mem_nil _⟩ can applies n
  have unnumbered := View.isClear_unnumbered
  have skipped := (Reader.twins_skipping lenient proper).tokensWithin
    ⟨Reader.looksThrough_openMain created opening', rfl, unnumbered.speaks _⟩ found
      (fun args _ => unnumbered.speaks args) n
  refine ⟨?_, fun word => ?_⟩
  · calc (q.tokensWithin setup n).1.map Token.word
        = (q'.tokensWithin (setup.skipping false) n).1.map Token.word :=
        Token.words_of_seen inlined.1
      _ = (q'.tokensWithin setup n).1.map Token.word := (Token.words_of_seen skipped.1).symm
  · calc q.defines setup n word
        = q'.defines (setup.skipping false) n word := inlined.2.1.session.isDefined word
      _ = q'.defines setup n word := (skipped.2.2.session.isDefined word).symm

/-! ## Runs with one header -/

/-- No macros are defined first, no name is a keyword, and there is a header `h`. -/
def headerSetup (lines : Text) : Setup :=
  { plainSetup with files := { entries := [([['h']], .file lines)] } }

/-- A main file with the line `#include "h"`. -/
def headerLine (before lines after : Text) : Inlining where
  trigraphs := false
  language := .ofWords [] []
  before
  line := "#include \"h\"\n".toList
  lines
  after

/-- The run that has opened a main file `m`. -/
def headerRun (lines : Text) (source : Source) : Preprocessor where
  reader := Reader.freshRun.mainReader (headerSetup lines) source ['m']

theorem openMain_header (lines : Text) (source : Source) :
    Reader.freshRun.openMain (headerSetup lines) (.ok source) ['m'] = .ok (headerRun lines source) := by
  have created : create (headerSetup lines) = .ok Reader.freshRun := rfl
  have noPreamble : (headerSetup lines).config.preamble = [] := rfl
  rw [(isNew_of_create created).openMain_eq_ok]
  refine ⟨source, rfl, ?_⟩
  rw [openPreamble]
  simp only [noPreamble, if_true]
  rfl

/-! A header in which a call ends that begins before it, and another one begins that ends after it. -/

def callLines : Inlining :=
  headerLine "#define F(x) a##x\nF (\n".toList "b\n#define G c\n)\nF (\n".toList "d)\nG\n".toList

/-- The header `h`. -/
def foundHeader : Header :=
  ⟨"h".toList, "/h".toList, none⟩

theorem callLines_fits :
    callLines.Fits (headerSetup callLines.lines) ['m'] ⟨"h".toList, .quoted, 1⟩ foundHeader := by
  have line : OwnLines false (.ofWords [] []) callLines.line callLines.after :=
    { ends := by decide +kernel
      last := .inr ⟨"#include \"h\"".toList, by decide +kernel, by decide +kernel⟩
      nested := Lexer.IsNested.of_closes (n := 9) (by decide +kernel) }
  have lines : OwnLines false (.ofWords [] []) callLines.lines callLines.after :=
    { ends := by decide +kernel
      last := .inr ⟨"b\n#define G c\n)\nF (".toList, by decide +kernel, by decide +kernel⟩
      nested := Lexer.IsNested.of_closes (n := 9) (by decide +kernel) }
  exact {
    line, lines
    includes := Lexer.exists_of_includes (by decide +kernel)
    nonempty := by decide
    flat := fun items last d reads => reads.flat_of_includesNothing (n := 9) (by decide +kernel) d
    before := fun _ => ⟨{ line with
      starts := by decide +kernel
      first := ⟨"#define F(x) a##x\nF (".toList, by decide +kernel, by decide +kernel⟩ }, { lines with
      starts := by decide +kernel
      first := ⟨"#define F(x) a##x\nF (".toList, by decide +kernel, by decide +kernel⟩ }⟩
    trigraphs := rfl
    language := rfl
    found := by decide +kernel
    holds := rfl
    notMain := by decide +kernel
    deep := by decide }

theorem isProper_header (lines : Text) : (headerSetup lines).files.IsProper := by
  intro name member
  cases member

section Playing

variable [DecidablePred known.has] (lenient : setup.config.failFast = false) {n : Nat}
include lenient

theorem isPlain_of_play {accepts : List Token → Bool}
    (played : (p.play setup (Reader.isPlain setup known) accepts n).isSome = true) (r : Reader)
    (run : p.Passes setup r) : r.IsPlain setup known :=
  .of_check setup known (check_of_play lenient played run)

theorem canInline_of_play {accepts : List Token → Bool}
    (played : (p.play setup (Reader.canInline setup known header) accepts n).isSome = true) (r : Reader)
    (run : p.Passes setup r) : r.CanInline setup known i header :=
  .of_check setup known i header (check_of_play lenient played run)

/-- The words in the strings of pragma operators are known. -/
theorem has_of_play {check : Reader → Bool}
    (played : (p.play setup check (fun args => args.all fun token => known.has token.lexeme) n).isSome
      = true) (args : List Token) (run : p.Applies setup args) :
    ∀ token ∈ args, known.has token.lexeme := by
  simpa using accepts_of_play lenient played run

end Playing

/-- The calls give the same whether the header is included or its lines are there. -/
theorem words_including_calls :
    let setup := headerSetup callLines.lines
    let q := headerRun callLines.lines callLines.including
    let q' := headerRun callLines.lines callLines.inlined
    (q.tokensWithin setup 60).1.map Token.word = (q'.tokensWithin setup 60).1.map Token.word
      ∧ ∀ word, q.defines setup 60 word = q'.defines setup 60 word := by
  intro setup q q'
  have played : (q.play setup (Reader.canInline setup .pasteable foundHeader)
      (fun args => args.all fun token => Vocabulary.pasteable.has token.lexeme) 60).isSome = true := by
    decide +kernel
  have played' : (q'.play setup (Reader.isPlain setup .pasteable) (fun _ => true) 60).isSome = true := by
    decide +kernel
  exact words_including (rfl : create setup = .ok Reader.freshRun) rfl (isProper_header _)
    callLines_fits (openMain_header _ _) (openMain_header _ _) (canInline_of_play rfl played)
    (has_of_play rfl played) (fun r run => (isPlain_of_play rfl played' r run).found) 60

/-! A header with a macro that marks the file that it stands in: the main file includes the header again
after the line. If the header is included there, it is the header that is marked, and it is not read
again; if its lines stand there, it is the main file. -/

def markedLines : Inlining :=
  headerLine "#define P _Pragma(\"once\")\n".toList "P x\n".toList "#include \"h\"\n".toList

theorem markedLines_fits :
    markedLines.Fits (headerSetup markedLines.lines) ['m'] ⟨"h".toList, .quoted, 1⟩ foundHeader := by
  have line : OwnLines false (.ofWords [] []) markedLines.line markedLines.after :=
    { ends := by decide +kernel
      last := .inr ⟨"#include \"h\"".toList, by decide +kernel, by decide +kernel⟩
      nested := Lexer.IsNested.of_closes (n := 9) (by decide +kernel) }
  have lines : OwnLines false (.ofWords [] []) markedLines.lines markedLines.after :=
    { ends := by decide +kernel
      last := .inr ⟨"P x".toList, by decide +kernel, by decide +kernel⟩
      nested := Lexer.IsNested.of_closes (n := 9) (by decide +kernel) }
  exact {
    line, lines
    includes := Lexer.exists_of_includes (by decide +kernel)
    nonempty := by decide
    flat := fun items last d reads => reads.flat_of_includesNothing (n := 9) (by decide +kernel) d
    before := fun _ => ⟨{ line with
      starts := by decide +kernel
      first := ⟨"#define P _Pragma(\"once\")".toList, by decide +kernel, by decide +kernel⟩ }, { lines with
      starts := by decide +kernel
      first := ⟨"#define P _Pragma(\"once\")".toList, by decide +kernel, by decide +kernel⟩ }⟩
    trigraphs := rfl
    language := rfl
    found := by decide +kernel
    holds := rfl
    notMain := by decide +kernel
    deep := by decide }

/-- If the header may mark its file, including it is not the same as having its lines. -/
theorem not_words_including_marked :
    let setup := headerSetup markedLines.lines
    let q := headerRun markedLines.lines markedLines.including
    let q' := headerRun markedLines.lines markedLines.inlined
    create setup = .ok Reader.freshRun ∧ setup.config.failFast = false ∧ setup.files.IsProper
      ∧ markedLines.Fits setup ['m'] ⟨"h".toList, .quoted, 1⟩ foundHeader
      ∧ Reader.freshRun.openMain setup (.ok markedLines.including) ['m'] = .ok q
      ∧ Reader.freshRun.openMain setup (.ok markedLines.inlined) ['m'] = .ok q'
      ∧ (∀ r, q.Passes setup r → r.IsPlain setup .placeless)
      ∧ (∀ args, q.Applies setup args → ∀ token ∈ args, Vocabulary.placeless.has token.lexeme)
      ∧ (∀ r, q'.Passes setup r → r.IsPlain setup .placeless)
      ∧ (∀ args, q'.Applies setup args → ∀ token ∈ args, Vocabulary.placeless.has token.lexeme)
      ∧ (q.tokensWithin setup 60).1.map Token.word ≠ (q'.tokensWithin setup 60).1.map Token.word := by
  intro setup q q'
  have played : (q.play setup (Reader.isPlain setup .placeless)
      (fun args => args.all fun token => Vocabulary.placeless.has token.lexeme) 60).isSome = true := by
    decide +kernel
  have played' : (q'.play setup (Reader.isPlain setup .placeless)
      (fun args => args.all fun token => Vocabulary.placeless.has token.lexeme) 60).isSome = true := by
    decide +kernel
  refine ⟨rfl, rfl, isProper_header _, markedLines_fits, openMain_header _ _, openMain_header _ _,
    isPlain_of_play rfl played, has_of_play rfl played, isPlain_of_play rfl played',
    has_of_play rfl played', ?_⟩
  have once : (q.tokensWithin setup 60).1.map Token.word = [(.identifier, ['x']), (.endOfFile, [])] :=
    words_of_play rfl (by decide +kernel)
  have twice : (q'.tokensWithin setup 60).1.map Token.word
      = [(.identifier, ['x']), (.identifier, ['x']), (.endOfFile, [])] :=
    words_of_play rfl (by decide +kernel)
  rw [once, twice]
  decide

end Preprocessor

end CPreprocessor
