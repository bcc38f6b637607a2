/-
# Lines in place of an include

A text includes a header in one of its lines, another one has the lines of the header in its
place (`Inlining`). Up to there both texts are read alike, and so they are after it; the
lines of the header are read in the second text as they are in the header
(`Lexer.InHeader`). This module follows the lexers of the two texts item by item
(`Lexer.Inlined.item`), and of the header and the second text (`Lexer.InHeader.item`). The
texts need not have as many lines, so of places nothing is seen.
-/
import CPreprocessor.Proofs.Lexing.Words
import CPreprocessor.Proofs.Places.Session
import CPreprocessor.Proofs.Reading.Exchange

namespace CPreprocessor

/-- A text with a line that includes a header, and the lines of the header. -/
structure Inlining where
  trigraphs : Bool
  language : Language
  before : Text
  line : Text
  lines : Text
  after : Text

namespace Inlining

variable (i : Inlining)

/-- The text that includes the header. -/
def including : Source :=
  .ofDecoded i.trigraphs (i.before ++ (i.line ++ i.after))

/-- The text with the lines of the header in place of the include. -/
def inlined : Source :=
  .ofDecoded i.trigraphs (i.before ++ (i.lines ++ i.after))

/-- The header. -/
def header : Source :=
  .ofDecoded i.trigraphs i.lines

/-- Where the line or the lines start. -/
def start : Nat :=
  (Source.ofDecoded i.trigraphs i.before).text.length

/-- Where the text goes on after the line. -/
def afterLine : Nat :=
  i.start + (Source.ofDecoded i.trigraphs i.line).text.length

/-- Where the text goes on after the lines. -/
def afterLines : Nat :=
  i.start + i.header.text.length

/-- The line includes a header by the name; line and lines can be read on their own, and so can what
stands before them, if anything does. The lines include nothing. -/
structure IsProper (name : IncludeName) : Prop where
  line : OwnLines i.trigraphs i.language i.line i.after
  lines : OwnLines i.trigraphs i.language i.lines i.after
  includes : ∃ d last final after,
    (Lexer.ofSource (.ofDecoded i.trigraphs i.line) .unknown i.language false).item
        = (.directive d, last)
      ∧ last.item = (.finish final, after)
      ∧ d.kind = .includeHeader ∧ IncludeName.read? d.args = some name
  nonempty : i.lines ≠ []
  flat : ∀ items last d, (Lexer.ofSource i.header .unknown i.language false).Reads items last →
    .directive d ∈ items → d.kind ≠ .includeHeader ∧ d.kind ≠ .includeNext
  before : i.before ≠ [] →
    IsolatedLines i.trigraphs i.language i.before i.line i.after
      ∧ IsolatedLines i.trigraphs i.language i.before i.lines i.after

end Inlining

namespace Lexer

variable {i : Inlining} {name : IncludeName}

/-! ## Checks -/

/-- Whether the file is one line that includes a header by the name. -/
def includes (name : IncludeName) (l : Lexer) : Bool :=
  match l.item with
  | (.directive d, last) =>
    d.kind = .includeHeader && IncludeName.read? d.args = some name
      && match last.item with
        | (.finish _, _) => true
        | _ => false
  | _ => false

theorem exists_of_includes {l : Lexer} (checked : l.includes name = true) :
    ∃ d last final after, l.item = (.directive d, last) ∧ last.item = (.finish final, after)
      ∧ d.kind = .includeHeader ∧ IncludeName.read? d.args = some name := by
  unfold includes at checked
  cases here : l.item with
  | mk item last =>
    cases item with
    | token token => simp [here] at checked
    | finish final => simp [here] at checked
    | directive d =>
      cases there : last.item with
      | mk item after =>
        cases item with
        | token token => simp [here, there] at checked
        | directive d => simp [here, there] at checked
        | finish final =>
          simp only [here, there, Bool.and_true, Bool.and_eq_true, decide_eq_true_eq] at checked
          exact ⟨d, last, final, after, rfl, there, checked⟩

/-- Whether no item up to the end of the file, one of fewer than `n`, includes anything. -/
def includesNothing : Nat → Lexer → Bool
  | 0, _ => false
  | n + 1, l =>
    match l.item with
    | (.finish _, _) => true
    | (.token _, after) => includesNothing n after
    | (.directive d, after) =>
      d.kind ≠ .includeHeader && d.kind ≠ .includeNext && includesNothing n after

theorem Reads.flat_of_includesNothing {l last : Lexer} {items : List Item} (reads : l.Reads items last)
    {n : Nat} (checked : l.includesNothing n = true) :
    ∀ d, .directive d ∈ items → d.kind ≠ .includeHeader ∧ d.kind ≠ .includeNext := by
  induction reads generalizing n with
  | done => exact fun d member => absurd member List.not_mem_nil
  | token here more ih =>
    cases n with
    | zero => cases checked
    | succ n =>
      rw [includesNothing, here] at checked
      intro d member
      obtain same | member := List.mem_cons.mp member
      · cases same
      · exact ih checked d member
  | directive here more ih =>
    cases n with
    | zero => cases checked
    | succ n =>
      rw [includesNothing, here] at checked
      simp only [Bool.and_eq_true, decide_eq_true_eq] at checked
      intro d member
      obtain same | member := List.mem_cons.mp member
      · cases same
        exact checked.1
      · exact ih checked.2 d member

/-! ## Parts of a text -/

/-- The first lexer reads, as a file of its own, the part of a source up to `stop` that the second lexer
is in. -/
def ReadsPart (v : View) (source : Source) (language : Language) (stop : Nat) (h l : Lexer) : Prop :=
  ∃ x : Lexer, l.item = x.item ∧ x.Before source language stop ∧ h.Alike v (x.upTo stop)

/-- Only the next item of the second lexer matters. -/
theorem ReadsPart.of_item {v : View} {source : Source} {language : Language} {stop : Nat}
    {h l l' : Lexer} (part : h.ReadsPart v source language stop l) (same : l'.item = l.item) :
    h.ReadsPart v source language stop l' := by
  obtain ⟨x, here, rest⟩ := part
  exact ⟨x, same.trans here, rest⟩

/-- The next items look the same; or the file has been read to its end, and the other lexer goes on after
the part. -/
theorem ReadsPart.item {v : View} {source : Source} {language : Language} {stop : Nat} {h l : Lexer}
    (part : h.ReadsPart v source language stop l) :
    (∃ (final : { token : Token // token.isEnd = true }) (after y : Lexer),
        h.item = (.finish final, after) ∧ l.item = y.item
        ∧ y.Begins source language stop)
      ∨ (∀ final, h.item.1 ≠ .finish final) ∧ h.item.1.seen v = l.item.1.seen v
        ∧ h.item.2.ReadsPart v source language stop l.item.2 ∧ l.item.2.index < stop
        ∧ ∀ line name, (h.item.2.presentLine line name).ReadsPart v source language stop
            (l.item.2.presentLine line name) := by
  obtain ⟨x, here, before, alike⟩ := part
  have looks := alike.item
  rw [here]
  obtain ⟨crossed, final, after, finish⟩ | ⟨goesTo, read, more⟩ := before.within.item
  · rw [finish] at looks
    cases found : h.item with
    | mk given rest =>
      rw [found] at looks
      cases given with
      | token token => cases looks.1
      | directive d => cases looks.1
      | finish final' =>
        exact .inl ⟨final', rest, _, rfl, before.item_of_crosses crossed, before.begins_past⟩
  · rw [read] at looks
    have later := before.of_goesTo goesTo
    refine .inr ⟨fun final found => ?_, looks.1, ⟨_, rfl, later, looks.2.of_spaced⟩,
      later.within.index_lt, fun line name => ⟨_, rfl, later.presentLine line name, ?_⟩⟩
    · rw [found] at looks
      cases given : x.item.1 with
      | token token => rw [given] at looks; cases looks.1
      | directive d => rw [given] at looks; cases looks.1
      | finish final' => exact more final' given
    · rw [← (later.within.presentLine line name).2]
      exact looks.2.of_spaced.presentLine line name

/-- All that a file has is read in the part as well, and then the other lexer goes on after the part. -/
theorem ReadsPart.reads {v : View} {source : Source} {language : Language} {stop : Nat}
    {h l last after : Lexer} {items : List Item} {final : { token : Token // token.isEnd = true }}
    (part : h.ReadsPart v source language stop l) (reads : h.Reads items last)
    (finish : last.item = (.finish final, after)) :
    ∃ (items' : List Item) (last' y : Lexer), l.Reads items' last'
      ∧ items'.map (Item.seen v) = items.map (Item.seen v)
      ∧ last'.item = y.item ∧ y.Begins source language stop := by
  induction reads generalizing l with
  | done h =>
    obtain ⟨-, -, y, -, here, begins⟩ | ⟨more, -⟩ := part.item
    · exact ⟨[], l, y, .done l, rfl, here, begins⟩
    · rw [finish] at more
      exact absurd rfl (more final)
  | @token h rest last token items here more ih =>
    obtain ⟨_, _, y, ends, -⟩ | ⟨-, looks, later, -⟩ := part.item
    · rw [here] at ends
      cases ends
    · rw [here] at looks later
      obtain ⟨items', last', y, reads', list, after⟩ := ih later finish
      cases found : l.item with
      | mk given rest' =>
        rw [found] at looks reads'
        cases given with
        | token token' =>
          exact ⟨_, last', y, .token found reads', by rw [List.map_cons, List.map_cons, list, looks],
            after⟩
        | directive d => cases looks
        | finish final => cases looks
  | @directive h rest last d items here more ih =>
    obtain ⟨_, _, y, ends, -⟩ | ⟨-, looks, later, -⟩ := part.item
    · rw [here] at ends
      cases ends
    · rw [here] at looks later
      obtain ⟨items', last', y, reads', list, after⟩ := ih later finish
      cases found : l.item with
      | mk given rest' =>
        rw [found] at looks reads'
        cases given with
        | directive d' =>
          exact ⟨_, last', y, .directive found reads',
            by rw [List.map_cons, List.map_cons, list, looks], after⟩
        | token token' => cases looks
        | finish final => cases looks

/-- The lines that come next are read as they are on their own. -/
theorem Begins.readsPart {source : Source} {language : Language} {start : Nat} {l : Lexer}
    (begins : l.Begins source language start) {trigraphs : Bool} {lines rest : Text}
    (own : OwnLines trigraphs language lines rest)
    (text : source.text.drop start
      = (Source.ofDecoded trigraphs lines).text ++ (Source.ofDecoded trigraphs rest).text)
    (nonempty : lines ≠ []) (file : FileRef) :
    (ofSource (.ofDecoded trigraphs lines) file language false).ReadsPart .blind source language
      (start + (Source.ofDecoded trigraphs lines).text.length) l := by
  have before := begins.before_lines own text nonempty
  have alike := before.within.alike_upTo begins.atLineStart (begins.take_lines text) file
  rw [begins.spoken] at alike
  exact ⟨l, rfl, before, alike⟩

/-! ## Lines that include nothing -/

/-- The rest of a file closes the conditionals that are open in it, `stack`, and includes nothing. The
places of the file do not matter. -/
def Closes (stack : List Bool) (h : Lexer) : Prop :=
  ∃ (l : Lexer) (items : List Item) (last : Lexer) (final : { token : Token // token.isEnd = true })
    (after : Lexer), l.Alike .blind h ∧ l.Reads items last ∧ last.item = (.finish final, after)
      ∧ items.foldlM Item.nest stack = some []
      ∧ ∀ d, .directive d ∈ items → d.kind ≠ .includeHeader ∧ d.kind ≠ .includeNext

namespace Closes

variable {stack : List Bool} {h rest : Lexer} (closes : h.Closes stack)
include closes

theorem presentLine (line : Nat) (name : Option Text) : (h.presentLine line name).Closes stack := by
  obtain ⟨l, items, last, final, after, same, others⟩ := closes
  exact ⟨l, items, last, final, after, same.blind_presentLine line name, others⟩

theorem eq_nil_of_finish {final : { token : Token // token.isEnd = true }}
    (finish : h.item = (.finish final, rest)) : stack = [] := by
  obtain ⟨l, items, last, -, -, same, reads, -, nests, -⟩ := closes
  have looks := same.item.1
  rw [finish] at looks
  cases reads with
  | done => exact Option.some.inj nests
  | token here => rw [here] at looks; cases looks
  | directive here => rw [here] at looks; cases looks

theorem token {token : Token} (here : h.item = (.token token, rest)) : rest.Closes stack := by
  obtain ⟨l, items, last, final, after, same, reads, finish, nests, flat⟩ := closes
  have looks := same.item
  rw [here] at looks
  cases reads with
  | done => rw [finish] at looks; cases looks.1
  | directive first => rw [first] at looks; cases looks.1
  | token first more =>
    rw [first] at looks
    exact ⟨_, _, last, final, after, looks.2.of_spaced, more, finish, nests, fun d member =>
      flat d (List.mem_cons_of_mem _ member)⟩

theorem directive {d : Directive} (here : h.item = (.directive d, rest)) :
    (d.kind ≠ .includeHeader ∧ d.kind ≠ .includeNext)
      ∧ ∃ stack', (Item.directive d).nest stack = some stack' ∧ rest.Closes stack' := by
  obtain ⟨l, items, last, final, after, same, reads, finish, nests, flat⟩ := closes
  have looks := same.item
  rw [here] at looks
  cases reads with
  | done => rw [finish] at looks; cases looks.1
  | token first => rw [first] at looks; cases looks.1
  | @directive _ rest' _ d' items first more =>
    rw [first] at looks
    have kind : d'.kind = d.kind := by
      rw [← Directive.kind_seen .blind d', Item.directive.inj looks.1, Directive.kind_seen]
    rw [List.foldlM_cons, Option.bind_eq_bind, Option.bind_eq_some_iff] at nests
    obtain ⟨stack', nests, later⟩ := nests
    refine ⟨kind ▸ flat d' List.mem_cons_self, stack', ?_, rest', items, last, final, after,
      looks.2.of_spaced, more, finish, later, fun d member => flat d (List.mem_cons_of_mem _ member)⟩
    rw [← nests, ← Item.nest_seen .blind stack (.directive d), ← looks.1, Item.nest_seen]

end Closes

/-! ## The text with an include and the text with the lines -/

/-- The lexers of the two texts stand in the same place before the line or the lines, or their next items
are the first ones of the line and of the lines, or the same is left for both. -/
inductive Inlined (i : Inlining) (l l' : Lexer) : Prop where
  | before (exchanged : l.Exchanged i.including i.inlined i.language i.start l')
  | here {x x' : Lexer} (index : l.index ≤ i.start) (item : l.item = x.item)
      (item' : l'.item = x'.item) (begins : x.Begins i.including i.language i.start)
      (begins' : x'.Begins i.inlined i.language i.start)
  | after {x x' : Lexer} (item : l.item = x.item) (item' : l'.item = x'.item)
      (alike : x.Alike .blind x')

theorem Inlined.of_alike {l l' : Lexer} (alike : l.Alike .blind l') :
    l.Inlined i l' :=
  .after rfl rfl alike

section Proper

variable (proper : i.IsProper name)
include proper

theorem line_ne_nil : i.line ≠ [] := by
  intro none
  obtain ⟨d, last, -, -, first, -⟩ := proper.includes
  have ends : (ofSource (.ofDecoded i.trigraphs i.line) .unknown i.language false).next.1.isEnd
      = true := by
    have word := next_of_end (l := ofSource (.ofDecoded i.trigraphs i.line) .unknown i.language false)
      rfl rfl (by
        rw [none]
        simp [ofSource, Source.ofDecoded_nil])
    have kind : (ofSource (.ofDecoded i.trigraphs i.line) .unknown i.language false).next.1.kind
        = .endOfFile := congrArg Prod.fst word
    simp [Token.isEnd, kind]
  rw [item_of_isEnd ends] at first
  cases first

theorem drop_including :
    i.including.text.drop i.start
      = (Source.ofDecoded i.trigraphs i.line).text ++ (Source.ofDecoded i.trigraphs i.after).text := by
  by_cases first : i.before = []
  · rw [Inlining.including, Inlining.start, first, Source.ofDecoded_nil, List.nil_append,
      Source.text_ofDecoded_append proper.line.ends]
    rfl
  · exact (proper.before first).1.drop_text rfl

theorem drop_inlined :
    i.inlined.text.drop i.start = i.header.text ++ (Source.ofDecoded i.trigraphs i.after).text := by
  by_cases first : i.before = []
  · rw [Inlining.inlined, Inlining.start, first, Source.ofDecoded_nil, List.nil_append,
      Source.text_ofDecoded_append proper.lines.ends]
    rfl
  · exact (proper.before first).2.drop_text rfl

/-- The two texts are read alike from their starts. -/
theorem inlined_ofSource (file : FileRef) :
    (ofSource i.including file i.language false).Inlined i
      (ofSource i.inlined file i.language false) := by
  by_cases first : i.before = []
  · have start : i.start = 0 := by
      rw [Inlining.start, first, Source.ofDecoded_nil, List.length_nil]
    exact .here (Nat.zero_le _) rfl rfl (start ▸ begins_ofSource _ file _)
      (start ▸ begins_ofSource _ file _)
  · exact .before (exchanged_ofSource (proper.before first).1 (proper.before first).2 file)

/-- After the line and after the lines the same is left. -/
theorem alike_after {y y' : Lexer} (begins : y.Begins i.including i.language i.afterLine)
    (begins' : y'.Begins i.inlined i.language i.afterLines) : y.Alike .blind y' where
  language := begins.spoken.trans begins'.spoken.symm
  skips := ⟨begins.skips, begins'.skips⟩
  nothingPeeked := ⟨begins.nothingPeeked, begins'.nothingPeeked⟩
  rest := by
    rw [begins.rest, begins'.rest, Inlining.afterLine, Inlining.afterLines, ← List.drop_drop,
      ← List.drop_drop, drop_including proper, drop_inlined proper, List.drop_left, List.drop_left]
  atLineStart := begins.atLineStart.trans begins'.atLineStart.symm
  afterSpace := nofun
  openComment := begins.closed.trans begins'.closed.symm
  file := rfl
  presented := rfl
  lineShift := nofun
  line := nofun
  column := nofun
  offset := nofun

/-- The next item is the include, and after it the text goes on. -/
theorem Begins.exists_include {x : Lexer} (begins : x.Begins i.including i.language i.start) :
    ∃ (d : Directive) (rest y : Lexer), x.item = (.directive d, rest) ∧ d.kind = .includeHeader
      ∧ IncludeName.read? d.args = some name ∧ i.start < i.afterLine ∧ rest.index < i.afterLine
      ∧ rest.item = y.item ∧ y.Begins i.including i.language i.afterLine := by
  obtain ⟨d, last, final, after, first, ends, kind, named⟩ := proper.includes
  have part := begins.readsPart proper.line (drop_including proper) (line_ne_nil proper) .unknown
  obtain ⟨final', after', y, finish, -⟩ | ⟨-, looks, later, stays, -⟩ := part.item
  · rw [first] at finish
    cases finish
  · have before := begins.before_lines proper.line (drop_including proper) (line_ne_nil proper)
    have ahead : i.start < i.afterLine := by
      rw [← begins.index]
      exact before.within.index_lt
    rw [first] at looks later
    cases here : x.item with
    | mk found rest =>
      rw [here] at looks later stays
      cases found with
      | token token => cases looks
      | finish final => cases looks
      | directive d' =>
        have same : d.seen .blind = d'.seen .blind := Item.directive.inj looks
        have args : d.args.map (Token.seen View.blind.spaced)
            = d'.args.map (Token.seen View.blind.spaced) := congrArg Directive.args same
        obtain ⟨-, -, y, -, following, goesOn⟩ | ⟨more, -⟩ := later.item
        · refine ⟨d', rest, y, rfl, ?_, ?_, ahead, stays, following, goesOn⟩
          · rw [← Directive.kind_seen .blind d', ← same, Directive.kind_seen, kind]
          · rw [← IncludeName.read?_seen (v := View.blind.spaced) rfl, ← args,
              IncludeName.read?_seen rfl, named]
        · rw [ends] at more
          exact absurd rfl (more final)

/-- The lines are read in the second text as they are in the header. -/
theorem Begins.readsPart_header {x : Lexer} (begins : x.Begins i.inlined i.language i.start)
    (file : FileRef) :
    (ofSource i.header file i.language false).ReadsPart .blind i.inlined i.language i.afterLines x :=
  begins.readsPart proper.lines (drop_inlined proper) proper.nonempty file

theorem closes_header (file : FileRef) : (ofSource i.header file i.language false).Closes [] := by
  obtain ⟨items, last, final, after, reads, finish, nests⟩ := proper.lines.nested
  exact ⟨ofSource i.header .unknown i.language false, items, last, final, after,
    alike_ofSource _ _ rfl, reads, finish, nests, fun d member => proper.flat items last d reads member⟩

omit proper in
/-- The next items of the two texts are the first ones of the line and of the lines, or they look the
same. -/
theorem Inlined.item {l l' : Lexer} (same : l.Inlined i l') :
    (∃ x x' : Lexer, l.index ≤ i.start ∧ l.item = x.item ∧ l'.item = x'.item
        ∧ x.Begins i.including i.language i.start ∧ x'.Begins i.inlined i.language i.start)
      ∨ l.item.1.seen .blind = l'.item.1.seen .blind
        ∧ l.item.2.Inlined i l'.item.2
        ∧ ∀ line name, (l.item.2.presentLine line name).Inlined i
            (l'.item.2.presentLine line name) := by
  cases same with
  | before exchanged =>
    obtain ⟨crossed, crossed'⟩ | ⟨items, rest⟩ := exchanged.item
    · exact .inl ⟨_, _, Nat.le_of_lt exchanged.before.within.index_lt,
        exchanged.before.item_of_crosses crossed,
        exchanged.before'.item_of_crosses crossed', exchanged.before.begins_past,
        exchanged.before'.begins_past⟩
    · exact .inr ⟨congrArg _ items, .before rest, fun line name => .before (rest.presentLine line name)⟩
  | here index item item' begins begins' => exact .inl ⟨_, _, index, item, item', begins, begins'⟩
  | after item item' alike =>
    rw [item, item']
    have later := alike.item.2.of_spaced
    exact .inr ⟨alike.item.1, .of_alike later, fun line name => .of_alike (later.presentLine line name)⟩

end Proper

end Lexer

end CPreprocessor
