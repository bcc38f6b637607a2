/-
# Lines that can be exchanged

Lines of a text are isolated if reading comes to a stop where they start and where they
end, so that no comment and no lexeme reaches into them or out of them, and if their
conditionals are well nested (`IsolatedLines`). Two texts that differ in isolated lines
only are read alike up to these lines (`Lexer.Exchanged`); there each lexer goes over
its own lines (`Before.exists_reads`), after which what is left looks the same
(`Exchanged.alike_past`), if both texts have the same number of lines.
-/
import CPreprocessor.Proofs.Reading.Nested
import CPreprocessor.Proofs.Reading.Parts
import CPreprocessor.Proofs.Source.Lines

namespace CPreprocessor

/-- The lexer goes on to the end of its file over items whose conditionals are well nested. -/
def Lexer.IsNested (l : Lexer) : Prop :=
  ∃ items last final after, l.Reads items last ∧ last.item = (.finish final, after)
    ∧ items.foldlM Item.nest [] = some []

/-- The lines can be read on their own before other lines: they do not end in a line that is joined to
the next one, reading comes to a stop where they end, so that no comment and no raw string runs past
them, and their conditionals are well nested. -/
structure OwnLines (trigraphs : Bool) (language : Language) (lines after : Text) : Prop where
  ends : lines.IsLines after
  last : lines = [] ∨ ∃ part, (Source.ofDecoded trigraphs lines).text = part ++ ['\n']
    ∧ stopsAt language part.length (Source.ofDecoded trigraphs (lines ++ after)).text = true
  nested : (Lexer.ofSource (.ofDecoded trigraphs lines) .unknown language false).IsNested

/-- The lines also begin on their own: the line before them is not joined to them, and reading the text
comes to a stop where they begin, so that no comment and no raw string runs into them. -/
structure IsolatedLines (trigraphs : Bool) (language : Language) (before lines after : Text) : Prop
    extends OwnLines trigraphs language lines after where
  starts : before.IsLines (lines ++ after)
  first : ∃ part, (Source.ofDecoded trigraphs before).text = part ++ ['\n']
    ∧ stopsAt language part.length (Source.ofDecoded trigraphs (before ++ (lines ++ after))).text = true

namespace IsolatedLines

variable {trigraphs : Bool} {language : Language} {before lines after : Text}
  (isolated : IsolatedLines trigraphs language before lines after)
include isolated

theorem before_ne_nil : before ≠ [] := by
  rintro rfl
  obtain ⟨part, ends, -⟩ := isolated.first
  have length := congrArg List.length ends
  simp [Source.ofDecoded, Normalization.characters_nil] at length

/-- What stands after the lines. -/
theorem drop_text {n : Nat} (inside : n = (Source.ofDecoded trigraphs before).text.length) :
    (Source.ofDecoded trigraphs (before ++ (lines ++ after))).text.drop n
      = (Source.ofDecoded trigraphs lines).text ++ (Source.ofDecoded trigraphs after).text := by
  rw [inside, Source.text_ofDecoded_append isolated.starts, List.drop_left,
    Source.text_ofDecoded_append isolated.ends]

/-- Where on their lines the characters after the lines stand does not depend on the lines, if there
are as many of them. -/
theorem spot_position {lines' : Text} (isolated' : IsolatedLines trigraphs language before lines' after)
    (sameLines : (Source.ofDecoded trigraphs lines).finish.line
      = (Source.ofDecoded trigraphs lines').finish.line) (n : Nat) :
    ((Source.ofDecoded trigraphs (before ++ (lines ++ after))).position
        ((Source.ofDecoded trigraphs before).text.length
          + (Source.ofDecoded trigraphs lines).text.length + n)).spot
      = ((Source.ofDecoded trigraphs (before ++ (lines' ++ after))).position
        ((Source.ofDecoded trigraphs before).text.length
          + (Source.ofDecoded trigraphs lines').text.length + n)).spot := by
  have finishes := Source.spot_finish_append isolated.starts isolated'.starts isolated.before_ne_nil
    isolated.ends isolated'.ends sameLines
  have spots := Source.spot_ofDecoded_append (isolated.starts.append isolated.ends)
    (isolated'.starts.append isolated'.ends) finishes n
  rw [Source.text_ofDecoded_append isolated.starts.of_append,
    Source.text_ofDecoded_append isolated'.starts.of_append, List.length_append, List.length_append,
    List.append_assoc, List.append_assoc] at spots
  exact Position.spot_reported spots

end IsolatedLines

namespace Source

/-- Up to the end of its first lines a source does not depend on what follows. -/
theorem upTo_ofDecoded_append {trigraphs : Bool} {first rest : Text} (lines : first.IsLines rest) :
    (ofDecoded trigraphs (first ++ rest)).upTo (ofDecoded trigraphs first).text.length
      = { ofDecoded trigraphs first with finish := {} } := by
  have text : (ofDecoded trigraphs (first ++ rest)).text
      = (ofDecoded trigraphs first).text ++ (ofDecoded trigraphs rest).text :=
    text_ofDecoded_append lines
  have places : (ofDecoded trigraphs (first ++ rest)).places.toList.take
        (ofDecoded trigraphs first).text.length = (ofDecoded trigraphs first).places.toList := by
    simp only [ofDecoded, Normalization.characters_append lines, List.map_append, List.length_map]
    exact List.take_left' (List.length_map _)
  have size : (ofDecoded trigraphs first).text.length
      ≤ (ofDecoded trigraphs (first ++ rest)).places.size := by
    simp only [ofDecoded, Normalization.characters_append lines, List.map_append, List.length_map,
      List.size_toArray, List.length_append]
    omega
  simp only [upTo, text, List.take_left, if_neg (Nat.not_lt.mpr size), mk.injEq, true_and, and_true]
  apply Array.toList_inj.mp
  rw [Array.toList_extract, ← places]
  simp

end Source

namespace Lexer

/-- Going on past the end of a line twice is going on once. -/
theorem past_past (l : Lexer) (n m : Nat) : (l.past n).past m = l.past (n + m) := by
  simp only [past, List.drop_drop, Nat.add_assoc]

section Items

variable {l m : Lexer}

/-- The next item stands after the gap. -/
theorem item_eq_of_skipGap (skips : m.keepsTrivia = false) (nothingPeeked : m.peeked = none)
    (same : l.skipGap true = m.skipGap true) : l.item = m.item := by
  have sameTrivia : (l.skipGap true).keepsTrivia = (m.skipGap true).keepsTrivia := by rw [same]
  have samePeeked : (l.skipGap true).peeked = (m.skipGap true).peeked := by rw [same]
  have skips' : l.keepsTrivia = false := sameTrivia.trans skips
  have nothingPeeked' : l.peeked = none := samePeeked.trans nothingPeeked
  have next : l.next = m.next := by
    simp only [Lexer.next, nothingPeeked, nothingPeeked', read, skips, skips', same,
      Bool.false_eq_true, if_false]
  simp only [item, next]

theorem Reads.exists_of_item {items : List Item} {here : Lexer} (reads : m.Reads items here)
    (same : l.item = m.item) : ∃ last, l.Reads items last ∧ last.item = here.item := by
  cases reads with
  | done => exact ⟨l, .done l, same⟩
  | token first more => exact ⟨here, .token (same.trans first) more, rfl⟩
  | directive first more => exact ⟨here, .directive (same.trans first) more, rfl⟩

end Items

/-- Lines look as they do on their own. -/
theorem Within.alike_upTo {stop : Nat} {m : Lexer} (within : m.Within stop) {trigraphs : Bool}
    {lines : Text} (starts : m.atLineStart = true)
    (part : m.rest.take (stop - m.index) = (Source.ofDecoded trigraphs lines).text) (file : FileRef) :
    Lexer.Alike .blind (ofSource (.ofDecoded trigraphs lines) file m.language false) (m.upTo stop) where
  language := rfl
  skips := ⟨rfl, within.skips⟩
  nothingPeeked := ⟨rfl, within.nothingPeeked⟩
  rest := part.symm
  atLineStart := starts.symm
  afterSpace := nofun
  openComment := within.closed.symm
  file := rfl
  presented := rfl
  lineShift := nofun
  line := nofun
  column := nofun
  offset := nofun

/-- Lines are gone over as they are on their own. -/
theorem Within.exists_alike_reads {stop : Nat} {m last after : Lexer} (within : m.Within stop)
    {trigraphs : Bool} {lines : Text} {items : List Item}
    {final : { token : Token // token.isEnd = true }}
    (reads : (ofSource (.ofDecoded trigraphs lines) .unknown m.language false).Reads items last)
    (finish : last.item = (.finish final, after)) (starts : m.atLineStart = true)
    (part : m.rest.take (stop - m.index) = (Source.ofDecoded trigraphs lines).text) :
    ∃ items' here, m.Reads items' here
      ∧ items'.map (Item.seen .blind) = items.map (Item.seen .blind)
      ∧ here.skipGap true = (m.past (stop - m.index)).skipGap true := by
  obtain ⟨items', last', reads', looks, same⟩ :=
    reads.of_alike (within.alike_upTo starts part .unknown)
  have ends := same.item.1
  rw [finish] at ends
  cases found : last'.item with
  | mk given after' =>
    rw [found] at ends
    cases given with
    | token token => cases ends
    | directive d => cases ends
    | finish final' =>
      obtain ⟨here, goesOver, crossed⟩ := within.reads reads' found
      exact ⟨items', here, goesOver, looks, crossed⟩

/-- Lines with well-nested conditionals are gone over as they are on their own. -/
theorem Within.exists_reads {stop : Nat} {m : Lexer} (within : m.Within stop) {trigraphs : Bool}
    {lines : Text} (nested : (ofSource (.ofDecoded trigraphs lines) .unknown m.language false).IsNested)
    (starts : m.atLineStart = true)
    (part : m.rest.take (stop - m.index) = (Source.ofDecoded trigraphs lines).text) :
    ∃ items here, m.Reads items here ∧ items.foldlM Item.nest [] = some []
      ∧ here.skipGap true = (m.past (stop - m.index)).skipGap true := by
  obtain ⟨items, last, final, after, reads, finish, nests⟩ := nested
  obtain ⟨items', here, goesOver, looks, crossed⟩ :=
    within.exists_alike_reads reads finish starts part
  refine ⟨items', here, goesOver, ?_, crossed⟩
  rw [← Item.foldlM_nest_seen .blind, looks, Item.foldlM_nest_seen, nests]

/-- The lexer stands in the first part of the source. -/
structure Before (source : Source) (language : Language) (stop : Nat) (l : Lexer) : Prop where
  within : l.Within stop
  origin : l.source = source
  spoken : l.language = language
  rest : l.rest.drop (stop - l.index) = source.text.drop stop

/-- The lexer is about to read the rest of the source, from the start of a line on. -/
structure Begins (source : Source) (language : Language) (start : Nat) (l : Lexer) : Prop where
  skips : l.keepsTrivia = false
  nothingPeeked : l.peeked = none
  closed : l.openComment = false
  atLineStart : l.atLineStart = true
  index : l.index = start
  origin : l.source = source
  spoken : l.language = language
  rest : l.rest = source.text.drop start

theorem begins_ofSource (source : Source) (file : FileRef) (language : Language) :
    (ofSource source file language false).Begins source language 0 :=
  ⟨rfl, rfl, rfl, rfl, rfl, rfl, rfl, rfl⟩

namespace Begins

variable {source : Source} {language : Language} {start : Nat} {l : Lexer}
  (begins : l.Begins source language start)
include begins

section Lines

variable {trigraphs : Bool} {lines rest : Text} (own : OwnLines trigraphs language lines rest)
  (text : source.text.drop start
    = (Source.ofDecoded trigraphs lines).text ++ (Source.ofDecoded trigraphs rest).text)
include own text

/-- The lexer stands in the lines that come next. -/
theorem before_lines (nonempty : lines ≠ []) :
    l.Before source language (start + (Source.ofDecoded trigraphs lines).text.length) := by
  obtain ⟨part, ends, stops⟩ := own.last.resolve_left nonempty
  have length := congrArg List.length ends
  rw [List.length_append, List.length_singleton] at length
  refine ⟨⟨begins.skips, begins.nothingPeeked, begins.closed, part,
    (Source.ofDecoded trigraphs rest).text, ?_, ?_, ?_⟩, begins.origin, begins.spoken, ?_⟩
  · rw [begins.rest, text, ends, List.append_assoc, List.singleton_append]
  · rw [begins.index]
    omega
  · rw [begins.rest, text, ← Source.text_ofDecoded_append own.ends, begins.spoken]
    exact stops
  · rw [begins.index, Nat.add_sub_cancel_left, begins.rest, List.drop_drop]

omit own in
/-- What is left of the lines that come next is all of them. -/
theorem take_lines :
    l.rest.take (start + (Source.ofDecoded trigraphs lines).text.length - l.index)
      = (Source.ofDecoded trigraphs lines).text := by
  rw [begins.index, Nat.add_sub_cancel_left, begins.rest, text, List.take_left]

/-- The lexer goes over the lines that come next. -/
theorem exists_reads (nonempty : lines ≠ []) :
    ∃ items last, l.Reads items last ∧ items.foldlM Item.nest [] = some []
      ∧ last.item = (l.past (Source.ofDecoded trigraphs lines).text.length).item := by
  have before := begins.before_lines own text nonempty
  obtain ⟨items, last, reads, nests, after⟩ := before.within.exists_reads
    (by rw [begins.spoken]; exact own.nested) begins.atLineStart (begins.take_lines text)
  rw [begins.index, Nat.add_sub_cancel_left] at after
  exact ⟨items, last, reads, nests, item_eq_of_skipGap begins.skips begins.nothingPeeked after⟩

end Lines

end Begins

namespace Before

variable {source : Source} {language : Language} {stop : Nat} {l : Lexer}
  (before : l.Before source language stop)
include before

theorem of_goesTo {after : Lexer} (goesTo : l.GoesTo stop after) :
    after.Before source language stop where
  within := goesTo.within
  origin := (congrArg (fun l : Lexer => l.source) goesTo.past).trans before.origin
  spoken := (congrArg (fun l : Lexer => l.language) goesTo.past).trans before.spoken
  rest := (congrArg (fun l : Lexer => l.rest) goesTo.past).trans before.rest

theorem presentLine (line : Nat) (name : Option Text) :
    (l.presentLine line name).Before source language stop where
  within := (before.within.presentLine line name).1
  origin := before.origin
  spoken := before.spoken
  rest := before.rest

/-- After the first part the lexer begins with the next one. -/
theorem begins_past : (l.past (stop - l.index)).Begins source language stop where
  skips := before.within.skips
  nothingPeeked := before.within.nothingPeeked
  closed := before.within.closed
  atLineStart := rfl
  index := Nat.add_sub_cancel' (Nat.le_of_lt before.within.index_lt)
  origin := before.origin
  spoken := before.spoken
  rest := before.rest

/-- Where nothing is left of the first part, the next item is the first one of the next part. -/
theorem item_of_crosses (crossed : l.Crosses stop) : l.item = (l.past (stop - l.index)).item :=
  item_eq_of_skipGap before.within.skips before.within.nothingPeeked crossed

/-- Where the first part ends, the lexer goes over the isolated lines that follow. -/
theorem exists_reads {trigraphs : Bool} {first lines rest : Text}
    (isolated : IsolatedLines trigraphs language first lines rest)
    (isSource : source = .ofDecoded trigraphs (first ++ (lines ++ rest)))
    (isStop : stop = (Source.ofDecoded trigraphs first).text.length)
    (crossed : l.Crosses stop) :
    ∃ items last, l.Reads items last ∧ items.foldlM Item.nest [] = some []
      ∧ last.item
        = ((l.past (stop - l.index)).past (Source.ofDecoded trigraphs lines).text.length).item := by
  have here := before.item_of_crosses crossed
  by_cases none : lines = []
  · refine ⟨[], l, .done l, rfl, here.trans ?_⟩
    rw [none, Source.ofDecoded_nil, List.length_nil, past_past, Nat.add_zero]
  · obtain ⟨items, last, reads, nests, after⟩ := before.begins_past.exists_reads
      isolated.toOwnLines (by rw [isSource, isolated.drop_text isStop]) none
    obtain ⟨last', reads', same⟩ := reads.exists_of_item here
    exact ⟨items, last', reads', nests, same.trans after⟩

end Before

/-- The lexers stand at the same place in the first parts of their sources, which are the same. -/
structure Exchanged (source source' : Source) (language : Language) (stop : Nat) (l l' : Lexer) :
    Prop where
  before : l.Before source language stop
  before' : l'.Before source' language stop
  same : l.upTo stop = l'.upTo stop

namespace Exchanged

variable {source source' : Source} {language : Language} {stop : Nat} {l l' : Lexer}
  (exchanged : l.Exchanged source source' language stop l')
include exchanged

theorem presentLine (line : Nat) (name : Option Text) :
    (l.presentLine line name).Exchanged source source' language stop (l'.presentLine line name) where
  before := exchanged.before.presentLine line name
  before' := exchanged.before'.presentLine line name
  same := by
    rw [← (exchanged.before.within.presentLine line name).2,
      ← (exchanged.before'.within.presentLine line name).2, exchanged.same]

/-- The lexers give the same item, or what they read next stands after the first parts. -/
theorem item :
    l.Crosses stop ∧ l'.Crosses stop ∨
      (l.item.1 = l'.item.1 ∧ l.item.2.Exchanged source source' language stop l'.item.2) := by
  obtain ⟨crossed, final, after, finish⟩ | ⟨goesTo, read, more⟩ := exchanged.before.within.item
  all_goals obtain ⟨crossed', final', after', finish'⟩ | ⟨goesTo', read', more'⟩ :=
    exchanged.before'.within.item
  · exact .inl ⟨crossed, crossed'⟩
  · rw [← exchanged.same, finish, Prod.mk.injEq] at read'
    exact absurd read'.1.symm (more' final)
  · rw [← exchanged.same, read, Prod.mk.injEq] at finish'
    exact absurd finish'.1 (more final')
  · rw [← exchanged.same, read, Prod.mk.injEq] at read'
    exact .inr ⟨read'.1,
      exchanged.before.of_goesTo goesTo, exchanged.before'.of_goesTo goesTo', read'.2⟩

/-- After lines that have been exchanged for as many, what is left looks the same. -/
theorem alike_past {trigraphs : Bool} {first lines lines' rest : Text}
    (isolated : IsolatedLines trigraphs language first lines rest)
    (isolated' : IsolatedLines trigraphs language first lines' rest)
    (sameLines : (Source.ofDecoded trigraphs lines).finish.line
      = (Source.ofDecoded trigraphs lines').finish.line)
    (isSource : source = .ofDecoded trigraphs (first ++ (lines ++ rest)))
    (isSource' : source' = .ofDecoded trigraphs (first ++ (lines' ++ rest)))
    (isStop : stop = (Source.ofDecoded trigraphs first).text.length) :
    Lexer.Alike .withoutOffsets
      ((l.past (stop - l.index)).past (Source.ofDecoded trigraphs lines).text.length)
      ((l'.past (stop - l'.index)).past (Source.ofDecoded trigraphs lines').text.length) := by
  have index {l : Lexer} (within : l.Within stop) : l.index + (stop - l.index) = stop :=
    Nat.add_sub_cancel' (Nat.le_of_lt within.index_lt)
  have left {source : Source} {lines : Text} {l : Lexer}
      (isolated : IsolatedLines trigraphs language first lines rest)
      (isSource : source = .ofDecoded trigraphs (first ++ (lines ++ rest)))
      (before : l.Before source language stop) :
      ((l.past (stop - l.index)).past (Source.ofDecoded trigraphs lines).text.length).rest
        = (Source.ofDecoded trigraphs rest).text := by
    show (l.rest.drop (stop - l.index)).drop _ = _
    rw [before.rest, isSource, isolated.drop_text isStop, List.drop_left]
  have places {source : Source} {l : Lexer} (before : l.Before source language stop) (d n : Nat) :
      ((l.past (stop - l.index)).past d).source.position
          (((l.past (stop - l.index)).past d).index + n)
        = source.position ((Source.ofDecoded trigraphs first).text.length + d + n) := by
    show l.source.position (l.index + (stop - l.index) + d + n) = _
    rw [before.origin, index before.within, isStop]
  have spot (n : Nat) :
      (((l.past (stop - l.index)).past (Source.ofDecoded trigraphs lines).text.length).source.position
          (((l.past (stop - l.index)).past (Source.ofDecoded trigraphs lines).text.length).index
            + n)).spot
        = (((l'.past (stop - l'.index)).past
            (Source.ofDecoded trigraphs lines').text.length).source.position
          (((l'.past (stop - l'.index)).past (Source.ofDecoded trigraphs lines').text.length).index
            + n)).spot := by
    rw [places exchanged.before, places exchanged.before', isSource, isSource']
    exact isolated.spot_position isolated' sameLines n
  have within := exchanged.before.within
  have within' := exchanged.before'.within
  have both := exchanged.same
  simp only [upTo, mk.injEq] at both
  obtain ⟨-, spoken, -, file, presented, -, -, -, -, lineShift, -⟩ := both
  exact {
    language := spoken
    skips := ⟨within.skips, within'.skips⟩
    nothingPeeked := ⟨within.nothingPeeked, within'.nothingPeeked⟩
    rest := (left isolated isSource exchanged.before).trans
      (left isolated' isSource' exchanged.before').symm
    atLineStart := rfl
    afterSpace := fun _ => rfl
    openComment := within.closed.trans within'.closed.symm
    file := congrArg _ file
    presented := congrArg _ presented
    lineShift := fun _ => lineShift
    line := fun _ n => (Prod.ext_iff.mp (spot n)).1
    column := fun _ n => (Prod.ext_iff.mp (spot n)).2
    offset := fun shown => absurd shown Bool.false_ne_true }

end Exchanged

/-- Texts that differ in isolated lines are read alike from their starts. -/
theorem exchanged_ofSource {trigraphs : Bool} {language : Language} {first lines lines' rest : Text}
    (isolated : IsolatedLines trigraphs language first lines rest)
    (isolated' : IsolatedLines trigraphs language first lines' rest) (file : FileRef) :
    (ofSource (.ofDecoded trigraphs (first ++ (lines ++ rest))) file language false).Exchanged
      (.ofDecoded trigraphs (first ++ (lines ++ rest)))
      (.ofDecoded trigraphs (first ++ (lines' ++ rest))) language
      (Source.ofDecoded trigraphs first).text.length
      (ofSource (.ofDecoded trigraphs (first ++ (lines' ++ rest))) file language false) := by
  have before {lines : Text} (isolated : IsolatedLines trigraphs language first lines rest) :
      (ofSource (.ofDecoded trigraphs (first ++ (lines ++ rest))) file language false).Before
        (.ofDecoded trigraphs (first ++ (lines ++ rest))) language
        (Source.ofDecoded trigraphs first).text.length := by
    obtain ⟨part, ends, stops⟩ := isolated.first
    refine ⟨⟨rfl, rfl, rfl, part, (Source.ofDecoded trigraphs (lines ++ rest)).text, ?_, ?_, stops⟩,
      rfl, rfl, rfl⟩
    · show (Source.ofDecoded trigraphs (first ++ (lines ++ rest))).text = _
      rw [Source.text_ofDecoded_append isolated.starts, ends, List.append_assoc,
        List.singleton_append]
    · rw [ends, List.length_append, List.length_singleton]
      exact congrArg (· + 1) (Nat.zero_add _)
  refine ⟨before isolated, before isolated', ?_⟩
  have text {lines : Text} (isolated : IsolatedLines trigraphs language first lines rest) :
      (Source.ofDecoded trigraphs (first ++ (lines ++ rest))).text.take
        (Source.ofDecoded trigraphs first).text.length = (Source.ofDecoded trigraphs first).text := by
    rw [Source.text_ofDecoded_append isolated.starts, List.take_left]
  simp only [upTo, ofSource, Source.upTo_ofDecoded_append isolated.starts,
    Source.upTo_ofDecoded_append isolated'.starts, Nat.sub_zero, text isolated, text isolated']

/-- Whether the next items up to the end of the file, fewer than `n`, close what `stack` has open. -/
def closes : Nat → List Bool → Lexer → Bool
  | 0, _, _ => false
  | n + 1, stack, l =>
    match l.item with
    | (.finish _, _) => stack = []
    | (found, after) => (found.nest stack).any fun stack => closes n stack after

theorem IsNested.of_closes {l : Lexer} {n : Nat} (closed : l.closes n [] = true) : l.IsNested := by
  have found {n : Nat} {stack : List Bool} {l : Lexer} (closed : l.closes n stack = true) :
      ∃ items last final after, l.Reads items last ∧ last.item = (.finish final, after)
        ∧ items.foldlM Item.nest stack = some [] := by
    induction n generalizing l stack with
    | zero => cases closed
    | succ n ih =>
      rw [closes] at closed
      cases here : l.item with
      | mk found after =>
        rw [here] at closed
        cases found with
        | finish final =>
          obtain rfl : stack = [] := by simpa using closed
          exact ⟨[], l, final, after, .done l, here, rfl⟩
        | token token =>
          obtain ⟨stack', nests, closed⟩ := (Option.any_eq_true _ _).mp closed
          obtain ⟨items, last, final, later, reads, finish, closes⟩ := ih closed
          exact ⟨_, last, final, later, .token here reads, finish, by
            rw [List.foldlM_cons, nests]; exact closes⟩
        | directive d =>
          obtain ⟨stack', nests, closed⟩ := (Option.any_eq_true _ _).mp closed
          obtain ⟨items, last, final, later, reads, finish, closes⟩ := ih closed
          exact ⟨_, last, final, later, .directive here reads, finish, by
            rw [List.foldlM_cons, nests]; exact closes⟩
  exact found closed

end Lexer

end CPreprocessor
