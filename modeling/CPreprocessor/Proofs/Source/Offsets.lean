/-
# Where logical characters stand

Every index into a source has a place in the decoded text. The place is exact: the logical
character is read at its offset, nothing but joined line ends lies between it and the next one, and
its line and column count the line ends before it. The lines are counted byte by byte and the
characters are read with trigraphs and joins, so the two scans have to agree on what ends a line.
-/
import CPreprocessor.Proofs.Source.Lines
import CPreprocessor.Proofs.Source.Phases

namespace CPreprocessor

/-! ## Line ends of a text -/

namespace Position

/-- The offsets at which the line ends of a text end, when the text starts at a given offset. A line
ends with a line feed, with a carriage return and a line feed, or with a carriage return alone. -/
def lineEnds (offset : Nat) : Text → List Nat
  | '\r' :: '\n' :: rest => (offset + 2) :: lineEnds (offset + 2) rest
  | '\r' :: rest => (offset + 1) :: lineEnds (offset + 1) rest
  | '\n' :: rest => (offset + 1) :: lineEnds (offset + 1) rest
  | _ :: rest => lineEnds (offset + 1) rest
  | [] => []

/-- The line ends of a text that end before an offset or at it. -/
def lineEndsUpTo (offset : Nat) (text : Text) : List Nat :=
  (lineEnds 0 text).filter (· ≤ offset)

/-- Byte by byte, a line end ends where a byte ends the line. -/
theorem lineEnds_cons (offset : Nat) (c : Char) (rest : Text) :
    lineEnds offset (c :: rest) =
      if endsLine c rest then (offset + 1) :: lineEnds (offset + 1) rest
      else lineEnds (offset + 1) rest := by
  rw [lineEnds.eq_def]
  split
  · rename_i more same
    cases same
    rfl
  · rename_i noFeed same
    cases same
    have ends : endsLine '\r' rest = true := by
      cases rest with
      | nil => rfl
      | cons d more => simpa [endsLine] using fun same => noFeed more (by rw [same])
    rw [if_pos ends]
  · rename_i same
    cases same
    rfl
  · rename_i noPair noReturn noFeed same
    cases same
    have stays : endsLine c rest = false := by
      simpa [endsLine] using ⟨noFeed, fun isReturn => (noReturn isReturn).elim⟩
    rw [stays]
    rfl
  · rename_i same
    cases same

theorem lt_of_mem_lineEnds {offset : Nat} {text : Text} : ∀ e ∈ lineEnds offset text, offset < e := by
  induction text generalizing offset with
  | nil => exact List.forall_mem_nil _
  | cons c rest ih =>
    have later : ∀ e ∈ lineEnds (offset + 1) rest, offset < e := fun e inside => by
      have := ih e inside
      omega
    rw [lineEnds_cons]
    split
    · exact List.forall_mem_cons.mpr ⟨by omega, later⟩
    · exact later

theorem length_lineEnds_le (offset : Nat) (text : Text) :
    (lineEnds offset text).length ≤ text.length := by
  induction text generalizing offset with
  | nil => exact Nat.le_refl _
  | cons c rest ih =>
    have later := ih (offset + 1)
    rw [lineEnds_cons]
    split <;> simp only [List.length_cons] <;> omega

theorem le_of_mem_lineEnds {offset : Nat} {text : Text} :
    ∀ e ∈ lineEnds offset text, e ≤ offset + text.length := by
  induction text generalizing offset with
  | nil => exact List.forall_mem_nil _
  | cons c rest ih =>
    have later : ∀ e ∈ lineEnds (offset + 1) rest, e ≤ offset + (rest.length + 1) := fun e inside => by
      have := ih e inside
      omega
    rw [lineEnds_cons, List.length_cons]
    split
    · exact List.forall_mem_cons.mpr ⟨by omega, later⟩
    · exact later

/-- Up to the end of a text, all its line ends count. -/
theorem lineEndsUpTo_length (text : Text) : lineEndsUpTo text.length text = lineEnds 0 text := by
  refine List.filter_eq_self.mpr fun e inside => ?_
  have before := le_of_mem_lineEnds e inside
  simpa using before

theorem length_lineEnds_feeds (offset n : Nat) :
    (lineEnds offset (List.replicate n '\n')).length = n := by
  induction n generalizing offset with
  | zero => rfl
  | succ n ih =>
    rw [List.replicate_succ, lineEnds_cons, if_pos (by rfl), List.length_cons, ih]

theorem length_lineEndsUpTo_le (offset : Nat) (text : Text) :
    (lineEndsUpTo offset text).length ≤ text.length :=
  Nat.le_trans List.filter_sublist.length_le (length_lineEnds_le 0 text)

/-- No line end of a text ends where the text starts. -/
theorem filter_lineEnds_self (offset : Nat) (text : Text) :
    (lineEnds offset text).filter (· ≤ offset) = [] := by
  refine List.filter_eq_nil_iff.mpr fun e inside => ?_
  have later := lt_of_mem_lineEnds e inside
  simpa using later

/-- The place some bytes after another one, when the line ends in between are known. -/
def past (place : Position) (passed : List Nat) (n : Nat) : Position where
  line := place.line + passed.length
  column := passed.getLast?.elim (place.column + n) (place.offset + n - ·)
  offset := place.offset + n

/-- In a text that starts on the first line, a column is counted from the last line end. -/
theorem column_past (passed : List Nat) (n : Nat) :
    (({} : Position).past passed n).column = n - passed.getLastD 0 := by
  simp only [past, List.getLastD_eq_getLast?, Nat.zero_add]
  cases passed.getLast? with
  | none => rfl
  | some last => rfl

/-- A byte that ends no line moves the column. -/
theorem past_byte (place : Position) (passed : List Nat) (n : Nat) :
    (⟨place.line, place.column + 1, place.offset + 1⟩ : Position).past passed n =
      place.past passed (n + 1) := by
  simp only [past, Nat.add_assoc, Nat.add_comm 1 n]

/-- A byte that ends a line is the last line end passed until another one is. -/
theorem past_lineEnd (place : Position) (passed : List Nat) (n : Nat) :
    (⟨place.line + 1, 0, place.offset + 1⟩ : Position).past passed n =
      place.past ((place.offset + 1) :: passed) (n + 1) := by
  have moved : place.offset + 1 + n = place.offset + (n + 1) := by omega
  simp only [past, List.getLast?_cons, List.length_cons, Option.elim_some, moved, Position.mk.injEq,
    and_true]
  refine ⟨by omega, ?_⟩
  cases passed.getLast? with
  | none =>
    simp only [Option.elim_none, Option.getD_none]
    omega
  | some last => rfl

/-- The place after some bytes of a text is on the line after the last line end that it has passed. -/
theorem advance_eq_past (place : Position) {n : Nat} {text : Text} (inside : n ≤ text.length) :
    place.advance n text =
      place.past ((lineEnds place.offset text).filter (· ≤ place.offset + n)) n := by
  induction text generalizing n place with
  | nil =>
    have zero : n = 0 := Nat.le_zero.mp inside
    subst zero
    rfl
  | cons c rest ih =>
    cases n with
    | zero =>
      rw [Nat.add_zero, filter_lineEnds_self]
      rfl
    | succ n =>
      have inside : n ≤ rest.length := Nat.le_of_succ_le_succ inside
      have moved : place.offset + 1 + n = place.offset + (n + 1) := by omega
      rw [advance, lineEnds_cons]
      split
      · rw [ih _ inside, List.filter_cons_of_pos (by simp), past_lineEnd, moved]
      · rw [ih _ inside, past_byte, moved]

theorem offset_advance (place : Position) {n : Nat} {text : Text} (inside : n ≤ text.length) :
    (place.advance n text).offset = place.offset + n := by
  rw [advance_eq_past place inside, past]

end Position

/-! ## Joined line ends -/

namespace Normalization

/-- The bytes of a text are line joins: backslashes, or trigraphs for them, each with the line end
after it. -/
inductive IsJoins (trigraphs : Bool) : Text → Prop
  | nil : IsJoins trigraphs []
  | cons {backslash lineEnd rest : Text}
      (isBackslash : backslash = ['\\'] ∨ trigraphs = true ∧ backslash = ['?', '?', '/'])
      (isLineEnd : lineEnd = ['\n'] ∨ lineEnd = ['\r', '\n'] ∨ lineEnd = ['\r'])
      (more : IsJoins trigraphs rest) : IsJoins trigraphs (backslash ++ lineEnd ++ rest)

/-- The bytes of a logical backslash. -/
theorem Spells.backslash {trigraphs : Bool} {c : Char} {rest : Text} {head : Logical}
    (spelled : Spells trigraphs c rest head) (isBackslash : head.char = '\\') :
    c :: rest.take head.extra = ['\\'] ∨
      trigraphs = true ∧ c :: rest.take head.extra = ['?', '?', '/'] := by
  cases spelled with
  | @trigraph last replaced more on known =>
    cases isBackslash
    refine .inr ⟨on, ?_⟩
    unfold Normalization.trigraph at known
    split at known <;> first | rfl | cases known
  | returnAndFeed => cases isBackslash
  | returnAlone => cases isBackslash
  | plain =>
    cases isBackslash
    exact .inl rfl

/-- The bytes of a logical line feed. -/
theorem Spells.lineFeed {trigraphs : Bool} {c : Char} {rest : Text} {head : Logical}
    (spelled : Spells trigraphs c rest head) (isFeed : head.char = '\n') :
    c :: rest.take head.extra = ['\n'] ∨ c :: rest.take head.extra = ['\r', '\n'] ∨
      c :: rest.take head.extra = ['\r'] := by
  cases spelled with
  | @trigraph last replaced more on known =>
    cases isFeed
    unfold Normalization.trigraph at known
    split at known <;> cases known
  | returnAndFeed => exact .inr (.inl rfl)
  | returnAlone => exact .inr (.inr rfl)
  | plain =>
    cases isFeed
    exact .inl rfl

/-- A line join before other ones. -/
theorem IsJoins.of_lineJoin? {trigraphs : Bool} {c : Char} {rest more : Text} {extra : Nat}
    (join : lineJoin? trigraphs c rest = some extra) (later : IsJoins trigraphs more) :
    IsJoins trigraphs (c :: rest.take extra ++ more) := by
  obtain ⟨isBackslash, d, after, left, isFeed, rfl⟩ := lineJoin?_eq_some join
  have split :
      c :: rest.take ((logical trigraphs c rest).extra + 1 + (logical trigraphs d after).extra) =
        c :: rest.take (logical trigraphs c rest).extra ++
          d :: after.take (logical trigraphs d after).extra := by
    rw [Nat.add_assoc, List.take_add, left, Nat.add_comm 1, List.take_succ_cons, List.cons_append]
  rw [split]
  exact .cons ((spells_logical trigraphs c rest).backslash isBackslash)
    ((spells_logical trigraphs d after).lineFeed isFeed) later

end Normalization

/-! ## Offsets of logical characters -/

/-- A logical character stands at an offset of a text, and from its end up to a later offset all bytes
are line joins. -/
def Normalization.StandsAt (trigraphs : Bool) (decoded : Text) (c : Char) (offset next : Nat) : Prop :=
  ∃ first rest, decoded.drop offset = first :: rest ∧ (logical trigraphs first rest).char = c ∧
    offset + ((logical trigraphs first rest).extra + 1) ≤ next ∧
    IsJoins trigraphs (decoded.extract (offset + ((logical trigraphs first rest).extra + 1)) next)

namespace Text

variable {text rest : Text} {c : Char} {o n : Nat}

theorem drop_of_drop_eq_cons (here : text.drop o = c :: rest) (n : Nat) :
    text.drop (o + (n + 1)) = rest.drop n := by
  rw [← List.drop_drop, here, List.drop_succ_cons]

theorem length_of_drop_eq_cons (here : text.drop o = c :: rest) :
    text.length = o + rest.length + 1 := by
  have length := congrArg List.length here
  rw [List.length_drop, List.length_cons] at length
  omega

/-- A part of a text that starts with some bytes is these and a later part. -/
theorem extract_of_drop_eq_cons (here : text.drop o = c :: rest) {stop : Nat}
    (inside : o + (n + 1) ≤ stop) :
    text.extract o stop = c :: rest.take n ++ text.extract (o + (n + 1)) stop := by
  have length : stop - o = n + 1 + (stop - (o + (n + 1))) := by omega
  rw [List.extract_eq_take_drop, List.extract_eq_take_drop, drop_of_drop_eq_cons here, here, length,
    List.take_add, List.take_succ_cons, List.drop_succ_cons]

end Text

/-- The place behind some bytes that stand at an offset. -/
theorem Position.advance_of_drop_eq_cons {text rest : Text} {c : Char} {o : Nat}
    (here : text.drop o = c :: rest) (place : Position) (n : Nat) :
    (place.advance o text).advance (n + 1) (c :: rest) = place.advance (o + (n + 1)) text := by
  rw [advance_add place o, here]

namespace Source

open Normalization

/-- A text in logical characters with their places as a source. -/
def ofCharacters (characters : List (Char × Position) × Position) : Source :=
  ⟨characters.1.map Prod.fst, (characters.1.map Prod.snd).toArray, characters.2⟩

theorem place_ofCharacters_nil (finish : Position) (i : Nat) :
    (ofCharacters ([], finish)).place i = finish := by
  simp [ofCharacters, place]

theorem place_ofCharacters_zero (c : Char) (place : Position) (located : List (Char × Position))
    (finish : Position) : (ofCharacters ((c, place) :: located, finish)).place 0 = place := by
  simp [ofCharacters, Source.place]

theorem place_ofCharacters_succ (c : Char) (place : Position) (located : List (Char × Position))
    (finish : Position) (i : Nat) :
    (ofCharacters ((c, place) :: located, finish)).place (i + 1) =
      (ofCharacters (located, finish)).place i := by
  simp [ofCharacters, Source.place]

/-- A source lies in a decoded text from an offset on: every index has a place in the text, the
characters stand there one after the other, and nothing but line joins is left out. -/
structure LiesIn (source : Source) (trigraphs : Bool) (decoded : Text) (start : Nat) : Prop where
  placed : ∀ i, ∃ n ≤ decoded.length, source.place i = ({} : Position).advance n decoded
  starts : start ≤ (source.place 0).offset ∧
    IsJoins trigraphs (decoded.extract start (source.place 0).offset)
  stands : ∀ i c, source.text[i]? = some c →
    StandsAt trigraphs decoded c (source.place i).offset (source.place (i + 1)).offset
  ends : ∀ i, source.text.length ≤ i → (source.place i).offset = decoded.length

variable {trigraphs : Bool} {decoded rest : Text} {c : Char} {o : Nat}

/-- Before a source that lies in a text there may be one more line join. -/
theorem LiesIn.of_lineJoin? {source : Source} {extra : Nat} (here : decoded.drop o = c :: rest)
    (join : lineJoin? trigraphs c rest = some extra)
    (lies : source.LiesIn trigraphs decoded (o + (extra + 1))) : source.LiesIn trigraphs decoded o := by
  obtain ⟨later, joins⟩ := lies.starts
  refine ⟨lies.placed, ⟨by omega, ?_⟩, lies.stands, lies.ends⟩
  rw [Text.extract_of_drop_eq_cons here later]
  exact joins.of_lineJoin? join

/-- Before a source that lies in a text there may be one more character, at its place. -/
theorem LiesIn.cons {located : List (Char × Position)} {finish : Position}
    (here : decoded.drop o = c :: rest)
    (lies : (ofCharacters (located, finish)).LiesIn trigraphs decoded
      (o + ((logical trigraphs c rest).extra + 1))) :
    (ofCharacters
        (((logical trigraphs c rest).char, ({} : Position).advance o decoded) :: located, finish)).LiesIn
      trigraphs decoded o := by
  have length := Text.length_of_drop_eq_cons here
  have inside : o ≤ decoded.length := by omega
  have offset : (({} : Position).advance o decoded).offset = o := by
    rw [Position.offset_advance _ inside, Nat.zero_add]
  refine ⟨fun i => ?_, ?_, fun i d isNth => ?_, fun i past => ?_⟩
  · cases i with
    | zero => exact ⟨o, inside, place_ofCharacters_zero _ _ _ _⟩
    | succ i =>
      rw [place_ofCharacters_succ]
      exact lies.placed i
  · rw [place_ofCharacters_zero, offset, List.extract_eq_take_drop, Nat.sub_self, List.take_zero]
    exact ⟨Nat.le_refl o, .nil⟩
  · rw [place_ofCharacters_succ]
    cases i with
    | zero =>
      cases isNth
      rw [place_ofCharacters_zero, offset]
      exact ⟨c, rest, here, rfl, lies.starts⟩
    | succ i =>
      rw [place_ofCharacters_succ]
      exact lies.stands i d isNth
  · cases i with
    | zero => cases past
    | succ i =>
      rw [place_ofCharacters_succ]
      exact lies.ends i (Nat.le_of_succ_le_succ past)

/-- The logical characters from an offset on lie in the text. -/
theorem liesIn_characters (inside : o ≤ decoded.length) :
    (ofCharacters (characters trigraphs (({} : Position).advance o decoded) (decoded.drop o))).LiesIn
      trigraphs decoded o := by
  generalize start : ({} : Position).advance o decoded = place
  generalize left : decoded.drop o = text
  fun_induction characters trigraphs place text generalizing o with
  | case1 place =>
    have whole : o = decoded.length := Nat.le_antisymm inside (List.drop_eq_nil_iff.mp left)
    have offset : place.offset = o := by rw [← start, Position.offset_advance _ inside, Nat.zero_add]
    refine ⟨fun i => ⟨o, inside, ?_⟩, ?_, ?_, fun i _ => ?_⟩
    · rw [place_ofCharacters_nil, start]
    · rw [place_ofCharacters_nil, offset, List.extract_eq_take_drop, Nat.sub_self, List.take_zero]
      exact ⟨Nat.le_refl o, .nil⟩
    · rintro i c ⟨⟩
    · rw [place_ofCharacters_nil, offset, whole]
  | case2 place c rest extra join ih =>
    have length := Text.length_of_drop_eq_cons left
    have taken := lineJoin?_le join
    refine LiesIn.of_lineJoin? left join (ih (by omega) ?_ (Text.drop_of_drop_eq_cons left extra))
    rw [← start, Position.advance_of_drop_eq_cons left]
  | case3 place c rest noJoin head located finish later =>
    rename_i ih
    have length := Text.length_of_drop_eq_cons left
    have taken := extra_logical_le trigraphs c rest
    rw [← start]
    refine LiesIn.cons left ?_
    rw [← later]
    refine ih (by omega) ?_ (Text.drop_of_drop_eq_cons left head.extra)
    rw [← start, Position.advance_of_drop_eq_cons left]

/-- Every character of a source that lies in a text stands before the next one. -/
theorem LiesIn.offset_lt_succ {source : Source} (lies : source.LiesIn trigraphs decoded o) {i : Nat}
    (inside : i < source.text.length) :
    (source.place i).offset < (source.place (i + 1)).offset := by
  obtain ⟨first, rest, -, -, after, -⟩ := lies.stands i _ (List.getElem?_eq_getElem inside)
  omega

theorem LiesIn.offset_lt {source : Source} (lies : source.LiesIn trigraphs decoded o) {i j : Nat}
    (before : i < j) (inside : j ≤ source.text.length) :
    (source.place i).offset < (source.place j).offset := by
  induction before with
  | refl => exact lies.offset_lt_succ inside
  | step before ih =>
    exact Nat.lt_trans (ih (Nat.le_of_succ_le inside)) (lies.offset_lt_succ inside)

/-- Where an index has its place, with the line ends that come before it. -/
theorem LiesIn.place_eq {source : Source} (lies : source.LiesIn trigraphs decoded o) (i : Nat) :
    (source.place i).offset ≤ decoded.length ∧
      source.place i = ({} : Position).past
        (Position.lineEndsUpTo (source.place i).offset decoded) (source.place i).offset := by
  obtain ⟨n, inside, same⟩ := lies.placed i
  have offset : (source.place i).offset = n := by
    rw [same, Position.offset_advance _ inside, Nat.zero_add]
  have past := Position.advance_eq_past {} inside
  rw [Nat.zero_add] at past
  rw [offset]
  exact ⟨inside, same.trans past⟩

/-- The positions of a source say where its logical characters stand in the decoded text. -/
structure IsPlacedIn (source : Source) (trigraphs : Bool) (decoded : Text) : Prop where
  /-- Nothing but line joins comes before the first character. -/
  starts : IsJoins trigraphs (decoded.take (source.position 0).offset)
  /-- Each character is the logical one at its offset, with nothing but line joins up to the next. -/
  stands : ∀ i c, source.text[i]? = some c →
    StandsAt trigraphs decoded c (source.position i).offset (source.position (i + 1)).offset
  ends : ∀ i, source.text.length ≤ i → (source.position i).offset = decoded.length
  increases : ∀ i j, i < j → j ≤ source.text.length →
    (source.position i).offset < (source.position j).offset
  line : ∀ i, (source.position i).line =
    (1 + (Position.lineEndsUpTo (source.position i).offset decoded).length) % Nat.pow 2 32
  column : ∀ i, (source.position i).column =
    ((source.position i).offset
      - (Position.lineEndsUpTo (source.position i).offset decoded).getLastD 0) % Nat.pow 2 32

/-- The positions of a source are exact in 32 bits, whatever trigraphs, line joins and line ends its
text has. If the text has fewer than `2 ^ 32` bytes, the columns are exact numbers, and so are the
lines up to the end of a text in which each of `2 ^ 32 - 1` bytes ends a line. -/
theorem isPlacedIn_ofDecoded (trigraphs : Bool) (decoded : Text) :
    let source := ofDecoded trigraphs decoded
    source.IsPlacedIn trigraphs decoded ∧
      (decoded.length < Nat.pow 2 32 → ∀ i,
        let passed := Position.lineEndsUpTo (source.position i).offset decoded
        (source.position i).column = (source.position i).offset - passed.getLastD 0 ∧
          ((source.position i).line = 1 + passed.length ∨
            (source.position i).line = 0 ∧ passed.length = decoded.length ∧
              decoded.length = Nat.pow 2 32 - 1)) := by
  intro source
  have lies : source.LiesIn trigraphs decoded 0 := liesIn_characters (Nat.zero_le _)
  have starts := lies.starts.2
  rw [List.extract_eq_take_drop, List.drop_zero, Nat.sub_zero] at starts
  have line (i : Nat) := congrArg (·.line % Nat.pow 2 32) (lies.place_eq i).2
  have column (i : Nat) := congrArg (·.column % Nat.pow 2 32) (lies.place_eq i).2
  simp only [Position.column_past] at column
  refine ⟨⟨starts, lies.stands, lies.ends, fun i j => lies.offset_lt, line, column⟩,
    fun short i => ⟨?_, ?_⟩⟩
  · have inside := (lies.place_eq i).1
    exact (column i).trans (Nat.mod_eq_of_lt (by omega))
  · have counted := (Position.length_lineEndsUpTo_le (source.position i).offset decoded)
    by_cases fits : 1 + (Position.lineEndsUpTo (source.position i).offset decoded).length < Nat.pow 2 32
    · exact .inl ((line i).trans (Nat.mod_eq_of_lt fits))
    · have full : 1 + (Position.lineEndsUpTo (source.position i).offset decoded).length
          = Nat.pow 2 32 := by omega
      have wraps : (source.position i).line
          = (1 + (Position.lineEndsUpTo (source.position i).offset decoded).length) % Nat.pow 2 32 :=
        line i
      rw [full, Nat.mod_self] at wraps
      exact .inr ⟨wraps, by omega, by omega⟩

/-- The line after the last of `n` line feeds, with the line ends that come before it. -/
theorem line_place_feeds (n : Nat) :
    let source := ofDecoded false (List.replicate n '\n')
    (source.place source.text.length).line = 1 + n ∧
      (Position.lineEndsUpTo (source.place source.text.length).offset
        (List.replicate n '\n')).length = n := by
  intro source
  have lies : source.LiesIn false (List.replicate n '\n') 0 := liesIn_characters (Nat.zero_le _)
  have offset := lies.ends source.text.length (Nat.le_refl _)
  have passed : (Position.lineEndsUpTo (source.place source.text.length).offset
      (List.replicate n '\n')).length = n := by
    rw [offset, Position.lineEndsUpTo_length, Position.length_lineEnds_feeds]
  have line := congrArg Position.line (lies.place_eq source.text.length).2
  rw [Position.past, passed] at line
  exact ⟨line, passed⟩

/-- The line after `2 ^ 32 - 1` line feeds is reported as line 0. -/
theorem line_position_feeds {n : Nat} (full : 1 + n = Nat.pow 2 32) :
    let source := ofDecoded false (List.replicate n '\n')
    (source.position source.text.length).line = 0 := by
  intro source
  show (source.place source.text.length).line % Nat.pow 2 32 = 0
  rw [(line_place_feeds n).1, full, Nat.mod_self]

/-- In 32 bits not every line can be told: `2 ^ 32 - 1` line feeds are fewer than `2 ^ 32` bytes, and the
line after the last one is not one plus the number of line ends before it. -/
theorem line_position_feeds_wraps :
    let decoded := List.replicate (Nat.pow 2 32 - 1) '\n'
    let source := ofDecoded false decoded
    decoded.length < Nat.pow 2 32 ∧
      (source.position source.text.length).line ≠
        1 + (Position.lineEndsUpTo (source.position source.text.length).offset decoded).length := by
  have full : 1 + (Nat.pow 2 32 - 1) = Nat.pow 2 32 := rfl
  generalize Nat.pow 2 32 - 1 = n at full ⊢
  refine ⟨?_, ?_⟩
  · rw [List.length_replicate]
    omega
  · rw [line_position_feeds full]
    omega

/-- Two joins with line ends of different kinds come before the third character, which ends line
three. -/
example : (ofDecoded true "a??/\r\n\\\rb\nc".toList).position 2 = ⟨3, 1, 9⟩ := by
  decide +kernel

end Source

end CPreprocessor
