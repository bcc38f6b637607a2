/-
# Where reading comes to a stop

A text is read piece by piece: blanks, line feeds, comments and lexemes. Where a piece
ends at a line end, the text before the line end was read without what follows it. Only
a raw literal or a block comment looks further than its line, so this has to be asked
for: `stopsAt` says that no piece goes over a place. `Lexeme.read_line` and
`Gap.read_line` then cut the text there.
-/
import CPreprocessor.Proofs.Lexing.Feeds

namespace CPreprocessor

variable {part tail : Text}

/-! ## Lexemes -/

namespace Literal

/-- A raw literal that is closed in the line is closed whatever follows the line. -/
theorem rawLength?_line {n : Nat} (found : rawLength? (part ++ '\n' :: tail) = some n)
    (inside : n ≤ part.length) (other : Text) : rawLength? (part ++ '\n' :: other) = some n := by
  obtain ⟨closed, rest, same, length, reads⟩ := exists_append_of_rawLength? found
  obtain ⟨more, rfl, rfl⟩ := Text.exists_append_of_length_lt same (by omega)
  have again := reads (more ++ '\n' :: other)
  rw [List.append_assoc, List.cons_append, again, length, suffixLength_feed more tail,
    suffixLength_feed more other]

end Literal

namespace Lexeme

variable {language : Language}

theorem punctuatorLength_line
    (short : language.punctuatorLength (part ++ '\n' :: tail) ≤ part.length) :
    language.punctuatorLength (part ++ '\n' :: tail)
      = language.punctuatorLength (part ++ ['\n']) := by
  have longest (text : Text) := Language.punctuatorLength_le.mp
    (Nat.le_refl (language.punctuatorLength text))
  apply Nat.le_antisymm
  · rw [Language.punctuatorLength_le]
    intro p known isPrefix
    have inLine : p <+: part := List.prefix_of_prefix_length_le isPrefix (List.prefix_append _ _)
      (Nat.le_trans (longest _ p known isPrefix) short)
    exact longest _ p known (inLine.trans (List.prefix_append _ _))
  · rw [Language.punctuatorLength_le]
    intro p known isPrefix
    have whole : part ++ ['\n'] <+: part ++ '\n' :: tail := ⟨tail, by simp⟩
    exact longest _ p known (isPrefix.trans whole)

theorem readRaw_line {opening : Literal.Opening} (inside : opening.prefixLength < part.length)
    (short : (readRaw (part ++ '\n' :: tail) opening).length ≤ part.length) :
    readRaw (part ++ '\n' :: tail) opening = readRaw (part ++ ['\n']) opening := by
  have start : opening.prefixLength + 1 ≤ part.length := inside
  simp only [readRaw, Text.drop_line start] at short ⊢
  cases found : Literal.rawLength? (part.drop (opening.prefixLength + 1) ++ '\n' :: tail) with
  | some more =>
    simp only [found] at short
    have closed := Literal.rawLength?_line found (by rw [List.length_drop]; omega) []
    simp only [closed]
  | none =>
    have line : part.drop (opening.prefixLength + 1) ++ ['\n'] <+:
        part.drop (opening.prefixLength + 1) ++ '\n' :: tail := ⟨tail, by simp⟩
    simp only [Literal.rawLength?_of_prefix line found, Text.lineLength_feed]

/-- A lexeme that ends in its line is read without what follows the line. -/
theorem read_line (short : (read language (part ++ '\n' :: tail)).length ≤ part.length) :
    read language (part ++ '\n' :: tail) = read language (part ++ ['\n']) := by
  by_cases nonempty : part = []
  · subst nonempty
    have positive := length_read_pos language ([] ++ '\n' :: tail)
    exact absurd short (Nat.not_le_of_lt positive)
  have first (tail : Text) : Text.first (part ++ '\n' :: tail) = Text.first part :=
    Text.first_append nonempty _
  simp only [read, startsNumber_feed nonempty, Literal.opening?_feed, first] at short ⊢
  split
  · rw [readNumber_feed nonempty, readNumber_feed nonempty]
  · rename_i number
    rw [if_neg number] at short
    split
    · rename_i opening opens
      simp only [opens] at short
      have inside := Literal.prefixLength_lt_of_opening? opens
      split
      · rename_i raw
        rw [if_pos raw] at short
        exact readRaw_line inside short
      · have noFeed := Literal.quote_ne_feed opens
        rw [readQuoted_feed inside noFeed, readQuoted_feed inside noFeed]
    · rename_i opens
      simp only [opens] at short
      split
      · rw [readName_feed nonempty, readName_feed nonempty]
      · rename_i name
        rw [if_neg name] at short
        rw [punctuatorLength_line (Nat.le_trans (Nat.le_max_right _ _) short)]

end Lexeme

/-! ## Gaps -/

namespace Gap

/-- A block comment that is closed before a line end is read without what follows the line. -/
theorem blockComment_line (closed : (blockComment (part ++ '\n' :: tail)).2 = true)
    (inside : (blockComment (part ++ '\n' :: tail)).1 ≤ part.length) (other : Text) :
    blockComment (part ++ '\n' :: other) = blockComment (part ++ '\n' :: tail) := by
  unfold blockComment at closed inside ⊢
  cases found : Text.find? ['*', '/'] (part ++ '\n' :: tail) with
  | none =>
    rw [found] at closed
    cases closed
  | some n =>
    rw [found] at inside
    obtain ⟨before, after, same, rfl⟩ := Text.exists_append_of_find? found
    have split : part ++ '\n' :: tail = (before ++ ['*']) ++ '/' :: after := by rw [same]; simp
    obtain ⟨more, cut, -⟩ := Text.exists_append_of_length_lt split
      (by rw [List.length_append, List.length_singleton]; exact inside)
    have again := Text.find?_append (same ▸ found) (more ++ '\n' :: other)
    have whole : part ++ '\n' :: other = before ++ (['*', '/'] ++ (more ++ '\n' :: other)) := by
      rw [cut]
      simp
    rw [whole, again]

end Gap

/-- The length of what a text starts with: a blank, a line feed, a comment or a lexeme. A block
comment that is not closed does not end. -/
def pieceLength? (language : Language) : Text → Option Nat
  | [] => none
  | c :: rest =>
    if c = '\n' || Text.isBlank c then some 1
    else if c = '/' && Text.first rest = '/' then some (1 + Text.lineLength rest)
    else if c = '/' && Text.first rest = '*' then
      if (Gap.blockComment (rest.drop 1)).2 then some (2 + (Gap.blockComment (rest.drop 1)).1)
      else none
    else some (Lexeme.read language (c :: rest)).length

/-- No comment and no lexeme of a text stands across the place after `n` characters. -/
def stopsAt (language : Language) (n : Nat) (text : Text) : Bool :=
  if n = 0 then
    true
  else
    match pieceLength? language text with
    | none => false
    | some k =>
      if _inside : 0 < k ∧ k ≤ n then stopsAt language (n - k) (text.drop k) else false
  termination_by n

section Stops

variable {language : Language}

theorem exists_piece {n : Nat} {text : Text} (stops : stopsAt language n text = true)
    (positive : 0 < n) :
    ∃ k, pieceLength? language text = some k ∧ 0 < k ∧ k ≤ n
      ∧ stopsAt language (n - k) (text.drop k) = true := by
  rw [stopsAt, if_neg (Nat.ne_of_gt positive)] at stops
  cases found : pieceLength? language text with
  | none =>
    rw [found] at stops
    cases stops
  | some k =>
    simp only [found] at stops
    split at stops
    · rename_i inside
      exact ⟨k, rfl, inside.1, inside.2, stops⟩
    · cases stops

theorem Gap.starts_cons_eq_false {c : Char} {rest : Text} :
    starts (c :: rest) = false ↔ c ≠ '\n' ∧ Text.isBlank c = false
      ∧ ¬(c = '/' ∧ Text.first rest = '/') ∧ ¬(c = '/' ∧ Text.first rest = '*') := by
  by_cases lineFeed : c = '\n' <;> by_cases slash : c = '/' <;> simp [starts, lineFeed, slash]

theorem pieceLength?_of_not_starts {text : Text} (nonempty : text ≠ [])
    (bare : Gap.starts text = false) :
    pieceLength? language text = some (Lexeme.read language text).length := by
  cases text with
  | nil => exact absurd rfl nonempty
  | cons c rest =>
    obtain ⟨lineFeed, blank, line, block⟩ := Gap.starts_cons_eq_false.mp bare
    simp only [pieceLength?, Bool.or_eq_true, Bool.and_eq_true, decide_eq_true_eq]
    rw [if_neg (by simp [lineFeed, blank]), if_neg line, if_neg block]

/-- A lexeme does not go over a place where reading comes to a stop. -/
theorem stopsAt_lexeme (bare : Gap.starts (part ++ '\n' :: tail) = false)
    (stops : stopsAt language part.length (part ++ '\n' :: tail) = true) :
    ∃ lexeme later, part = lexeme ++ later
      ∧ (Lexeme.read language (part ++ '\n' :: tail)).length = lexeme.length
      ∧ stopsAt language later.length (later ++ '\n' :: tail) = true := by
  have nonempty : part ≠ [] := by
    rintro rfl
    cases bare
  obtain ⟨k, found, -, inside, more⟩ := exists_piece stops (List.length_pos_iff.mpr nonempty)
  rw [pieceLength?_of_not_starts (by simp) bare, Option.some.injEq] at found
  refine ⟨part.take k, part.drop k, (List.take_append_drop k part).symm, ?_, ?_⟩
  · rw [found, List.length_take, Nat.min_eq_left inside]
  · rwa [List.length_drop, ← Text.drop_line inside]

namespace Gap

/-- The gap at the start of a line goes over the line end. -/
structure GoesOver (part tail : Text) : Prop where
  whole : read true (part ++ '\n' :: tail) = (read true tail).after (part.length + 1) true
  line : read true (part ++ ['\n']) = { length := part.length + 1, newline := true }

/-- The gap at the start of a line ends in it, before a lexeme or the line end, where reading comes to
a stop. -/
structure EndsInLine (language : Language) (acrossLines : Bool) (part tail : Text) : Prop where
  line : read acrossLines (part ++ '\n' :: tail) = read acrossLines (part ++ ['\n'])
  closed : (read acrossLines (part ++ '\n' :: tail)).openComment = false
  later : ∃ gap later, part = gap ++ later
    ∧ (read acrossLines (part ++ '\n' :: tail)).length = gap.length
    ∧ stopsAt language later.length (later ++ '\n' :: tail) = true
    ∧ (starts (later ++ '\n' :: tail) = false
      ∨ acrossLines = false ∧ Text.first (later ++ '\n' :: tail) = '\n')

section Pieces

variable {n : Nat} {newline : Bool} (inside : n ≤ part.length)
include inside

theorem GoesOver.of_drop (crossed : GoesOver (part.drop n) tail)
    (goesOn : ∀ tail, read true (part ++ '\n' :: tail)
      = (read true (part.drop n ++ '\n' :: tail)).after n newline) : GoesOver part tail where
  whole := by
    rw [goesOn tail, crossed.whole]
    simp only [after, List.length_drop, Bool.true_or, Bool.or_true, Gap.mk.injEq, and_true]
    omega
  line := by
    rw [goesOn [], crossed.line]
    simp only [after, List.length_drop, Bool.or_true, Gap.mk.injEq, and_true]
    omega

theorem EndsInLine.of_drop {acrossLines : Bool}
    (ends : EndsInLine language acrossLines (part.drop n) tail)
    (goesOn : ∀ tail, read acrossLines (part ++ '\n' :: tail)
      = (read acrossLines (part.drop n ++ '\n' :: tail)).after n newline) :
    EndsInLine language acrossLines part tail where
  line := by rw [goesOn tail, goesOn [], ends.line]
  closed := by
    rw [goesOn tail]
    exact ends.closed
  later := by
    obtain ⟨gap, later, cut, length, stops, bare⟩ := ends.later
    refine ⟨part.take n ++ gap, later, ?_, ?_, stops, bare⟩
    · rw [List.append_assoc, ← cut, List.take_append_drop]
    · rw [goesOn tail, List.length_append, List.length_take, Nat.min_eq_left inside, ← length]
      rfl

end Pieces

theorem EndsInLine.of_empty {acrossLines : Bool}
    (empty : ∀ tail, read acrossLines (part ++ '\n' :: tail) = {})
    (stops : stopsAt language part.length (part ++ '\n' :: tail) = true)
    (bare : starts (part ++ '\n' :: tail) = false
      ∨ acrossLines = false ∧ Text.first (part ++ '\n' :: tail) = '\n') :
    EndsInLine language acrossLines part tail where
  line := by rw [empty, empty]
  closed := by rw [empty]
  later := ⟨[], part, rfl, by rw [empty]; rfl, stops, bare⟩

/-- Where reading comes to a stop at a line end, the gap before it goes over the line end, or it ends in
the line and is read without what follows. -/
theorem read_line (acrossLines : Bool)
    (stops : stopsAt language part.length (part ++ '\n' :: tail) = true) :
    acrossLines = true ∧ GoesOver part tail ∨ EndsInLine language acrossLines part tail := by
  induction size : part.length using Nat.strongRecOn generalizing part with
  | ind length ih =>
    subst size
    -- The gap goes on after its first piece.
    have piece (newline : Bool) {n : Nat} (positive : 0 < n) (inside : n ≤ part.length)
        (more : stopsAt language (part.length - n) ((part ++ '\n' :: tail).drop n) = true)
        (goesOn : ∀ tail, read acrossLines (part ++ '\n' :: tail)
          = (read acrossLines (part.drop n ++ '\n' :: tail)).after n newline) :
        acrossLines = true ∧ GoesOver part tail ∨ EndsInLine language acrossLines part tail := by
      rw [Text.drop_line inside, ← List.length_drop] at more
      obtain ⟨rfl, crossed⟩ | ends := ih _ (by rw [List.length_drop]; omega) more rfl
      · exact .inl ⟨rfl, crossed.of_drop inside goesOn⟩
      · exact .inr (ends.of_drop inside goesOn)
    cases part with
    | nil =>
      cases acrossLines with
      | true =>
        refine .inl ⟨rfl, ?_, ?_⟩
        · rw [List.nil_append, read_cons, if_pos rfl, if_pos rfl]
          rfl
        · rw [List.nil_append, read_cons, if_pos rfl, if_pos rfl, read_nil]
          rfl
      | false =>
        refine .inr (.of_empty (fun other => ?_) stops (.inr ⟨rfl, rfl⟩))
        rw [List.nil_append, read_cons, if_pos rfl, if_neg Bool.false_ne_true]
    | cons c part =>
      obtain ⟨k, found, positive, inside, more⟩ := exists_piece stops (Nat.succ_pos _)
      have first (other : Text) : Text.first (part ++ '\n' :: other) = Text.first (part ++ ['\n']) := by
        cases part <;> rfl
      have lineLength (other : Text) :
          Text.lineLength (part ++ '\n' :: other) = Text.lineLength (part ++ ['\n']) :=
        (Text.lineLength_feed part other).trans (Text.lineLength_feed part []).symm
      simp only [List.cons_append, pieceLength?, first tail, lineLength tail, Bool.or_eq_true,
        Bool.and_eq_true, decide_eq_true_eq] at found
      by_cases lineFeed : c = '\n'
      · rw [if_pos (.inl lineFeed), Option.some.injEq] at found
        subst found
        cases acrossLines with
        | true =>
          refine piece true positive inside more fun other => ?_
          rw [List.cons_append, read_cons, if_pos lineFeed, if_pos rfl]
          rfl
        | false =>
          refine .inr (.of_empty (fun other => ?_) stops (.inr ⟨rfl, lineFeed⟩))
          rw [List.cons_append, read_cons, if_pos lineFeed, if_neg Bool.false_ne_true]
      by_cases blank : Text.isBlank c = true
      · rw [if_pos (.inr blank), Option.some.injEq] at found
        subst found
        refine piece false positive inside more fun other => ?_
        rw [List.cons_append, read_cons, if_neg lineFeed, if_pos blank]
        rfl
      rw [if_neg (by simp [lineFeed, blank])] at found
      by_cases line : c = '/' ∧ Text.first (part ++ ['\n']) = '/'
      · rw [if_pos line, Option.some.injEq] at found
        subst found
        refine piece false positive inside more fun other => ?_
        rw [List.length_cons] at inside
        rw [List.cons_append, read_cons, if_neg lineFeed, if_neg blank, first other,
          if_pos (by simpa using line), lineLength other, Text.drop_line (by omega), Nat.add_comm 1,
          List.drop_succ_cons]
      rw [if_neg line] at found
      by_cases block : c = '/' ∧ Text.first (part ++ ['\n']) = '*'
      · rw [if_pos block] at found
        obtain ⟨body, rfl⟩ : ∃ body, part = '*' :: body := by
          cases part with
          | nil => exact absurd block.2 (by decide)
          | cons d body => exact ⟨body, by rw [← block.2]; rfl⟩
        rw [List.cons_append, List.drop_succ_cons, List.drop_zero] at found
        split at found
        · rename_i closed
          rw [Option.some.injEq] at found
          subst found
          simp only [List.length_cons] at inside
          have comment := blockComment_line closed (by omega)
          refine piece false positive (by simpa only [List.length_cons]) more fun other => ?_
          rw [List.cons_append, read_cons, if_neg lineFeed, if_neg blank, first other,
            if_neg (by simp), if_pos (by simp [block.1]), List.cons_append,
            List.drop_succ_cons, List.drop_zero, comment other, if_pos closed, Nat.add_comm 1,
            List.drop_succ_cons, Text.drop_line (by omega), Nat.add_comm 2, List.drop_succ_cons,
            List.drop_succ_cons]
        · cases found
      · refine .inr (.of_empty (fun other => ?_) stops (.inl ?_))
        · rw [List.cons_append, read_cons, if_neg lineFeed, if_neg blank, first other,
            if_neg (by simpa using line), if_neg (by simpa using block)]
        · rw [List.cons_append, starts_cons_eq_false, first tail]
          exact ⟨lineFeed, by simpa using blank, line, block⟩

end Gap

end Stops

end CPreprocessor
