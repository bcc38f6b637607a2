/-
# White space and comments as tokens

A lexer that keeps white space and comments takes the text apart without loss: its
lexemes, one after the other, are the text, and each token stands where its first
character stands, whatever numbers line directives give to the lines. A lexer that skips
them folds a whole gap into the flags of the next token. Taken piece by piece the gap sets
the same flags, so both lexers give the same tokens between the gaps.
-/
import CPreprocessor.Proofs.Lexing.Standing
import CPreprocessor.Proofs.Source.Offsets

namespace CPreprocessor

/-! ## The pieces of a gap -/

namespace Gap

/-- One gap directly after another. -/
def followedBy (first second : Gap) : Gap where
  length := first.length + second.length
  newline := first.newline || second.newline
  openComment := first.openComment || second.openComment

/-- The run of white space or the comment that a text starts with, and its kind as a token. -/
def first? (text : Text) : Option (TokenKind × Gap) :=
  let white := text.takeWhile fun c => c = '\n' || Text.isBlank c
  if white ≠ [] then
    some (.whitespace, { length := white.length, newline := white.contains '\n' })
  else if text.take 2 = ['/', '/'] then
    some (.comment, { length := Text.lineLength text })
  else if text.take 2 = ['/', '*'] then
    let block := blockComment (text.drop 2)
    some (.comment, { length := 2 + block.1, openComment := !block.2 })
  else
    none

theorem after_eq (n : Nat) (newline : Bool) (gap : Gap) :
    gap.after n newline = followedBy { length := n, newline } gap := by
  simp [after, followedBy]

/-- White space leads a gap on to whatever follows it. -/
theorem read_white_append {white : Text} (isWhite : white.IsWhite) (rest : Text) :
    read true (white ++ rest) =
      followedBy { length := white.length, newline := white.contains '\n' } (read true rest) := by
  induction white with
  | nil => simp [followedBy]
  | cons c white ih =>
    obtain ⟨here, later⟩ := List.forall_mem_cons.mp isWhite
    rw [List.cons_append, read_cons, ih later]
    by_cases feed : c = '\n'
    · subst feed
      simp [after, followedBy]
      omega
    · have blank := here.resolve_left feed
      simp [after, followedBy, feed, blank, Ne.symm feed]
      omega

/-- White space that ends before a text is one piece. -/
theorem first?_white {white rest : Text} (nonempty : white ≠ []) (isWhite : white.IsWhite)
    (ends : (Text.first rest = '\n' || Text.isBlank (Text.first rest)) = false) :
    first? (white ++ rest) =
      some (.whitespace, { length := white.length, newline := white.contains '\n' }) := by
  have run : (white ++ rest).takeWhile (fun c => c = '\n' || Text.isBlank c) = white :=
    Text.takeWhile_append (fun c present => by simpa using isWhite c present) ends
  simp only [first?, run, ne_eq, nonempty, not_false_eq_true, if_true]

theorem first?_line (rest : Text) :
    first? ('/' :: '/' :: rest) = some (.comment, { length := 2 + Text.lineLength rest }) := by
  simp [first?, Text.isBlank, Text.lineLength]
  omega

theorem first?_block (rest : Text) :
    first? ('/' :: '*' :: rest) =
      some (.comment,
        { length := 2 + (blockComment rest).1, openComment := !(blockComment rest).2 }) := by
  simp [first?, Text.isBlank]

/-- A piece of a gap is a run of white space or one of the two kinds of comments. -/
theorem exists_of_first? {text : Text} {piece : TokenKind × Gap} (found : first? text = some piece) :
    (∃ white rest, text = white ++ rest ∧ white ≠ [] ∧ white.IsWhite ∧
        (Text.first rest = '\n' || Text.isBlank (Text.first rest)) = false) ∨
      (∃ rest, text = '/' :: '/' :: rest) ∨ ∃ rest, text = '/' :: '*' :: rest := by
  have opening {second : Char} (starts : text.take 2 = ['/', second]) :
      ∃ rest, text = '/' :: second :: rest :=
    ⟨text.drop 2, by rw [← List.take_append_drop 2 text, starts]; simp⟩
  unfold first? at found
  simp only at found
  split_ifs at found with white line block
  · refine .inl ⟨_, _, (List.takeWhile_append_dropWhile).symm, white, fun c present => ?_, ?_⟩
    · simpa using List.mem_takeWhile_imp present
    · cases rest : text.dropWhile fun c => c = '\n' || Text.isBlank c with
      | nil => rfl
      | cons c after =>
        have stops := List.head?_dropWhile_not (fun c => c = '\n' || Text.isBlank c) text
        rw [rest] at stops
        exact stops
  · exact .inr (.inl (opening line))
  · exact .inr (.inr (opening block))

/-- A piece of a gap is not empty and no longer than its text. -/
theorem length_first? {text : Text} {kind : TokenKind} {gap : Gap}
    (found : first? text = some (kind, gap)) : 0 < gap.length ∧ gap.length ≤ text.length := by
  obtain ⟨white, rest, rfl, nonempty, isWhite, ends⟩ | ⟨rest, rfl⟩ | ⟨rest, rfl⟩ :=
    exists_of_first? found
  · rw [first?_white nonempty isWhite ends] at found
    cases found
    rw [List.length_append]
    exact ⟨List.length_pos_iff.mpr nonempty, Nat.le_add_right _ _⟩
  · rw [first?_line] at found
    cases found
    have inside := Text.lineLength_le rest
    simp only [List.length_cons]
    omega
  · rw [first?_block] at found
    cases found
    have inside := blockComment_le rest
    simp only [List.length_cons]
    omega

/-- A gap is its first piece and the gap after that. -/
theorem read_of_first? {text : Text} {kind : TokenKind} {gap : Gap}
    (found : first? text = some (kind, gap)) :
    read true text = gap.followedBy (read true (text.drop gap.length)) := by
  obtain ⟨white, rest, rfl, nonempty, isWhite, ends⟩ | ⟨rest, rfl⟩ | ⟨rest, rfl⟩ :=
    exists_of_first? found
  · rw [first?_white nonempty isWhite ends] at found
    cases found
    rw [read_white_append isWhite, List.drop_left]
  · rw [first?_line] at found
    cases found
    have same : 1 + Text.lineLength ('/' :: rest) = 2 + Text.lineLength rest := by
      simp [Text.lineLength]
      omega
    have left : ('/' :: '/' :: rest).drop (2 + Text.lineLength rest) =
        ('/' :: rest).drop (Text.lineLength ('/' :: rest)) := by
      rw [← same, Nat.add_comm, List.drop_succ_cons]
    rw [read_cons]
    simp only [left, after_eq, same]
    rfl
  · rw [first?_block] at found
    cases found
    have left (n : Nat) : ('/' :: '*' :: rest).drop (2 + n) = rest.drop n := by
      rw [Nat.add_comm]
      rfl
    have sameRest (n : Nat) : ('*' :: rest).drop (1 + n) = rest.drop n := by
      rw [Nat.add_comm]
      rfl
    rw [read_cons]
    cases closed : (blockComment rest).2 with
    | true =>
      simp [Text.isBlank, closed, left, sameRest, after_eq]
    | false =>
      have all := length_of_blockComment closed
      simp [Text.isBlank, closed, left, all, read_nil, followedBy]

end Gap

/-! ## Taking the pieces -/

namespace Lexer

variable {l : Lexer}

/-- A piece of a gap is taken like any token; the flags keep what it says about the gap. -/
theorem takeTrivia?_eq (l : Lexer) :
    l.takeTrivia? = (Gap.first? l.rest).map fun piece =>
      ((l.take piece.1 piece.2.length none).1,
        { (l.take piece.1 piece.2.length none).2 with
          atLineStart := piece.2.newline || l.atLineStart
          afterSpace := true
          openComment := l.openComment || piece.2.openComment }) := by
  unfold takeTrivia? Gap.first?
  simp only
  split_ifs with white line block
  · simp [take]
  · simp [take]
  · simp [take]
  · rfl

/-! ## Every character is in a token -/

/-- What a lexer that keeps white space takes: a piece of its text or, at the end of it, nothing. The
token stands at the first character that was not read, and the lexer goes on behind the token. -/
structure TakesPiece (l : Lexer) (taken : Token × Lexer) : Prop where
  split : taken.1.lexeme ++ taken.2.rest = l.rest
  empty : taken.1.isEnd = true → l.rest = []
  nonempty : taken.1.isEnd = false → taken.1.lexeme ≠ []
  line : taken.1.line = lineNumber ((l.source.position l.index).line + l.lineShift)
  column : taken.1.column = (l.source.position l.index).column
  offset : taken.1.offset = (l.source.position l.index).offset
  index : taken.2.index = l.index + taken.1.lexeme.length
  source : taken.2.source = l.source
  keeps : taken.2.keepsTrivia = l.keepsTrivia
  lineShift : taken.2.lineShift = l.lineShift
  peeked : taken.2.peeked = l.peeked

theorem takesPiece_take {kind : TokenKind} {n : Nat} (error : Option LexError)
    (inside : n ≤ l.rest.length) (empty : kind = .endOfFile → l.rest = [])
    (nonempty : kind ≠ .endOfFile → 0 < n) : l.TakesPiece (l.take kind n error) where
  split := List.take_append_drop _ _
  empty isEnd := empty (by simpa [take, Token.isEnd] using isEnd)
  nonempty noEnd := by
    have positive := nonempty (by simpa [take, Token.isEnd] using noEnd)
    apply List.ne_nil_of_length_pos
    simp only [take, List.length_take]
    omega
  line := rfl
  column := rfl
  offset := rfl
  index := by simp only [take, List.length_take, Nat.min_eq_left inside]
  source := rfl
  keeps := rfl
  lineShift := rfl
  peeked := rfl

/-- With white space kept, the next token is the next piece of the text. -/
theorem takesPiece_next (keeps : l.keepsTrivia = true) (fresh : l.peeked = none) :
    l.TakesPiece l.next := by
  have reading : l.next = l.takeTrivia?.getD l.takeLexeme := by
    rw [next, fresh, read, if_pos keeps]
  rw [reading, takeTrivia?_eq]
  cases found : Gap.first? l.rest with
  | some piece =>
    obtain ⟨kind, gap⟩ := piece
    obtain ⟨positive, inside⟩ := Gap.length_first? found
    have noEnd : kind ≠ .endOfFile := by
      have taken := takeTrivia?_eq l
      rw [found] at taken
      rintro rfl
      rcases (takeTrivia?_eq_some taken).1 with comment | whitespace
      · cases comment
      · cases whitespace
    have takes := takesPiece_take (l := l) none inside (fun isEnd => (noEnd isEnd).elim)
      (fun _ => positive)
    exact ⟨takes.split, takes.empty, takes.nonempty, takes.line, takes.column, takes.offset,
      takes.index, takes.source, takes.keeps, takes.lineShift, takes.peeked⟩
  | none =>
    show l.TakesPiece l.takeLexeme
    by_cases more : l.rest = []
    · have takes : l.TakesPiece (l.take .endOfFile 0
          (if l.openComment then some .unterminatedComment else none)) :=
        takesPiece_take _ (Nat.zero_le _) (fun _ => more) (fun noEnd => (noEnd rfl).elim)
      rw [takeLexeme, if_pos more]
      exact ⟨takes.split, takes.empty, takes.nonempty, takes.line, takes.column, takes.offset,
        takes.index, takes.source, takes.keeps, takes.lineShift, takes.peeked⟩
    · rw [takeLexeme, if_neg more]
      exact takesPiece_take _ (Lexeme.length_read_le _ more)
        (fun isEnd => ((Lexeme.kind_read_ne _ _).2.2 isEnd).elim)
        (fun _ => Lexeme.length_read_pos _ _)

/-- A lexer is read to the end. Between any two tokens the lines may be presented anew. -/
inductive ReadsTo : Lexer → List (Nat × Option Text) → List Token → Prop
  | ends {l : Lexer} (isEnd : l.next.1.isEnd = true) : ReadsTo l [] [l.next.1]
  | reads {l : Lexer} {presented : List (Nat × Option Text)} {tokens : List Token}
      (noEnd : l.next.1.isEnd = false) (later : ReadsTo l.next.2 presented tokens) :
      ReadsTo l presented (l.next.1 :: tokens)
  | presents {l : Lexer} {presented : List (Nat × Option Text)} {tokens : List Token} (line : Nat)
      (name : Option Text) (later : ReadsTo (l.presentLine line name) presented tokens) :
      ReadsTo l ((line, name) :: presented) tokens

/-- Reading all tokens is reading to the end. -/
theorem readsTo_drain (l : Lexer) : l.ReadsTo [] l.drain.1 := by
  fun_induction drain l with
  | case1 l token after taken isEnd =>
    have ends : ReadsTo l [] [l.next.1] := .ends (by rw [taken]; exact isEnd)
    rwa [taken] at ends
  | case2 l token after taken noEnd tokens last rest ih =>
    rw [rest] at ih
    have reads : ReadsTo l [] (l.next.1 :: tokens) :=
      .reads (by rw [taken]; exact Bool.eq_false_iff.mpr noEnd) (by rw [taken]; exact ih)
    rwa [taken] at reads

/-- The lexer has read a part of its source and looks at nothing ahead. -/
structure HasRead (l : Lexer) (part : Text) : Prop where
  whole : part ++ l.rest = l.source.text
  index : l.index = part.length
  keeps : l.keepsTrivia = true
  fresh : l.peeked = none

theorem hasRead_ofSource (source : Source) (file : FileRef) (language : Language) :
    (ofSource source file language true).HasRead [] :=
  ⟨rfl, rfl, rfl, rfl⟩

/-- Reading one token more. -/
theorem HasRead.next {part : Text} (read : l.HasRead part) :
    l.next.2.HasRead (part ++ l.next.1.lexeme) ∧ l.next.2.source = l.source := by
  have takes := takesPiece_next read.keeps read.fresh
  refine ⟨⟨?_, ?_, takes.keeps.trans read.keeps, takes.peeked.trans read.fresh⟩, takes.source⟩
  · rw [List.append_assoc, takes.split, takes.source, read.whole]
  · rw [takes.index, read.index, List.length_append]

/-- The next token stands where the part that was read ends. -/
theorem HasRead.placed_next {part : Text} (read : l.HasRead part) :
    let place := l.source.position part.length
    l.next.1.column = place.column ∧ l.next.1.offset = place.offset ∧
      (l.lineShift = 0 → l.next.1.line = lineNumber place.line) := by
  have takes := takesPiece_next read.keeps read.fresh
  rw [← read.index]
  exact ⟨takes.column, takes.offset, fun unshifted => by simpa [unshifted] using takes.line⟩

end Lexer

namespace Lexer.ReadsTo

variable {l : Lexer} {part : Text} {presented : List (Nat × Option Text)} {tokens : List Token}

/-- A reading has one end of file, at its end, and no other empty token. -/
theorem exists_append (reads : l.ReadsTo presented tokens) (read : l.HasRead part) :
    ∃ inside final, tokens = inside ++ [final] ∧ final.isEnd = true ∧ final.lexeme = [] ∧
      ∀ token ∈ inside, token.isEnd = false ∧ token.lexeme ≠ [] := by
  induction reads generalizing part with
  | @ends l isEnd =>
    have takes := takesPiece_next read.keeps read.fresh
    have nothing := takes.split.trans (takes.empty isEnd)
    exact ⟨[], _, rfl, isEnd, (List.append_eq_nil_iff.mp nothing).1, List.forall_mem_nil _⟩
  | @reads l presented tokens noEnd later ih =>
    obtain ⟨inside, final, rfl, isEnd, empty, others⟩ := ih read.next.1
    have nonempty := (takesPiece_next read.keeps read.fresh).nonempty noEnd
    exact ⟨l.next.1 :: inside, final, rfl, isEnd, empty,
      List.forall_mem_cons.mpr ⟨⟨noEnd, nonempty⟩, others⟩⟩
  | presents line name later ih => exact ih ⟨read.whole, read.index, read.keeps, read.fresh⟩

/-- The lexemes of a reading are all that was left to read. -/
theorem flatMap_lexeme (reads : l.ReadsTo presented tokens) (read : l.HasRead part) :
    tokens.flatMap Token.lexeme = l.rest := by
  induction reads generalizing part with
  | @ends l isEnd =>
    have takes := takesPiece_next read.keeps read.fresh
    have nothing := takes.split.trans (takes.empty isEnd)
    rw [takes.empty isEnd, List.flatMap_singleton, (List.append_eq_nil_iff.mp nothing).1]
  | @reads l presented tokens noEnd later ih =>
    rw [List.flatMap_cons, ih read.next.1, (takesPiece_next read.keeps read.fresh).split]
  | presents line name later ih => exact ih ⟨read.whole, read.index, read.keeps, read.fresh⟩

/-- Every token of a reading stands where the lexemes before it end. -/
theorem placed {source : Source} (reads : l.ReadsTo presented tokens) (read : l.HasRead part)
    (same : l.source = source) {i : Nat} {token : Token} (isNth : tokens[i]? = some token) :
    let place := source.position (part.length + ((tokens.take i).flatMap Token.lexeme).length)
    token.column = place.column ∧ token.offset = place.offset ∧
      (presented = [] → l.lineShift = 0 → token.line = lineNumber place.line) := by
  induction reads generalizing part i with
  | @ends l isEnd =>
    cases i with
    | zero =>
      cases isNth
      obtain ⟨column, offset, line⟩ := same ▸ read.placed_next
      exact ⟨column, offset, fun _ => line⟩
    | succ i => cases isNth
  | @reads l presented tokens noEnd later ih =>
    cases i with
    | zero =>
      cases isNth
      obtain ⟨column, offset, line⟩ := same ▸ read.placed_next
      exact ⟨column, offset, fun _ => line⟩
    | succ i =>
      obtain ⟨read', source'⟩ := read.next
      have there := ih read' (source'.trans same) isNth
      have shift := (takesPiece_next read.keeps read.fresh).lineShift
      rw [List.length_append, Nat.add_assoc, shift] at there
      simpa only [List.take_succ_cons, List.flatMap_cons, List.length_append] using there
  | presents line name later ih =>
    obtain ⟨column, offset, -⟩ := ih ⟨read.whole, read.index, read.keeps, read.fresh⟩ same isNth
    exact ⟨column, offset, fun none => by cases none⟩

end Lexer.ReadsTo

/-! ## Lines -/

/-- A reported line is carried as it is, but for 0. -/
theorem Lexer.lineNumber_reported (place : Position) :
    lineNumber (place.reported.line : Int) = max 1 place.reported.line := by
  have bound : place.reported.line < Nat.pow 2 32 := Nat.mod_lt _ (by decide)
  generalize place.reported.line = line at bound ⊢
  rw [lineNumber]
  split_ifs with first
  · obtain rfl : line = 0 := by omega
    rfl
  · rw [Int.toNat_natCast, Nat.mod_eq_of_lt bound]
    omega

theorem Position.line_le_advance (place : Position) (n : Nat) (text : Text) :
    place.line ≤ (place.advance n text).line := by
  have moved := line_advance place { line := 0 } n text
  simp only at moved
  omega

theorem Normalization.line_le_characters (trigraphs : Bool) (place : Position) (text : Text) :
    place.line ≤ (characters trigraphs place text).2.line ∧
      ∀ located ∈ (characters trigraphs place text).1, place.line ≤ located.2.line := by
  fun_induction characters trigraphs place text with
  | case1 place => exact ⟨Nat.le_refl _, List.forall_mem_nil _⟩
  | case2 place c rest extra join ih =>
    have moved := place.line_le_advance (extra + 1) (c :: rest)
    exact ⟨Nat.le_trans moved ih.1, fun located present => Nat.le_trans moved (ih.2 located present)⟩
  | case3 place c rest noJoin head located finish later ih =>
    have moved := place.line_le_advance (head.extra + 1) (c :: rest)
    rw [later] at ih
    exact ⟨Nat.le_trans moved ih.1, List.forall_mem_cons.mpr
      ⟨Nat.le_refl _, fun other present => Nat.le_trans moved (ih.2 other present)⟩⟩

/-- Lines of a source are counted from one. -/
theorem Source.one_le_line_place (trigraphs : Bool) (decoded : Text) (index : Nat) :
    1 ≤ ((ofDecoded trigraphs decoded).place index).line := by
  obtain ⟨finish, inside⟩ := Normalization.line_le_characters trigraphs {} decoded
  simp only [place, ofDecoded, List.getElem?_toArray, List.getElem?_map]
  cases located : (Normalization.characters trigraphs {} decoded).1[index]? with
  | none => exact finish
  | some one => exact inside one (List.mem_of_getElem? located)

/-! ## What is kept -/

/-- The tokens of a source with nothing left out: only the last one is empty and ends the file, the
lexemes are the text, and each token is placed where the lexemes before it end. -/
structure Source.IsCoveredBy (source : Source) (tokens : List Token) : Prop where
  ends : ∃ inside final, tokens = inside ++ [final] ∧ final.isEnd = true ∧ final.lexeme = [] ∧
    ∀ token ∈ inside, token.isEnd = false ∧ token.lexeme ≠ []
  whole : tokens.flatMap Token.lexeme = source.text
  placed : ∀ i token, tokens[i]? = some token →
    let place := source.position ((tokens.take i).flatMap Token.lexeme).length
    token.column = place.column ∧ token.offset = place.offset

theorem Lexer.ReadsTo.isCoveredBy {l : Lexer} {source : Source} {presented : List (Nat × Option Text)}
    {tokens : List Token} (reads : l.ReadsTo presented tokens) (read : l.HasRead [])
    (same : l.source = source) : source.IsCoveredBy tokens where
  ends := reads.exists_append read
  whole := by rw [reads.flatMap_lexeme read, ← same, ← read.whole, List.nil_append]
  placed i token isNth := by
    have placed := reads.placed read same isNth
    simp only [List.length_nil, Nat.zero_add] at placed
    exact ⟨placed.1, placed.2.1⟩

/-- Without line directives a token has the reported line of its place, and line 1 where that is 0. -/
theorem Lexer.ReadsTo.line_eq {l : Lexer} {source : Source} {tokens : List Token}
    (reads : l.ReadsTo [] tokens) (read : l.HasRead []) (same : l.source = source)
    (unshifted : l.lineShift = 0) {i : Nat} {token : Token} (isNth : tokens[i]? = some token) :
    token.line = max 1 (source.position ((tokens.take i).flatMap Token.lexeme).length).line := by
  have line := (reads.placed read same isNth).2.2 rfl unshifted
  rw [List.length_nil, Nat.zero_add] at line
  exact line.trans (lineNumber_reported _)

/-- A lexer that keeps white space and comments reaches the end of its source and leaves nothing out,
whatever line directives present in between. Without any, tokens have the lines of their positions,
or line 1 where the position has line 0: that is a line whose number is a multiple of `2 ^ 32`. -/
theorem Source.isCoveredBy_of_readsTo (source : Source) (file : FileRef) (language : Language) :
    let l := Lexer.ofSource source file language true
    l.ReadsTo [] l.tokenize.1 ∧
      ∀ presented tokens, l.ReadsTo presented tokens →
        source.IsCoveredBy tokens ∧
        (presented = [] → ∀ i token, tokens[i]? = some token →
          token.line =
            max 1 (source.position ((tokens.take i).flatMap Token.lexeme).length).line) := by
  intro l
  have read : l.HasRead [] := Lexer.hasRead_ofSource source file language
  refine ⟨Lexer.readsTo_drain l, fun presented tokens reads => ⟨reads.isCoveredBy read rfl, ?_⟩⟩
  rintro rfl i token isNth
  exact reads.line_eq read rfl rfl isNth

/-- Behind `2 ^ 32 - 1` line feeds the file ends on line 1, and its position has line 0. -/
theorem Source.line_endOfFile_feeds {n : Nat} (full : 1 + n = Nat.pow 2 32) :
    let source := Source.ofDecoded false (List.replicate n '\n')
    let tokens := (Lexer.ofSource source .unknown .standard true).tokenize.1
    ∃ i token, tokens[i]? = some token ∧ token.line = 1 ∧
      (source.position ((tokens.take i).flatMap Token.lexeme).length).line = 0 := by
  have wraps := line_position_feeds full
  generalize Source.ofDecoded false (List.replicate n '\n') = source at wraps ⊢
  intro source tokens
  have start := Lexer.hasRead_ofSource source .unknown .standard
  have reads : (Lexer.ofSource source .unknown .standard true).ReadsTo [] tokens :=
    Lexer.readsTo_drain _
  obtain ⟨inside, final, split, -, empty, -⟩ := reads.exists_append start
  have isNth : tokens[inside.length]? = some final := by
    rw [split, List.getElem?_concat_length]
  have before : (tokens.take inside.length).flatMap Token.lexeme = source.text := by
    have whole := reads.flatMap_lexeme start
    rw [split, List.flatMap_append, List.flatMap_singleton, empty, List.append_nil] at whole
    rw [split, List.take_left]
    exact whole
  have position : (source.position ((tokens.take inside.length).flatMap Token.lexeme).length).line = 0 := by
    rw [before]
    exact wraps
  have same : (Lexer.ofSource source .unknown .standard true).source = source := rfl
  refine ⟨inside.length, final, isNth, ?_, position⟩
  rw [reads.line_eq start same rfl isNth, position]
  rfl

/-- Not every token has the line of its position. -/
theorem Source.line_endOfFile_ne_line_position :
    let source := Source.ofDecoded false (List.replicate (Nat.pow 2 32 - 1) '\n')
    let tokens := (Lexer.ofSource source .unknown .standard true).tokenize.1
    ∃ i token, tokens[i]? = some token ∧
      token.line ≠ (source.position ((tokens.take i).flatMap Token.lexeme).length).line := by
  have full : 1 + (Nat.pow 2 32 - 1) = Nat.pow 2 32 := rfl
  generalize Nat.pow 2 32 - 1 = n at full ⊢
  obtain ⟨i, token, isNth, line, position⟩ := line_endOfFile_feeds full
  refine ⟨i, token, isNth, ?_⟩
  rw [line, position]
  decide

/-- A raw literal and a comment that nothing closes are kept whole. -/
theorem Source.isCoveredBy_open_comment :
    let source := Source.ofDecoded false "R\"(\n/* x".toList
    source.IsCoveredBy (Lexer.ofSource source .unknown .standard true).tokenize.1 := by
  have kept := Source.isCoveredBy_of_readsTo (Source.ofDecoded false "R\"(\n/* x".toList) .unknown
    .standard
  exact (kept.2 _ _ kept.1).1

/-! ## What is skipped -/

/-- The token is white space or a comment. -/
def Token.isTrivia (token : Token) : Bool :=
  token.kind == .comment || token.kind == .whitespace

namespace Lexer

variable {l : Lexer}

/-- The same lexer, but one that skips white space and comments. -/
def skipping (l : Lexer) : Lexer :=
  { l with keepsTrivia := false }

theorem drain_congr {l' : Lexer} (same : l.next = l'.next) : l.drain = l'.drain := by
  rw [drain_eq, drain_eq l', same]

theorem next_skipping (fresh : l.peeked = none) :
    l.skipping.next = (l.skipping.skipGap true).takeLexeme := by
  have fresh' : l.skipping.peeked = none := fresh
  have skips : l.skipping.keepsTrivia = false := rfl
  simp only [next, fresh', read, skips, Bool.false_eq_true, if_false]

theorem isTrivia_takeLexeme (l : Lexer) : l.takeLexeme.1.isTrivia = false := by
  unfold takeLexeme
  split
  · rfl
  · obtain ⟨noComment, noWhitespace, -⟩ := Lexeme.kind_read_ne l.language l.rest
    rw [Token.isTrivia, Bool.or_eq_false_iff]
    exact ⟨beq_false_of_ne noComment, beq_false_of_ne noWhitespace⟩

/-- A piece that was taken as a token changes nothing for a lexer that skips the whole gap. -/
theorem skipGap_of_takeTrivia? {token : Token} {after : Lexer}
    (taken : l.takeTrivia? = some (token, after)) :
    after.skipping.skipGap true = l.skipping.skipGap true := by
  rw [takeTrivia?_eq] at taken
  cases found : Gap.first? l.rest with
  | none => rw [found] at taken; cases taken
  | some piece =>
    obtain ⟨kind, gap⟩ := piece
    rw [found] at taken
    cases taken
    obtain ⟨positive, -⟩ := Gap.length_first? found
    simp [skipping, skipGap, take, Gap.read_of_first? found, Gap.followedBy, Nat.add_assoc,
      Bool.or_assoc, Bool.or_comm, Bool.or_left_comm, Nat.ne_of_gt positive]

/-- Where no gap starts, both lexers take the same token. -/
theorem next_skipping_of_takeTrivia? (keeps : l.keepsTrivia = true) (fresh : l.peeked = none)
    (nothing : l.takeTrivia? = none) :
    l.skipping.next = (l.next.1, l.next.2.skipping) := by
  have bare := Gap.read_of_not_starts (starts_of_takeTrivia? nothing)
  have same : l.skipping.skipGap true = l.skipping := by
    simp [skipping, skipGap, bare]
  have reading : l.next = l.takeLexeme := by
    rw [next, fresh, read, if_pos keeps, nothing, Option.getD_none]
  rw [next_skipping fresh, same, reading]
  have sameRest : l.skipping.rest = l.rest := rfl
  unfold takeLexeme
  rw [sameRest]
  split
  · rfl
  · rfl

/-- Without its white space and comments, what one lexer gives is what the other one gives. -/
theorem filter_drain (keeps : l.keepsTrivia = true) (fresh : l.peeked = none) :
    l.drain.1.filter (fun token => !token.isTrivia) = l.skipping.drain.1 := by
  induction size : l.size using Nat.strongRecOn generalizing l with
  | ind n ih =>
    subst size
    have takes := takesPiece_next keeps fresh
    have keeps' := takes.keeps.trans keeps
    have fresh' := takes.peeked.trans fresh
    cases trivia : l.takeTrivia? with
    | some taken =>
      obtain ⟨token, after⟩ := taken
      have reading : l.next = (token, after) := by
        rw [next, fresh, read, if_pos keeps, trivia, Option.getD_some]
      have kind := (takeTrivia?_eq_some trivia).1
      have isTrivia : token.isTrivia = true := by
        rcases kind with kind | kind <;> simp [Token.isTrivia, kind]
      have noEnd : token.isEnd = false := by
        rcases kind with kind | kind <;> simp [Token.isEnd, kind]
      rw [reading] at keeps' fresh'
      have later : after.size < l.size := by
        have shorter := size_next_lt (l := l) (by rw [reading]; exact noEnd)
        rwa [reading] at shorter
      have same : after.skipping.next = l.skipping.next := by
        rw [next_skipping fresh', next_skipping fresh, skipGap_of_takeTrivia? trivia]
      rw [drain_eq, reading, if_neg (by simp [noEnd]), List.filter_cons_of_neg (by simp [isTrivia]),
        ih _ later keeps' fresh' rfl, drain_congr same]
    | none =>
      have same := next_skipping_of_takeTrivia? keeps fresh trivia
      have noTrivia : l.next.1.isTrivia = false := by
        rw [next, fresh, read, if_pos keeps, trivia, Option.getD_none]
        exact isTrivia_takeLexeme l
      rw [drain_eq, drain_eq l.skipping, same]
      cases isEnd : l.next.1.isEnd with
      | true => simp [noTrivia]
      | false =>
        simp [noTrivia, ih _ (size_next_lt isEnd) keeps' fresh' rfl]

/-- Both lexers agree: without white space and comments, the tokens of the one that keeps them are the
tokens of the one that skips them, with their places, flags and errors. -/
theorem filter_tokenize (source : Source) (file : FileRef) (language : Language) :
    (ofSource source file language true).tokenize.1.filter (fun token => !token.isTrivia) =
      (ofSource source file language false).tokenize.1 :=
  filter_drain rfl rfl

end Lexer

end CPreprocessor
