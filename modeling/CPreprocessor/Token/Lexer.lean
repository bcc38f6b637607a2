/-
# The lexer

A lexer is a place in a source with what it must remember there: whether a line
has just begun, whether white space was skipped, and how line directives present
the lines that follow. It gives one token after the other and then ends of file
for ever. Every token that does not end the file makes the rest of the source
shorter (`size_next_lt`), so reading all tokens ends.
-/
import CPreprocessor.Source
import CPreprocessor.Token.Gap
import CPreprocessor.Token.Lexeme

namespace CPreprocessor

/-- A place in a source. -/
structure Lexer where
  source : Source
  language : Language
  /-- Whether comments and white space are tokens. -/
  keepsTrivia : Bool
  /-- The file of the source. -/
  file : FileRef
  /-- The file as line directives present it. -/
  presented : FileRef
  /-- What is not read yet. -/
  rest : Text
  /-- The number of logical characters that are read. -/
  index : Nat := 0
  /-- The next token is the first one of its logical line. -/
  atLineStart : Bool := true
  /-- White space or a comment stands before the next token. -/
  afterSpace : Bool := false
  /-- What line directives add to physical line numbers. -/
  lineShift : Int := 0
  /-- A token that was looked at and not taken. -/
  peeked : Option Token := none
  /-- The source ended inside a block comment, which is not reported yet. -/
  openComment : Bool := false

namespace Lexer

/-- The lexer at the start of a source. -/
def ofSource (source : Source) (file : FileRef) (language : Language) (keepsTrivia : Bool) :
    Lexer :=
  { source, language, keepsTrivia, file, presented := file, rest := source.text }

/-- The lexer back at the start of its source. -/
def reset (l : Lexer) : Lexer :=
  ofSource l.source l.file l.language l.keepsTrivia

/-- What is left to read: the characters of the source and a token that was looked at. -/
def size (l : Lexer) : Nat :=
  l.rest.length + if l.peeked.isSome then 1 else 0

/-- The number that a token carries for a line number with what line directives add to it: a number
below one is one, and the rest has 32 bits. -/
def lineNumber (line : Int) : Nat :=
  (if line < 1 then 1 else line.toNat) % Nat.pow 2 32

/-- Take the next `n` bytes as a token. -/
def take (l : Lexer) (kind : TokenKind) (n : Nat) (error : Option LexError) : Token × Lexer :=
  let place := l.source.position l.index
  let token : Token :=
    { kind, lexeme := l.rest.take n, file := l.presented,
      line := lineNumber (place.line + l.lineShift), column := place.column,
      offset := place.offset, atLineStart := l.atLineStart, afterSpace := l.afterSpace, error }
  (token,
    { l with rest := l.rest.drop n, index := l.index + n, atLineStart := false,
             afterSpace := false })

/-- Skip the gap before the next lexeme. -/
def skipGap (l : Lexer) (acrossLines : Bool) : Lexer :=
  let gap := Gap.read acrossLines l.rest
  { l with
    rest := l.rest.drop gap.length
    index := l.index + gap.length
    atLineStart := l.atLineStart || gap.newline
    afterSpace := l.afterSpace || gap.length ≠ 0
    openComment := l.openComment || gap.openComment }

/-- The token that ends the file. It carries the report of an open comment. -/
def takeEnd (l : Lexer) : Token × Lexer :=
  let (token, after) :=
    l.take .endOfFile 0 (if l.openComment then some .unterminatedComment else none)
  ({ token with atLineStart := true }, { after with openComment := false })

/-- The token at a place where no gap stands. -/
def takeLexeme (l : Lexer) : Token × Lexer :=
  if l.rest = [] then
    l.takeEnd
  else
    let lexeme := Lexeme.read l.language l.rest
    l.take lexeme.kind lexeme.length lexeme.error

/-- The run of blanks and line feeds or the comment at a place, as a token. -/
def takeTrivia? (l : Lexer) : Option (Token × Lexer) :=
  let isWhite (c : Char) : Bool := c = '\n' || Text.isBlank c
  let white := l.rest.takeWhile isWhite
  if white ≠ [] then
    let (token, after) := l.take .whitespace white.length none
    some (token,
      { after with atLineStart := white.contains '\n' || l.atLineStart, afterSpace := true })
  else if l.rest.take 2 = ['/', '/'] then
    let (token, after) := l.take .comment (Text.lineLength l.rest) none
    some (token, { after with atLineStart := l.atLineStart, afterSpace := true })
  else if l.rest.take 2 = ['/', '*'] then
    let (inside, closed) := Gap.blockComment (l.rest.drop 2)
    let (token, after) := l.take .comment (2 + inside) none
    some (token,
      { after with atLineStart := l.atLineStart, afterSpace := true,
                   openComment := l.openComment || !closed })
  else
    none

/-- The next token of the source. -/
def read (l : Lexer) : Token × Lexer :=
  if l.keepsTrivia then
    l.takeTrivia?.getD l.takeLexeme
  else
    (l.skipGap true).takeLexeme

/-- The next token: the one looked at, if there is one. -/
def next (l : Lexer) : Token × Lexer :=
  match l.peeked with
  | some token => (token, { l with peeked := none })
  | none => l.read

/-- Look at the next token and leave it to be taken. -/
def peek (l : Lexer) : Token × Lexer :=
  match l.peeked with
  | some token => (token, l)
  | none =>
    let (token, after) := l.read
    (token, { after with peeked := some token })

/-- The next token of the same logical line; at the end of the line there is none, and nothing of
the next line is read. -/
def nextOnLine (l : Lexer) : Option Token × Lexer :=
  match l.peeked with
  | some token =>
    if token.atLineStart || token.isEnd then (none, l) else (some token, { l with peeked := none })
  | none =>
    let l := l.skipGap false
    if l.rest = [] || l.rest.head? = some '\n' then
      (none, l)
    else
      let (token, after) := l.takeLexeme
      (some token, after)

/-- Present the next line as line `line`, and the file under another name if one is given. The
next line is the one after the line feed that follows, or the current one if none does. -/
def presentLine (l : Lexer) (line : Nat) (name : Option Text) : Lexer :=
  let here := (l.source.position l.index).line
  let following := if l.rest.head? = some '\n' then here + 1 else here
  { l with
    lineShift := (line : Int) - following
    presented := match name with
      | some shown => { l.file with shown }
      | none => l.presented }

/-! ## Reading ends -/

theorem size_take_lt {l : Lexer} (kind : TokenKind) {n : Nat} (error : Option LexError)
    (positive : 0 < n) (more : l.rest ≠ []) : (l.take kind n error).2.size < l.size := by
  have : 0 < l.rest.length := List.length_pos_iff.mpr more
  have shorter : (l.rest.drop n).length < l.rest.length := by
    rw [List.length_drop]; omega
  exact Nat.add_lt_add_right shorter _

theorem size_skipGap_le (l : Lexer) (acrossLines : Bool) : (l.skipGap acrossLines).size ≤ l.size := by
  exact Nat.add_le_add_right (List.length_drop ▸ Nat.sub_le _ _) _

theorem size_takeLexeme_lt {l : Lexer} (more : l.takeLexeme.1.isEnd = false) :
    l.takeLexeme.2.size < l.size := by
  unfold takeLexeme at more ⊢
  split
  · rename_i empty
    simp [empty, takeEnd, take, Token.isEnd] at more
  · rename_i nonempty
    exact size_take_lt _ _ (Lexeme.length_read_pos _ _) nonempty

theorem size_takeTrivia?_lt {l : Lexer} {result : Token × Lexer} (found : l.takeTrivia? = some result) :
    result.2.size < l.size := by
  unfold takeTrivia? at found
  simp only [] at found
  split at found
  · rename_i white
    cases found
    have more : l.rest ≠ [] := by
      intro empty
      simp [empty] at white
    have shorter := size_take_lt .whitespace none (List.length_pos_iff.mpr white) more
    simpa only [size, take] using shorter
  · split at found
    · rename_i slashes
      cases found
      have more : l.rest ≠ [] := by
        intro empty
        simp [empty] at slashes
      have positive : 0 < Text.lineLength l.rest := by
        match h : l.rest, slashes with
        | c :: _, slashes =>
          have : c = '/' := by simp at slashes; exact slashes.1
          subst this
          simp [Text.lineLength]
      simpa only [size, take] using size_take_lt .comment none positive more
    · split at found
      · rename_i opening
        cases found
        have more : l.rest ≠ [] := by
          intro empty
          simp [empty] at opening
        have positive : 0 < 2 + (Gap.blockComment (l.rest.drop 2)).1 := by omega
        simpa only [size, take] using size_take_lt .comment none positive more
      · cases found

theorem size_read_lt {l : Lexer} (more : l.read.1.isEnd = false) : l.read.2.size < l.size := by
  unfold read at more ⊢
  split
  · rename_i keeps
    simp only [keeps, if_true] at more
    cases found : l.takeTrivia? with
    | some result => exact size_takeTrivia?_lt found
    | none =>
      simp only [found, Option.getD_none] at more ⊢
      exact size_takeLexeme_lt more
  · rename_i skips
    simp only [skips] at more
    exact Nat.lt_of_lt_of_le (size_takeLexeme_lt more) (size_skipGap_le l true)

/-- Every token that does not end the file leaves less to read. -/
theorem size_next_lt {l : Lexer} (more : l.next.1.isEnd = false) : l.next.2.size < l.size := by
  unfold next at more ⊢
  split
  · rename_i token looked
    simp [size, looked]
  · rename_i none
    simp only [none] at more
    exact size_read_lt more

/-- Every token of the line leaves less to read. -/
theorem size_nextOnLine_lt {l : Lexer} {token : Token} (found : l.nextOnLine.1 = some token) :
    l.nextOnLine.2.size < l.size := by
  unfold nextOnLine at found ⊢
  split
  · rename_i token looked
    simp only [looked] at found
    split at found
    · cases found
    · rename_i onLine
      simp [size, looked, onLine]
  · rename_i none
    simp only [none] at found
    split at found
    · cases found
    · rename_i onLine
      rw [if_neg onLine]
      have more : (l.skipGap false).rest ≠ [] := by
        intro empty
        simp [empty] at onLine
      have shorter : (l.skipGap false).takeLexeme.2.size < (l.skipGap false).size := by
        unfold takeLexeme
        rw [if_neg more]
        exact size_take_lt _ _ (Lexeme.length_read_pos _ _) more
      exact Nat.lt_of_lt_of_le shorter (size_skipGap_le l false)

/-- At the end of the line there is not more to read than before. -/
theorem size_nextOnLine_le (l : Lexer) : l.nextOnLine.2.size ≤ l.size := by
  cases found : l.nextOnLine.1 with
  | some token => exact Nat.le_of_lt (size_nextOnLine_lt found)
  | none =>
    unfold nextOnLine at found ⊢
    split
    · split
      · exact Nat.le_refl _
      · rename_i token looked onLine
        simp [looked, onLine] at found
    · rename_i none
      simp only [none] at found
      split at found
      · rename_i ends
        rw [if_pos ends]
        exact size_skipGap_le l false
      · cases found

/-- The tokens up to the end of the line, and the lexer at the end of the line. -/
def restOfLine (l : Lexer) : List Token × Lexer :=
  match _taken : l.nextOnLine with
  | (none, after) => ([], after)
  | (some token, after) =>
    let (tokens, last) := restOfLine after
    (token :: tokens, last)
  termination_by l.size
  decreasing_by
    have shorter := @size_nextOnLine_lt l token
    rw [_taken] at shorter
    exact shorter rfl

/-- Reading a line leaves not more to read. -/
theorem size_restOfLine_le (l : Lexer) : l.restOfLine.2.size ≤ l.size := by
  fun_induction restOfLine l with
  | case1 l after taken =>
    have := size_nextOnLine_le l
    rwa [taken] at this
  | case2 l token after taken tokens last rest ih =>
    have := size_nextOnLine_le l
    rw [taken] at this
    rw [rest] at ih
    exact Nat.le_trans ih this

/-- All tokens from here on, the end of the file included, and the lexer after it. -/
def drain (l : Lexer) : List Token × Lexer :=
  match _taken : l.next with
  | (token, after) =>
    if _isEnd : token.isEnd then
      ([token], after)
    else
      let (tokens, last) := drain after
      (token :: tokens, last)
  termination_by l.size
  decreasing_by
    have shorter := @size_next_lt l
    rw [_taken] at shorter
    exact shorter (by simpa using _isEnd)

/-- All tokens of the source, read from its start. -/
def tokenize (l : Lexer) : List Token × Lexer :=
  l.reset.drain

end Lexer

/-- The tokens of a text with the end of its file. The tokens belong to `file`; without one, they
belong to no file and the text has a name for messages only. -/
def tokenize (raw : Text) (file : Option FileRef) (language : Language) :
    Except SourceError (List Token) :=
  let name := (file.map FileRef.path).getD "<text>".toList
  (Source.ofBytes raw name false).map fun source =>
    (Lexer.ofSource source (file.getD .unknown) language false).drain.1

end CPreprocessor
