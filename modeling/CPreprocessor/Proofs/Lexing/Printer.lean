/-
# Printing lines

The printer writes tokens on lines (`Spelling.lines`). This module follows it from line to line:
which lines get a marker, by how much the numbers of the others drift from the lines of
the output (`Printer.drifts`), and that a token at the start of a line ends the line before
it (`render_line`).
-/
import Mathlib.Data.List.Chain
import Mathlib.Data.List.TakeWhile
import CPreprocessor.Token.Spelling

namespace CPreprocessor.Spelling

/-! ## Lines -/

/-- The number of line feeds inside tokens. -/
def feeds : List Token → Nat
  | [] => 0
  | token :: tokens => token.lexeme.count '\n' + feeds tokens

/-- A token stays on the line of the token before it. -/
def staysOnLine (token : Token) : Bool :=
  !token.atLineStart

/-- The lines on which tokens are written: the first token and each token at the start of a line begin
one. -/
def lines : List Token → List (List Token)
  | [] => []
  | token :: rest =>
    (token :: rest.takeWhile staysOnLine) :: lines (rest.dropWhile staysOnLine)
  termination_by tokens => tokens.length
  decreasing_by
    have shorter := (List.dropWhile_suffix staysOnLine (l := rest)).length_le
    rw [List.length_cons]
    omega

/-- Lines are taken off one after the other. Each line but the first one starts with a token at the
start of a line. -/
@[elab_as_elim]
theorem lines_induction {motive : List Token → Prop} (nil : motive [])
    (line : ∀ (token : Token) (line more : List Token), (∀ t ∈ line, t.atLineStart = false) →
      (∀ t ∈ more.head?, t.atLineStart = true) →
      lines (token :: (line ++ more)) = (token :: line) :: lines more → motive more →
      motive (token :: (line ++ more)))
    (tokens : List Token) : motive tokens := by
  induction tokens using lines.induct with
  | case1 => exact nil
  | case2 token rest ih =>
    have same := lines.eq_2 token rest
    have stay : ∀ t ∈ rest.takeWhile staysOnLine, t.atLineStart = false := fun t present => by
      simpa [staysOnLine] using List.mem_takeWhile_imp present
    have atStart : ∀ t ∈ (rest.dropWhile staysOnLine).head?, t.atLineStart = true := by
      intro t isHead
      have stops := List.head?_dropWhile_not staysOnLine rest
      rw [Option.mem_def.mp isHead] at stops
      simpa [staysOnLine] using stops
    have split := List.takeWhile_append_dropWhile (p := staysOnLine) (l := rest)
    generalize rest.takeWhile staysOnLine = tail at same stay split
    generalize rest.dropWhile staysOnLine = more at same atStart split ih
    subst split
    exact line token tail more stay atStart same ih

/-! ## The printer -/

namespace Printer

/-- A line that starts with this token gets a marker. -/
def marks (p : Printer) (token : Token) : Bool :=
  let sameFile := p.file.any fun f => f.number = token.file.number && f.shown = token.file.shown
  !sameFile || token.line < p.line || (p.line + skippedLines) % Nat.pow 2 32 < token.line

/-- By how many lines more than its own number the next token comes back, if the output is `drift` lines
ahead. A marker sets the output right again. Without one, a line with the same number as the line
before is one line ahead. -/
def driftAt (p : Printer) (drift : Nat) (token : Token) : Nat :=
  if p.previous.isSome && !token.atLineStart then drift
  else if p.marks token then 0
  else if token.line = p.line then drift + 1
  else drift

/-- By how many lines more than their own numbers tokens come back, if the output is `drift` lines
ahead. The printer does not reckon with the line feeds inside of tokens. -/
def drifts (p : Printer) (drift : Nat) : List Token → List Nat
  | [] => []
  | token :: rest =>
    p.driftAt drift token
      :: drifts (p.afterToken token) (p.driftAt drift token + token.lexeme.count '\n') rest

theorem length_drifts (p : Printer) (drift : Nat) (tokens : List Token) :
    (p.drifts drift tokens).length = tokens.length := by
  induction tokens generalizing p drift with
  | nil => rfl
  | cons token rest ih => rw [drifts, List.length_cons, ih, List.length_cons]

/-- The printer is on the line that `head` begins. -/
structure IsOnLine (p : Printer) (head : Token) : Prop where
  markers : p.markers = true
  previous : p.previous.isSome = true
  file : p.file = some head.file
  line : p.line = head.line

variable {p : Printer} {head token : Token} {tokens : List Token}

theorem IsOnLine.afterToken (onLine : p.IsOnLine head) (stays : token.atLineStart = false) :
    (p.afterToken token).IsOnLine head := by
  have none : p.previous.isNone = false := by
    rw [← Option.not_isSome, onLine.previous]
    rfl
  rw [Printer.afterToken, none, stays, Bool.or_false, Bool.and_false, if_neg Bool.false_ne_true]
  exact ⟨onLine.markers, rfl, onLine.file, onLine.line⟩

theorem isOnLine_afterToken (markers : p.markers = true)
    (starts : p.previous = none ∨ token.atLineStart = true) : (p.afterToken token).IsOnLine token := by
  rw [Printer.afterToken, if_pos (by rcases starts with starts | starts <;> simp [markers, starts])]
  exact ⟨markers, rfl, rfl, rfl⟩

theorem write_cons (noEnd : token.isEnd = false) (tokens : List Token) :
    p.write (token :: tokens) = p.before token ++ (token.lexeme ++ (p.afterToken token).write tokens) := by
  rw [write, noEnd, if_neg Bool.false_ne_true, List.append_assoc]

/-- The printer after some tokens. -/
def after (p : Printer) (tokens : List Token) : Printer :=
  tokens.foldl afterToken p

theorem previous_afterToken (p : Printer) (token : Token) :
    (p.afterToken token).previous = some token := by
  rw [afterToken]
  split <;> rfl

/-- The tokens that stay on a line are joined to it. -/
theorem write_stay {previous : Token} (isPrevious : p.previous = some previous) {line : List Token}
    (stay : ∀ t ∈ line, t.atLineStart = false) (inside : ∀ t ∈ line, t.isEnd = false)
    (rest : List Token) :
    p.write (line ++ rest) = joinAfter previous line ++ (p.after line).write rest := by
  induction line generalizing p previous with
  | nil => rfl
  | cons token line ih =>
    obtain ⟨staysHere, stay⟩ := List.forall_mem_cons.mp stay
    obtain ⟨noEnd, inside⟩ := List.forall_mem_cons.mp inside
    rw [List.cons_append, write_cons noEnd, ih (p.previous_afterToken token) stay inside, joinAfter, noEnd,
      if_neg Bool.false_ne_true, before, isPrevious, staysHere]
    simp only [Option.isNone_some, Bool.or_self, Bool.false_eq_true, if_false, Option.any_some,
      List.append_assoc]
    rfl

/-- A line is written after what stands before its first token. -/
theorem write_line {line : List Token} (stay : ∀ t ∈ line, t.atLineStart = false)
    (inside : ∀ t ∈ token :: line, t.isEnd = false) (rest : List Token) :
    p.write (token :: line ++ rest)
      = p.before token ++ (join (token :: line) ++ (p.after (token :: line)).write rest) := by
  obtain ⟨noEnd, inside⟩ := List.forall_mem_cons.mp inside
  rw [List.cons_append, write_cons noEnd, write_stay (p.previous_afterToken token) stay inside, join,
    noEnd, if_neg Bool.false_ne_true, List.append_assoc]
  rfl

theorem IsOnLine.after (onLine : p.IsOnLine head) {line : List Token}
    (stay : ∀ t ∈ line, t.atLineStart = false) : (p.after line).IsOnLine head := by
  induction line generalizing p with
  | nil => exact onLine
  | cons token line ih =>
    obtain ⟨staysHere, stay⟩ := List.forall_mem_cons.mp stay
    exact ih (onLine.afterToken staysHere) stay

theorem isOnLine_after (markers : p.markers = true)
    (starts : p.previous = none ∨ token.atLineStart = true) {line : List Token}
    (stay : ∀ t ∈ line, t.atLineStart = false) : (p.after (token :: line)).IsOnLine token :=
  (isOnLine_afterToken markers starts).after stay

/-- The tokens that stay on a line drift with it. -/
theorem drifts_stay (onLine : p.IsOnLine head) {line : List Token}
    (stay : ∀ t ∈ line, t.atLineStart = false) (rest : List Token) (drift : Nat) :
    ∃ others, others.length = line.length ∧ (∀ n ∈ others, drift ≤ n ∧ n ≤ drift + feeds line)
      ∧ p.drifts drift (line ++ rest) = others ++ (p.after line).drifts (drift + feeds line) rest := by
  induction line generalizing p drift with
  | nil => exact ⟨[], rfl, List.forall_mem_nil _, rfl⟩
  | cons token line ih =>
    obtain ⟨staysHere, stay⟩ := List.forall_mem_cons.mp stay
    obtain ⟨others, length, bounds, same⟩ :=
      ih (onLine.afterToken staysHere) stay (drift + token.lexeme.count '\n')
    have here : p.driftAt drift token = drift := by
      rw [driftAt, onLine.previous, staysHere]
      rfl
    refine ⟨drift :: others, by rw [List.length_cons, List.length_cons, length], ?_, ?_⟩
    · refine List.forall_mem_cons.mpr ⟨by omega, fun n present => ?_⟩
      have bound := bounds n present
      rw [feeds]
      omega
    · rw [List.cons_append, drifts, here, same, feeds, Nat.add_assoc, List.cons_append]
      rfl

/-- The tokens of a line drift at least as far as its first one, and at most by the line feeds inside
of them further. -/
theorem drifts_line (markers : p.markers = true)
    (starts : p.previous = none ∨ token.atLineStart = true) {line : List Token}
    (stay : ∀ t ∈ line, t.atLineStart = false) (rest : List Token) (drift : Nat) :
    ∃ others, others.length = line.length
      ∧ (∀ n ∈ others, p.driftAt drift token ≤ n ∧ n ≤ p.driftAt drift token + feeds (token :: line))
      ∧ p.drifts drift (token :: line ++ rest) = p.driftAt drift token :: others
        ++ (p.after (token :: line)).drifts (p.driftAt drift token + feeds (token :: line)) rest := by
  obtain ⟨others, length, bounds, same⟩ := drifts_stay (isOnLine_afterToken markers starts) stay rest
    (p.driftAt drift token + token.lexeme.count '\n')
  refine ⟨others, length, fun n present => ?_, ?_⟩
  · have bound := bounds n present
    rw [feeds]
    omega
  · rw [List.cons_append, drifts, same, feeds, Nat.add_assoc, List.cons_append]
    rfl

/-- What is written after a line starts with a line feed. -/
theorem exists_write_eq (onLine : p.IsOnLine head)
    (starts : ∀ t ∈ tokens.head?, t.atLineStart = true ∧ t.isEnd = false) :
    ∃ after, p.write tokens = '\n' :: after := by
  have some : p.previous.isNone = false := by
    rw [← Option.not_isSome, onLine.previous]
    rfl
  cases tokens with
  | nil => exact ⟨[], by rw [write, onLine.previous]; rfl⟩
  | cons token rest =>
    obtain ⟨starts, noEnd⟩ := starts token rfl
    rw [write_cons noEnd, before, some, starts, onLine.markers, onLine.previous]
    simp only [Bool.or_true, if_true]
    split <;> exact ⟨_, rfl⟩

theorem write_append_end (inside : ∀ t ∈ tokens, t.isEnd = false) {ending : Token}
    (isEnd : ending.isEnd = true) : p.write (tokens ++ [ending]) = p.write tokens := by
  induction tokens generalizing p with
  | nil =>
    rw [List.nil_append, write, write]
    simp only [isEnd, if_true]
  | cons token rest ih =>
    obtain ⟨noEnd, inside⟩ := List.forall_mem_cons.mp inside
    rw [List.cons_append, write_cons noEnd, write_cons noEnd, ih inside]

end Printer

/-- No token is written on more than one line, and no line has the number of the line before it in the
same file. -/
structure HasOwnLines (tokens : List Token) : Prop where
  noFeed : ∀ t ∈ tokens, '\n' ∉ t.lexeme
  moves : (lines tokens).IsChain fun before line => ∀ s ∈ before.head?, ∀ t ∈ line.head?,
    s.file.number = t.file.number → s.file.shown = t.file.shown → s.line ≠ t.line

theorem feeds_eq_zero {tokens : List Token} (noFeed : ∀ t ∈ tokens, '\n' ∉ t.lexeme) :
    feeds tokens = 0 := by
  induction tokens with
  | nil => rfl
  | cons token rest ih =>
    obtain ⟨here, later⟩ := List.forall_mem_cons.mp noFeed
    rw [feeds, List.count_eq_zero.mpr here, ih later]

/-- Lines with numbers of their own come back with them. -/
theorem Printer.drifts_eq_zero {tokens : List Token} (own : HasOwnLines tokens)
    (inside : ∀ t ∈ tokens, t.isEnd = false) {p : Printer} (markers : p.markers = true)
    (follows : ∀ t ∈ tokens.head?, (p.previous = none ∧ p.file = none)
      ∨ t.atLineStart = true ∧ ∃ head, p.IsOnLine head ∧ (head.file.number = t.file.number →
        head.file.shown = t.file.shown → head.line ≠ t.line)) :
    ∀ n ∈ p.drifts 0 tokens, n = 0 := by
  induction tokens using lines_induction generalizing p with
  | nil => exact List.forall_mem_nil _
  | line token line more stay atStart same ih =>
    have moves := own.moves
    rw [same] at moves
    rw [← List.cons_append] at own inside
    obtain ⟨noFeed, noFeedMore⟩ := List.forall_mem_append.mp own.noFeed
    obtain ⟨insideHere, insideMore⟩ := List.forall_mem_append.mp inside
    have here : p.driftAt 0 token = 0 := by
      rw [driftAt]
      split_ifs with stays marks sameLine
      · rfl
      · rfl
      · obtain ⟨-, noFile⟩ | ⟨-, head, onLine, differs⟩ := follows token rfl
        · rw [Printer.marks, noFile] at marks
          exact absurd rfl marks
        · simp only [Printer.marks, onLine.file, onLine.line, Option.any_some, Bool.or_eq_true,
            Bool.not_eq_true', not_or, Bool.not_eq_false, Bool.and_eq_true, decide_eq_true_eq] at marks
          exact absurd (onLine.line ▸ sameLine).symm (differs marks.1.1.1 marks.1.1.2)
      · rfl
    have starts := (follows token rfl).imp And.left And.left
    have onLine := isOnLine_after markers starts stay
    obtain ⟨others, -, bounds, drifts⟩ := drifts_line markers starts stay more 0
    rw [here, feeds_eq_zero noFeed] at bounds drifts
    have later := ih ⟨noFeedMore, moves.tail⟩ insideMore onLine.markers fun t isHead => .inr
      ⟨atStart t isHead, token, onLine, ?_⟩
    · rw [← List.cons_append, drifts]
      refine List.forall_mem_append.mpr ⟨List.forall_mem_cons.mpr ⟨rfl, fun n present => ?_⟩, later⟩
      have bound := bounds n present
      omega
    · cases more with
      | nil => cases isHead
      | cons next more =>
        cases isHead
        rw [lines] at moves
        exact (List.isChain_cons_cons.mp moves).1 token rfl _ rfl

/-! ## A line among others -/

namespace Printer

variable {p : Printer} {token : Token}

theorem exists_write_append (p : Printer) {tokens : List Token} (inside : ∀ t ∈ tokens, t.isEnd = false) :
    ∃ text, ∀ rest, p.write (tokens ++ rest) = text ++ (p.after tokens).write rest := by
  induction tokens generalizing p with
  | nil => exact ⟨[], fun _ => rfl⟩
  | cons token tokens ih =>
    obtain ⟨noEnd, inside⟩ := List.forall_mem_cons.mp inside
    obtain ⟨text, same⟩ := ih (p.afterToken token) inside
    refine ⟨p.before token ++ (token.lexeme ++ text), fun rest => ?_⟩
    rw [List.cons_append, write_cons noEnd, same]
    simp only [List.append_assoc]
    rfl

theorem isSome_previous_after (p : Printer) (token : Token) (tokens : List Token) :
    (p.after (token :: tokens)).previous.isSome = true := by
  induction tokens generalizing p token with
  | nil =>
    show (p.afterToken token).previous.isSome = true
    rw [previous_afterToken]
    rfl
  | cons next tokens ih => exact ih (p.afterToken token) next

theorem getLast?_marker (token : Token) : (marker token).getLast? = some '\n' := by
  rw [marker, List.getLast?_append]
  rfl

theorem getLast?_feeds (n : Nat) : ('\n' :: List.replicate n '\n').getLast? = some '\n' := by
  rw [← List.replicate_succ, List.getLast?_replicate, if_neg (Nat.succ_ne_zero n)]

/-- What stands between two lines starts and ends with a line feed. -/
theorem before_of_isSome (some : p.previous.isSome = true) (starts : token.atLineStart = true) :
    (p.before token).head? = Option.some '\n' ∧ (p.before token).getLast? = Option.some '\n' := by
  rw [before, starts, Bool.or_true, some]
  simp only [if_true]
  split
  · split
    · refine ⟨rfl, ?_⟩
      rw [List.getLast?_append, getLast?_marker]
      rfl
    · exact ⟨rfl, getLast?_feeds _⟩
  · exact ⟨rfl, rfl⟩

/-- The first line starts the text, or a line of it. -/
theorem before_of_initial (markers : Bool) (token : Token) :
    ({ markers } : Printer).before token = []
      ∨ (({ markers } : Printer).before token).getLast? = Option.some '\n' := by
  cases markers with
  | false => exact .inl rfl
  | true =>
    have same : ({ markers := true } : Printer).before token = marker token := rfl
    rw [same]
    exact .inr (getLast?_marker token)

/-- After a line, the end of all tokens or a token at the start of a line writes a line feed. -/
theorem head?_write (some : p.previous.isSome = true) (tokens : List Token)
    (starts : token.atLineStart = true ∨ token.isEnd = true) :
    (p.write (token :: tokens)).head? = Option.some '\n' := by
  cases ends : token.isEnd with
  | true =>
    rw [write, ends, if_pos rfl, if_pos some]
    rfl
  | false =>
    rw [ends] at starts
    rw [write_cons ends, List.head?_append, (before_of_isSome some (starts.resolve_right Bool.false_ne_true)).1]
    rfl

end Printer

/-- A line that starts with a token at the start of a line is written on lines of its own, if the token
after it is at the start of a line or there are no more. -/
theorem render_line (markers : Bool) {before line : List Token} {head : Token}
    (inside : ∀ t ∈ before, t.isEnd = false) (starts : head.atLineStart = true)
    (stay : ∀ t ∈ line, t.atLineStart = false) (inLine : ∀ t ∈ head :: line, t.isEnd = false)
    (next : Token) (rest : List Token) :
    ∃ first last, render markers (before ++ (head :: line ++ next :: rest))
        = first ++ (join (head :: line) ++ last)
      ∧ (first = [] ∨ first.getLast? = some '\n')
      ∧ (next.atLineStart = true ∨ next.isEnd = true → last.head? = some '\n') := by
  obtain ⟨text, written⟩ := Printer.exists_write_append { markers } inside
  have some := (({ markers } : Printer).after before).isSome_previous_after head line
  refine ⟨text ++ (({ markers } : Printer).after before).before head,
    ((({ markers } : Printer).after before).after (head :: line)).write (next :: rest), ?_, ?_,
    Printer.head?_write some rest⟩
  · rw [render, written, Printer.write_line stay inLine, List.append_assoc]
  · cases before with
    | nil =>
      have nothing : text = [] := List.self_eq_append_left.mp (written [])
      rw [nothing, List.nil_append]
      exact Printer.before_of_initial markers head
    | cons token before =>
      have feed := (Printer.before_of_isSome
        (Printer.isSome_previous_after { markers } token before) starts).2
      rw [List.getLast?_append, feed]
      exact .inr rfl

end CPreprocessor.Spelling
