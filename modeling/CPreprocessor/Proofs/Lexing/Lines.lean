/-
# Lines that are read again

Tokens are written on lines, and each line is read again as its tokens (`readsLine`). What
stands before a line, white space or a line marker, says on which line of which file its
first token is; `presents_write` follows the printer and the lexer from line to line.
-/
import Mathlib.Data.List.Forall2
import CPreprocessor.Proofs.Lexing.Feeds
import CPreprocessor.Proofs.Lexing.Join
import CPreprocessor.Proofs.Lexing.Marker
import CPreprocessor.Proofs.Lexing.Printer

namespace CPreprocessor

open Lexeme

/-! ## Lexemes at the ends of lines -/

/-- A lexeme that ends before the rest of its line ends before the line end and all that follows it. -/
theorem Lexeme.IsLexeme.ends_line {kind : TokenKind} {w part : Text} (lexeme : IsLexeme kind w)
    (ends : Ends .standard kind w part) (tail : Text) :
    Ends .standard kind w (part ++ '\n' :: tail) := by
  have longest (part : Text)
      (ends : ∀ p ∈ Language.standard.punctuators, p <+: w ++ part → p.length ≤ w.length) :
      ∀ p ∈ Language.standard.punctuators, p <+: w ++ (part ++ '\n' :: tail) → p.length ≤ w.length := by
    intro p known isPrefix
    rw [← List.append_assoc] at isPrefix
    refine ends p known (List.prefix_of_prefix_length_le isPrefix (List.prefix_append _ _) ?_)
    by_contra longer
    obtain ⟨rest, rfl⟩ : w ++ part <+: p :=
      List.prefix_of_prefix_length_le (List.prefix_append _ _) isPrefix (by omega)
    have feed : rest <+: '\n' :: tail := (List.prefix_append_right_inj _).mp isPrefix
    cases rest with
    | nil => simp at longer
    | cons c rest =>
      refine Language.feed_not_mem known ?_
      rw [(List.cons_prefix_cons.mp feed).1]
      simp
  cases part with
  | nil =>
    rw [List.nil_append]
    refine lexeme.ends_of_first rfl rfl (by simp) (by simp) ?_
    refine longest [] fun p known isPrefix => ?_
    rw [List.append_nil] at isPrefix
    exact isPrefix.length_le
  | cons c part =>
    have names (isName : kind = .keyword ∨ kind = .identifier) (nameEnds : NameEnds w (c :: part)) :
        NameEnds w (c :: part ++ '\n' :: tail) := by
      refine ⟨?_, nameEnds.2⟩
      rw [Option.eq_none_iff_forall_ne_some]
      intro opening opens
      have noName : Text.isIdentifierChar (Text.first (c :: part ++ '\n' :: tail)) = false := nameEnds.2
      obtain ⟨known, length, same, quote⟩ :=
        opening?_append_eq_some (lexeme.forall_isIdentifierChar isName) noName opens
      have same : c = opening.quote := same
      have opens : Literal.opening? (w ++ c :: part) = some opening :=
        Literal.opening?_eq_some.mpr ⟨w, part, known, length, by rw [same], quote⟩
      rw [nameEnds.1] at opens
      cases opens
    cases kind with
    | number =>
      refine ⟨ends.1, ?_⟩
      cases part with
      | nil =>
        have goesOn : continuesNumber c Text.nul = false := ends.2
        have alike : continuesNumber c Text.nul = continuesNumber c '\n' := by
          rw [continuesNumber, continuesNumber]
          rfl
        exact alike ▸ goesOn
      | cons d part => exact ends.2
    | keyword => exact names (.inl rfl) ends
    | identifier => exact names (.inr rfl) ends
    | string => exact ends
    | character => exact ends
    | punctuator => exact ⟨longest _ ends.1, ends.2⟩
    | comment => trivial
    | whitespace => trivial
    | endOfFile => trivial

/-! ## One line -/

namespace Lexer

/-- From one place in a text to a later one, with the tokens between them; the line markers among them
are carried out. -/
inductive Presents : Lexer → List Token → Lexer → Prop where
  | done (l : Lexer) : Presents l [] l
  | token {l after last : Lexer} {token : Token} {tokens : List Token}
      (here : l.item = (.token token, after)) (more : Presents after tokens last) :
      Presents l (token :: tokens) last
  | marker {l after last : Lexer} {d : Directive} {n : Nat} {name : Option Text}
      {tokens : List Token} (here : l.item = (.directive d, after)) (kind : d.kind = .lineMarker)
      (read : LineArguments.read d.nameToken (d.nameToken :: d.args) = .ok (n, name))
      (more : Presents (after.presentLine n name) tokens last) : Presents l tokens last

theorem Presents.append {l middle last : Lexer} {first second : List Token}
    (before : Presents l first middle) (more : Presents middle second last) :
    Presents l (first ++ second) last := by
  induction before with
  | done l => exact more
  | token here _ ih => exact .token here (ih more)
  | marker here kind read _ ih => exact .marker here kind read (ih more)

/-- A line is read as tokens of the same kinds and lexemes. The file is presented under the name
`shown`, and the first token is on line `n`. -/
structure ReadsLine (l : Lexer) (text : Text) (line : List Token) (after shown : Text) (n : Int)
    (back : List Token) (last : Lexer) : Prop where
  presents : l.Presents back last
  stands : ∃ part, last.StandsAfter text part
  rest : last.rest = '\n' :: after
  presentedShown : last.presented.shown = shown
  presentedLine : text.CountsLines → last.presentedLine = n + Spelling.feeds line
  words : back.map Token.word = line.map Token.word
  sound : ∀ token ∈ back, token.error = none
  first : ∀ token ∈ back.head?, token.file.shown = shown ∧
    (text.CountsLines → token.line = lineNumber n)

variable {text after : Text}

theorem ReadsLine.of_eq {l last : Lexer} {line back : List Token} {shown : Text} {n n' : Int}
    (read : l.ReadsLine text line after shown n back last) (same : text.CountsLines → n = n') :
    l.ReadsLine text line after shown n' back last where
  presents := read.presents
  stands := read.stands
  rest := read.rest
  presentedShown := read.presentedShown
  presentedLine fits := same fits ▸ read.presentedLine fits
  words := read.words
  sound := read.sound
  first token isFirst :=
    ⟨(read.first token isFirst).1, fun fits => same fits ▸ (read.first token isFirst).2 fits⟩

theorem isWhite_gapAfter (token : Token) (tokens : List Token) :
    (gapAfter token tokens).IsWhite ∧ (gapAfter token tokens).contains '\n' = false
      ∧ (gapAfter token tokens).count '\n' = 0 := by
  cases tokens with
  | nil => exact ⟨List.forall_mem_nil _, rfl, rfl⟩
  | cons next rest =>
    rw [gapAfter]
    split_ifs
    · exact ⟨List.forall_mem_singleton.mpr (.inr rfl), rfl, rfl⟩
    · exact ⟨List.forall_mem_nil _, rfl, rfl⟩

/-- The tokens of a line are read again after white space, if a hash does not make the line a
directive. -/
theorem StandsAfter.readsLine {line : List Token} (nonempty : line ≠ [])
    (writable : ∀ t ∈ line, t.IsWritable) (apart : ¬ PointsMeet line) {l : Lexer} {part white : Text}
    (stands : l.StandsAfter text part)
    (rest : l.rest = white ++ (Spelling.join line ++ '\n' :: after)) (isWhite : white.IsWhite)
    (noDirective : ∀ token ∈ line.head?, token.isHash = true →
      (l.atLineStart || white.contains '\n') = false) :
    ∃ back last, l.ReadsLine text line after l.presented.shown
      (l.presentedLine + white.count '\n') back last := by
  induction line generalizing l part white with
  | nil => exact absurd rfl nonempty
  | cons token line ih =>
    have tokenWritable := writable token List.mem_cons_self
    have others : ∀ t ∈ line, t.IsWritable := fun t present =>
      writable t (List.mem_cons_of_mem _ present)
    rw [PointsMeet, not_or] at apart
    have lexeme := tokenWritable.isLexeme
    have ends := (lexeme.ends_line ((ends_join_iff writable ((words_join_iff others).mpr apart.2)).mpr
      apart.1) after)
    have bare : Gap.starts (token.lexeme
        ++ (gapAfter token line ++ Spelling.join line ++ '\n' :: after)) = false := by
      rw [Bool.eq_false_iff]
      intro gap
      obtain ⟨slash, second⟩ := lexeme.starts_append gap
      have inLine := starts_append_join writable
      cases whole : gapAfter token line ++ Spelling.join line with
      | nil =>
        rw [whole] at second
        rcases second with same | same <;> cases same
      | cons c more =>
        rw [whole] at inLine second
        have second : c = '/' ∨ c = '*' := second
        rw [slash] at inLine
        rcases second with rfl | rfl <;> cases inLine
    obtain ⟨before, -, reads⟩ := lexeme.reads
    have split : l.rest = white ++ (token.lexeme
        ++ (gapAfter token line ++ Spelling.join line ++ '\n' :: after)) := by
      rw [rest, join_cons writable]
      simp only [List.append_assoc]
    have takes := stands.takes_next split isWhite tokenWritable.nonempty bare
      (read_append_of_ends reads ends) rfl
    have kind : l.next.1.kind = token.kind := congrArg Prod.fst takes.word
    have sameLexeme : l.next.1.lexeme = token.lexeme := congrArg Prod.snd takes.word
    have here : l.item = (.token l.next.1, l.next.2) := by
      refine item_of_token (by rw [Token.isEnd, kind]; exact tokenWritable.isEnd) ?_
      have same : l.next.1.isHash = token.isHash := by
        simp only [Token.isHash, Token.isPunctuator, kind, sameLexeme]
      rw [Reader.startsDirective, same, takes.atLineStart]
      cases isHash : token.isHash with
      | false => rfl
      | true =>
        rw [noDirective token rfl isHash]
        rfl
    have first : l.next.1.file.shown = l.presented.shown
        ∧ (text.CountsLines → l.next.1.line = lineNumber (l.presentedLine + white.count '\n')) :=
      ⟨by rw [takes.tokenFile], takes.tokenLine⟩
    by_cases last : line = []
    · subst last
      have atFeed : l.next.2.rest = '\n' :: after := takes.rest
      exact ⟨[l.next.1], l.next.2, .token here (.done _), ⟨_, takes.stands⟩, atFeed,
        by rw [takes.presented], fun fits => by simp [takes.line fits, Spelling.feeds],
        by simp [Token.word, kind, sameLexeme],
        by simp [takes.error], by simpa using first⟩
    · obtain ⟨isWhite', noFeed, noCount⟩ := isWhite_gapAfter token line
      obtain ⟨back, final, read⟩ := ih last others apart.2 takes.stands
        (by rw [takes.rest, List.append_assoc]) isWhite' fun _ _ _ => by rw [takes.inLine, noFeed]; rfl
      refine ⟨l.next.1 :: back, final, .token here read.presents, read.stands, read.rest, ?_,
        fun fits => ?_, ?_, ?_, by simpa using first⟩
      · rw [read.presentedShown, takes.presented]
      · rw [read.presentedLine fits, takes.line fits, noCount]
        rw [Spelling.feeds]
        omega
      · rw [List.map_cons, List.map_cons, read.words, takes.word]
        rfl
      · exact List.forall_mem_cons.mpr ⟨takes.error, read.sound⟩

/-- Where a lexer stands does not depend on how lines are presented. -/
theorem StandsAfter.presentLine {l : Lexer} {part : Text} (stands : l.StandsAfter text part) (n : Nat)
    (name : Option Text) : (l.presentLine n name).StandsAfter text part :=
  ⟨stands.plain, stands.source, stands.whole, stands.index, stands.language, stands.skips, stands.fresh⟩

/-- A line after a marker is presented as the marker says. -/
theorem StandsAfter.readsLine_marker {line : List Token} (nonempty : line ≠ [])
    (writable : ∀ t ∈ line, t.IsWritable) (apart : ¬ PointsMeet line) {l : Lexer} {part white : Text}
    (stands : l.StandsAfter text part) {n : Nat} {name : Text}
    (rest : l.rest = white ++ (Spelling.Printer.markerLine n name
      ++ '\n' :: (Spelling.join line ++ '\n' :: after)))
    (isWhite : white.IsWhite) (starts : (l.atLineStart || white.contains '\n') = true)
    (noHash : ∀ token ∈ line.head?, token.isHash = false) (markable : name.IsMarkable)
    (bound : n ≤ LineArguments.greatestLine) :
    ∃ back last, l.ReadsLine text line after name n back last := by
  obtain ⟨d, marked, here, marked', rest', -, kind, read⟩ :=
    stands.item_marker rest isWhite starts markable bound
  have presented : (marked.presentLine n (some name)).presentedLine = n - 1 := by
    simp only [presentedLine, Lexer.presentLine, rest', List.head?_cons, if_true]
    omega
  have rest'' : (marked.presentLine n (some name)).rest
      = ['\n'] ++ (Spelling.join line ++ '\n' :: after) := rest'
  obtain ⟨back, last, line'⟩ := (marked'.presentLine n (some name)).readsLine nonempty writable apart
    rest'' (List.forall_mem_singleton.mpr (.inl rfl)) fun token isHead isHash => by
      rw [noHash token isHead] at isHash
      cases isHash
  have same : (n : Int) - 1 + (['\n'] : Text).count '\n' = n := by
    simp
  rw [presented, same] at line'
  exact ⟨back, last, .marker here kind read line'.presents, line'.stands, line'.rest,
    line'.presentedShown, line'.presentedLine, line'.words, line'.sound, line'.first⟩

end Lexer

namespace Spelling

/-- A line that is read again as its tokens after the marker of its first one. -/
structure IsLegible (line : List Token) : Prop where
  writable : ∀ token ∈ line, token.IsWritable
  /-- Three points are one punctuator. -/
  apart : ¬ PointsMeet line
  /-- The line is not joined to the next one. -/
  noJoin : ∀ last ∈ line.getLast?, last.lexeme.getLast? ≠ some '\\'
  /-- The line is no directive. -/
  noHash : ∀ first ∈ line.head?, first.isHash = false
  markable : ∀ first ∈ line.head?, first.file.shown.IsMarkable
  bound : ∀ first ∈ line.head?, 1 ≤ first.line ∧ first.line ≤ LineArguments.greatestLine

/-- A token comes back as one of the same kind and lexeme. If it starts a line, the file comes back under
the same name and, where lines are counted, the line with the same number but for the drift. -/
structure ComesBack (counted : Prop) (token : Token) (drift : Nat) (back : Token) : Prop where
  word : back.word = token.word
  shown : token.atLineStart = true → back.file.shown = token.file.shown
  line : counted → token.atLineStart = true → back.line = (token.line + drift) % Nat.pow 2 32

theorem comesBack_of_onTime {counted : Prop} {tokens back : List Token} {drifts : List Nat}
    (onTime : ∀ n ∈ drifts, n = 0) (length : drifts.length = tokens.length)
    (found : List.Forall₂ (fun sent found => ComesBack counted sent.1 sent.2 found)
      (tokens.zip drifts) back) :
    List.Forall₂ (ComesBack counted · 0 ·) tokens back := by
  induction tokens generalizing drifts back with
  | nil =>
    cases found
    exact .nil
  | cons token tokens ih =>
    cases drifts with
    | nil => cases length
    | cons drift drifts =>
      obtain ⟨rfl, later⟩ := List.forall_mem_cons.mp onTime
      cases found with
      | cons first found => exact .cons first (ih later (Nat.succ_inj.mp length) found)

end Spelling

open Spelling

/-- The lexer reads, in a text, what the printer goes on to write. -/
structure Spelling.Printer.Precedes (p : Printer) (text : Text) (l : Lexer) (drift : Nat)
    (token : Token) : Prop where
  markers : p.markers = true
  place : (p.previous = none ∧ p.file = none ∧ l.atLineStart = true)
    ∨ ∃ head, p.IsOnLine head ∧ token.atLineStart = true ∧ l.presented.shown = head.file.shown
      ∧ (text.CountsLines → l.presentedLine = head.line + drift)

/-- A line is read again after what is written before it. -/
theorem Lexer.StandsAfter.readsLine_before {p : Printer} {text : Text} {l : Lexer} {drift : Nat}
    {token : Token} (precedes : p.Precedes text l drift token) {line : List Token}
    (legible : IsLegible (token :: line)) {part after : Text} (stands : l.StandsAfter text part)
    (rest : l.rest = p.before token ++ (join (token :: line) ++ '\n' :: after)) :
    ∃ back last, l.ReadsLine text (token :: line) after token.file.shown
      ((token.line + p.driftAt drift token : Nat) : Int) back last := by
  obtain ⟨low, high⟩ := legible.bound token rfl
  have starts : (p.previous.isSome && !token.atLineStart) = false := by
    obtain ⟨none, -, -⟩ | ⟨head, -, starts, -, -⟩ := precedes.place
    · rw [none]
      rfl
    · rw [starts, Bool.not_true, Bool.and_false]
  have isFirst : (p.previous.isNone || token.atLineStart) = true := by
    obtain ⟨none, -, -⟩ | ⟨head, -, starts, -, -⟩ := precedes.place
    · rw [none]
      rfl
    · rw [starts, Bool.or_true]
  cases marks : p.marks token with
  | true =>
    have here : p.driftAt drift token = 0 := by
      rw [Printer.driftAt, starts, if_neg Bool.false_ne_true, if_pos marks]
    have written : p.before token = (if p.previous.isSome then ['\n'] else [])
        ++ (Printer.markerLine token.line token.file.shown ++ ['\n']) := by
      rw [← Printer.marker_eq, Printer.before, if_pos isFirst, if_pos precedes.markers]
      exact if_pos marks
    have split : l.rest = (if p.previous.isSome then ['\n'] else [])
        ++ (Printer.markerLine token.line token.file.shown
          ++ '\n' :: (join (token :: line) ++ '\n' :: after)) := by
      rw [rest, written]
      simp only [List.append_assoc, List.singleton_append]
    rw [here, Nat.add_zero]
    refine stands.readsLine_marker (List.cons_ne_nil _ _) legible.writable legible.apart split ?_ ?_
      legible.noHash (legible.markable token rfl) high
    · split
      · exact List.forall_mem_singleton.mpr (.inl rfl)
      · exact List.forall_mem_nil _
    · obtain ⟨none, -, start⟩ | ⟨head, onLine, -, -, -⟩ := precedes.place
      · rw [start, Bool.true_or]
      · rw [if_pos onLine.previous, Bool.or_eq_true]
        exact .inr rfl
  | false =>
    obtain ⟨none, noFile, -⟩ | ⟨head, onLine, -, shown, number⟩ := precedes.place
    · rw [Printer.marks, noFile] at marks
      cases marks
    have written : p.before token = '\n' :: List.replicate (token.line - head.line - 1) '\n' := by
      rw [Printer.before, if_pos isFirst, if_pos precedes.markers, onLine.previous, ← onLine.line]
      exact if_neg (Bool.eq_false_iff.mp marks)
    have marked := marks
    simp only [Printer.marks, onLine.file, onLine.line, Option.any_some, Bool.or_eq_false_iff,
      Bool.not_eq_false', Bool.and_eq_true, decide_eq_true_eq, decide_eq_false_iff_not, Nat.not_lt] at marks
    obtain ⟨⟨⟨-, sameShown⟩, notBefore⟩, -⟩ := marks
    have isWhite : Text.IsWhite ('\n' :: List.replicate (token.line - head.line - 1) '\n') :=
      List.forall_mem_cons.mpr ⟨.inl rfl, fun c present => .inl (List.eq_of_mem_replicate present)⟩
    rw [written] at rest
    obtain ⟨back, last, line'⟩ := stands.readsLine (List.cons_ne_nil _ _) legible.writable legible.apart
      rest isWhite fun first isFirst isHash => by
        rw [legible.noHash first isFirst] at isHash
        cases isHash
    have here (fits : text.CountsLines) : l.presentedLine
        + (('\n' :: List.replicate (token.line - head.line - 1) '\n' : Text).count '\n' : Nat)
        = ((token.line + p.driftAt drift token : Nat) : Int) := by
      rw [number fits, List.count_cons_self, List.count_replicate_self, Printer.driftAt, starts,
        if_neg Bool.false_ne_true, marked, if_neg Bool.false_ne_true, onLine.line]
      split_ifs <;> omega
    rw [shown, sameShown] at line'
    exact ⟨back, last, line'.of_eq here⟩

/-- Tokens of the same kinds and lexemes come back wherever they are not at the start of a line. -/
theorem Spelling.comesBack_of_stay {counted : Prop} {tokens back : List Token} (drifts : List Nat)
    (length : drifts.length = tokens.length) (stay : ∀ t ∈ tokens, t.atLineStart = false)
    (words : back.map Token.word = tokens.map Token.word) :
    List.Forall₂ (fun sent found => ComesBack counted sent.1 sent.2 found) (tokens.zip drifts) back := by
  induction tokens generalizing back drifts with
  | nil =>
    cases back with
    | nil => exact .nil
    | cons found back => cases words
  | cons token tokens ih =>
    cases back with
    | nil => cases words
    | cons found back =>
      cases drifts with
      | nil => cases length
      | cons drift drifts =>
        obtain ⟨staysHere, stay⟩ := List.forall_mem_cons.mp stay
        rw [List.map_cons, List.map_cons, List.cons.injEq] at words
        refine .cons ⟨words.1, ?_, ?_⟩ (ih drifts (Nat.succ_inj.mp length) stay words.2)
        · intro starts
          rw [staysHere] at starts
          cases starts
        · intro _ starts
          rw [staysHere] at starts
          cases starts

theorem Lexer.lineNumber_natCast {n : Nat} (positive : 1 ≤ n) :
    lineNumber (n : Int) = n % Nat.pow 2 32 := by
  rw [lineNumber, if_neg (by omega), Int.toNat_natCast]

/-- The first token of a line comes back where the line does, and the others on the same line. -/
theorem Lexer.ReadsLine.comesBack {l last : Lexer} {text after : Text} {token : Token}
    {line back : List Token} {drift : Nat} (positive : 1 ≤ token.line)
    (read : l.ReadsLine text (token :: line) after token.file.shown
      ((token.line + drift : Nat) : Int) back last)
    (stay : ∀ t ∈ line, t.atLineStart = false) {others : List Nat}
    (length : others.length = line.length) :
    List.Forall₂ (fun sent found => ComesBack text.CountsLines sent.1 sent.2 found)
      ((token :: line).zip (drift :: others)) back := by
  have words := read.words
  cases back with
  | nil => cases words
  | cons found back =>
    rw [List.map_cons, List.map_cons, List.cons.injEq] at words
    obtain ⟨shown, number⟩ := read.first found rfl
    rw [lineNumber_natCast (by omega)] at number
    exact .cons ⟨words.1, fun _ => shown, fun fits _ => number fits⟩
      (comesBack_of_stay others length stay words.2)

/-- What the printer writes is read again. -/
theorem Lexer.StandsAfter.presents_write {tokens : List Token}
    (legible : ∀ line ∈ lines tokens, IsLegible line) {p : Printer} {l : Lexer} {drift : Nat}
    {text part : Text} (precedes : ∀ token ∈ tokens.head?, p.Precedes text l drift token)
    (stands : l.StandsAfter text part) (written : l.rest = p.write tokens) :
    ∃ back last, l.Presents back last ∧ last.next.1.isEnd = true
      ∧ back.map Token.word = tokens.map Token.word ∧ (∀ token ∈ back, token.error = none)
      ∧ List.Forall₂ (fun sent found => ComesBack text.CountsLines sent.1 sent.2 found)
        (tokens.zip (p.drifts drift tokens)) back := by
  induction tokens using lines_induction generalizing p l drift part with
  | nil =>
    have isWhite : l.rest.IsWhite := by
      rw [written, Printer.write]
      split
      · exact List.forall_mem_singleton.mpr (.inl rfl)
      · exact List.forall_mem_nil _
    have ends : l.rest.drop (Gap.read true l.rest).length = [] := by
      have gap := Gap.read_white isWhite (rfl : Gap.starts [] = false)
      rw [List.append_nil] at gap
      rw [gap, List.drop_length]
    have kind : l.next.1.kind = .endOfFile :=
      congrArg Prod.fst (next_of_end stands.skips stands.fresh ends)
    refine ⟨[], l, .done l, ?_, rfl, List.forall_mem_nil _, .nil⟩
    rw [Token.isEnd, kind]
    rfl
  | line token line more stay atStart same ih =>
    rw [same] at legible
    obtain ⟨here, later⟩ := List.forall_mem_cons.mp legible
    have first := precedes token rfl
    have starts := first.place.imp And.left fun following => following.choose_spec.2.1
    have writes := p.write_line stay (fun t present => (here.writable t present).isEnd) more
    have onLine := Printer.isOnLine_after first.markers starts stay
    have inside : ∀ t ∈ more.head?, t.isEnd = false := by
      intro t isHead
      cases more with
      | nil => cases isHead
      | cons next more =>
        cases isHead
        rw [lines] at later
        exact ((later _ List.mem_cons_self).writable t List.mem_cons_self).isEnd
    obtain ⟨after, feed⟩ :=
      Printer.exists_write_eq onLine fun t isHead => ⟨atStart t isHead, inside t isHead⟩
    rw [List.cons_append] at writes
    obtain ⟨back, middle, read⟩ := stands.readsLine_before first here (by rw [written, writes, feed])
    obtain ⟨part', stands'⟩ := read.stands
    obtain ⟨others, length, -, drifts⟩ := Printer.drifts_line first.markers starts stay more drift
    have follows : ∀ t ∈ more.head?,
        (p.after (token :: line)).Precedes text middle (p.driftAt drift token + feeds (token :: line)) t := by
      refine fun t isHead => ⟨onLine.markers, .inr ⟨token, onLine, atStart t isHead, ?_, ?_⟩⟩
      · exact read.presentedShown
      · intro fits
        rw [read.presentedLine fits]
        omega
    obtain ⟨back', last, presents, isEnd, words, sound, found⟩ :=
      ih later follows stands' (by rw [read.rest, feed])
    refine ⟨back ++ back', last, read.presents.append presents, isEnd, ?_, ?_, ?_⟩
    · rw [List.map_append, read.words, words, ← List.map_append, List.cons_append]
    · exact List.forall_mem_append.mpr ⟨read.sound, sound⟩
    · rw [List.cons_append] at drifts
      rw [drifts, ← List.cons_append, List.zip_append (by simp [length])]
      exact List.rel_append (read.comesBack (here.bound token rfl).1 stay length) found

/-! ## What is written is its own source -/

namespace Text

theorem IsPlain.append {first second : Text} (plain : first.IsPlain) (plain' : second.IsPlain)
    (boundary : first.getLast? ≠ some '\\') : (first ++ second).IsPlain := by
  refine ⟨?_, not_lineJoin_append plain.noLineJoin plain'.noLineJoin (.inl boundary)⟩
  rw [List.mem_append, not_or]
  exact ⟨plain.noReturn, plain'.noReturn⟩

theorem isPlain_of_noFeed {text : Text} (noReturn : '\r' ∉ text) (noFeed : '\n' ∉ text) :
    text.IsPlain :=
  ⟨noReturn, fun inside => noFeed (inside.subset (by simp))⟩

theorem isPlain_feeds (n : Nat) : IsPlain (List.replicate n '\n') := by
  refine ⟨fun present => absurd (List.eq_of_mem_replicate present) (by decide), fun inside => ?_⟩
  have present : '\\' ∈ List.replicate n '\n' := inside.subset (by simp)
  exact absurd (List.eq_of_mem_replicate present) (by decide)

end Text

namespace Spelling

/-- A line ends as its last token does. -/
theorem getLast?_join {tokens : List Token} (writable : ∀ token ∈ tokens, token.IsWritable) :
    (join tokens).getLast? = tokens.getLast?.bind fun last => last.lexeme.getLast? := by
  induction tokens with
  | nil => rfl
  | cons token tokens ih =>
    have others : ∀ t ∈ tokens, t.IsWritable := fun t present =>
      writable t (List.mem_cons_of_mem _ present)
    rw [join_cons writable]
    cases tokens with
    | nil => simp [gapAfter, join]
    | cons next rest =>
      have nonempty : join (next :: rest) ≠ [] := by
        rw [join_cons others]
        simp [(others next List.mem_cons_self).nonempty]
      rw [List.getLast?_append_of_ne_nil _ (by simp [nonempty]), List.getLast?_append_of_ne_nil _ nonempty,
        ih others, List.getLast?_cons_cons]

namespace Printer

variable {p : Printer} {token : Token}

theorem isPlain_markerLine {name : Text} (markable : name.IsMarkable) (n : Nat) :
    (markerLine n name).IsPlain ∧ (markerLine n name).getLast? ≠ some '\\' := by
  have digits (c : Char) (noDigit : c.isDigit = false) : c ∉ Text.ofNat n := fun present => by
    rw [Text.isDigit_of_mem_ofNat c present] at noDigit
    cases noDigit
  refine ⟨Text.isPlain_of_noFeed ?_ ?_, ?_⟩
  · simp [markerLine, digits, markable.noReturn]
  · simp [markerLine, digits, markable.noFeed]
  · have whole : markerLine n name = (['#'] ++ ' ' :: (Text.ofNat n ++ ' ' :: '"' :: name)) ++ ['"'] := by
      simp [markerLine]
    rw [whole, List.getLast?_concat]
    decide

/-- What stands before a line is its own source. -/
theorem isPlain_before (markers : p.markers = true)
    (starts : p.previous = none ∨ token.atLineStart = true) (markable : token.file.shown.IsMarkable) :
    (p.before token).IsPlain ∧ (p.before token).getLast? ≠ some '\\' := by
  have isFirst : (p.previous.isNone || token.atLineStart) = true := by
    rcases starts with starts | starts <;> simp [starts]
  have lineEnd : Text.IsPlain (if p.previous.isSome then ['\n'] else [])
      ∧ (if p.previous.isSome then ['\n'] else []).getLast? ≠ some '\\' := by
    split
    · exact ⟨Text.isPlain_feeds 1, by decide⟩
    · exact ⟨Text.isPlain_feeds 0, by decide⟩
  have feeds (n : Nat) : (List.replicate n '\n').getLast? ≠ some '\\' := by
    intro last
    exact absurd (List.eq_of_mem_replicate (List.mem_of_getLast? last)) (by decide)
  rw [before, if_pos isFirst, if_pos markers]
  simp only []
  split
  · obtain ⟨plain, noLast⟩ := isPlain_markerLine markable token.line
    rw [marker_eq]
    refine ⟨lineEnd.1.append (plain.append (Text.isPlain_feeds 1) noLast) lineEnd.2, ?_⟩
    rw [← List.append_assoc, List.getLast?_concat]
    decide
  · refine ⟨lineEnd.1.append (Text.isPlain_feeds _) lineEnd.2, ?_⟩
    split
    · have same (n : Nat) : ['\n'] ++ List.replicate n '\n' = List.replicate (n + 1) '\n' := rfl
      rw [same]
      exact feeds _
    · exact feeds _

/-- The text of legible lines is its own source. -/
theorem isPlain_write {tokens : List Token} (legible : ∀ line ∈ lines tokens, IsLegible line)
    (markers : p.markers = true)
    (starts : ∀ token ∈ tokens.head?, p.previous = none ∨ token.atLineStart = true) :
    (p.write tokens).IsPlain := by
  induction tokens using lines_induction generalizing p with
  | nil =>
    rw [write]
    split
    · exact Text.isPlain_feeds 1
    · exact Text.isPlain_feeds 0
  | line token line more stay atStart same ih =>
    rw [same] at legible
    obtain ⟨here, later⟩ := List.forall_mem_cons.mp legible
    have writes := p.write_line stay (fun t present => (here.writable t present).isEnd) more
    have onLine := isOnLine_after markers (starts token rfl) stay
    obtain ⟨plain, noLast⟩ := isPlain_before markers (starts token rfl) (here.markable token rfl)
    obtain ⟨noReturn, noLineJoin, -⟩ := join_plain here.writable
    have noLast' : (join (token :: line)).getLast? ≠ some '\\' := by
      rw [getLast?_join here.writable]
      intro last
      obtain ⟨final, isLast, backslash⟩ := Option.bind_eq_some_iff.mp last
      exact here.noJoin final isLast backslash
    rw [← List.cons_append, writes]
    exact plain.append (Text.IsPlain.append ⟨noReturn, noLineJoin⟩
      (ih later onLine.markers fun t isHead => .inr (atStart t isHead)) noLast') noLast

/-- The text starts with a marker, and so with no byte-order mark. -/
theorem not_hasMark_write {tokens : List Token} (inside : ∀ t ∈ tokens, t.isEnd = false) :
    ¬ Encoding.HasMark (({ markers := true } : Printer).write tokens) := by
  cases tokens with
  | nil =>
    rw [write]
    simp [Encoding.HasMark]
  | cons token rest =>
    have first : ({ markers := true } : Printer).before token = marker token := rfl
    rw [write_cons (inside token List.mem_cons_self), first, marker_eq, markerLine]
    simp [Encoding.HasMark]

end Printer

end Spelling

end CPreprocessor
