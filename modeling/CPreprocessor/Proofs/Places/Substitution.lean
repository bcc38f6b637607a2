/-
# Substitution and places

Substitution does the same with tokens and with what is seen of them: the same
operations are read from a replacement list, and each of them gives tokens that look the
same. White space is part of what an operator `#` makes, so it has to be seen if there is
one. Reports are the same if they are compared.
-/
import Mathlib.Data.List.Forall2
import CPreprocessor.Proofs.Lexing.Words
import CPreprocessor.Proofs.Places.Clear
import CPreprocessor.Proofs.Places.Lexer

namespace CPreprocessor

namespace Expansion.State

/-- The same number is given next, and the reports are the same if they are compared. -/
structure Alike (v : View) (s s' : State) : Prop where
  counter : s.counter = s'.counter
  journal : v.reports = true → s.journal = s'.journal

namespace Alike

variable {v : View} {s s' : State}

theorem refl (s : State) : Alike v s s :=
  ⟨rfl, fun _ => rfl⟩

/-- What is reported depends on what every view that compares reports shows. -/
theorem report_marks (same : Alike v s s') {token token' : Token} {detail detail' : Text}
    (looks : v.reports = true → token.seen v.marks = token'.seen v.marks ∧ detail = detail')
    (code : Code) : Alike v (s.report token code detail) (s'.report token' code detail') := by
  refine ⟨same.counter, fun compared => ?_⟩
  obtain ⟨name, line, column, -⟩ := v.reports_seen compared
  obtain ⟨marks, rfl⟩ := looks compared
  have shown := v.marks.shown_eq_of_file_eq name (congrArg Token.file marks)
  have lines := congrArg Token.line marks
  have columns := congrArg Token.column marks
  simp only [Token.seen, View.marks, View.lineOf, View.columnOf, line, column, if_true] at lines columns
  simp only [State.report, Journal.report, same.journal compared, shown, lines, columns]

theorem report (same : Alike v s s') (token : Token) (code : Code) (detail : Text) :
    Alike v (s.report token code detail) (s'.report (token.seen v) code detail) :=
  same.report_marks (fun _ => ⟨Token.seen_marks_of_seen (token.seen_seen v).symm, rfl⟩) code

end Alike

end Expansion.State

namespace Lexer.Alike

variable {v : View}

/-- Files that look alike are cut into tokens that look alike. -/
theorem drain {l l' : Lexer} (same : Alike v l l') :
    l.drain.1.map (Token.seen v) = l'.drain.1.map (Token.seen v) := by
  induction more : l.size using Nat.strongRecOn generalizing l l' with
  | ind size ih =>
    obtain ⟨given, after⟩ := same.next
    have isEnd : l.next.1.isEnd = l'.next.1.isEnd := Token.congr_seen Token.isEnd (fun _ => rfl) given
    rw [drain_eq, drain_eq l']
    cases ends : l.next.1.isEnd with
    | true => simp only [← isEnd, ends, if_true, List.map_cons, given, List.map_nil]
    | false =>
      have rest := ih _ (more ▸ size_next_lt ends) after.of_spaced rfl
      simp only [← isEnd, ends, Bool.false_eq_true, if_false, List.map_cons, given, rest]

end Lexer.Alike

/-- A text is cut into the same tokens in files that look the same, unless it is not a text; the error
then names the file. -/
theorem tokenize_congr {v : View} {f g : FileRef} (same : v.file f = v.file g) (raw : Text)
    (language : Language) :
    (tokenize raw (some f) language).toOption.map (List.map (Token.seen v))
        = (tokenize raw (some g) language).toOption.map (List.map (Token.seen v))
      ∧ (v.name = true → ∀ error, tokenize raw (some f) language = .error error →
        tokenize raw (some g) language = .error error) := by
  simp only [tokenize, Option.map_some, Option.getD_some, Source.ofBytes]
  cases Encoding.decode raw with
  | error error =>
    refine ⟨rfl, fun named cause found => ?_⟩
    have path : f.path = g.path := by
      simpa [View.file, named] using congrArg FileRef.path same
    rw [← path]
    exact found
  | ok decoded =>
    refine ⟨congrArg some ?_, fun _ _ failed => by cases failed⟩
    exact (Lexer.alike_ofSource _ language same).drain

namespace Operation

/-- The operation as it is seen. -/
def seen (v : View) : Operation → Operation
  | copy token => .copy (token.seen v)
  | argument token position => .argument (token.seen v) position
  | leftOperand token position => .leftOperand (token.seen v) position
  | stringize hash position => .stringize (hash.seen v) position
  | comma token position => .comma (token.seen v) position
  | pasteArgument paste position => .pasteArgument (paste.seen v) position
  | pasteOptional paste content => .pasteOptional (paste.seen v) (content.map (Token.seen v))
  | pasteToken paste token => .pasteToken (paste.seen v) (token.seen v)
  | optional token content beforePaste =>
    .optional (token.seen v) (content.map (Token.seen v)) beforePaste

variable (v : View) (p : Parameters) (token operand : Token) (rest : List Token)

theorem content_seen (operation : Operation) :
    (operation.seen v).content = operation.content.map (Token.seen v) := by
  cases operation <;> rfl

theorem splitClose?_seen (depth : Nat) (tokens : List Token) :
    splitClose? depth (tokens.map (Token.seen v)) =
      (splitClose? depth tokens).map fun (content, after) =>
        (content.map (Token.seen v), after.map (Token.seen v)) := by
  induction tokens generalizing depth with
  | nil => rfl
  | cons token rest ih =>
    simp only [List.map_cons, splitClose?, Token.isClose_seen, Token.isOpen_seen, ih]
    split
    · rfl
    · simp only [Option.map_map]
      rfl

theorem parenthesized?_seen (tokens : List Token) :
    parenthesized? (tokens.map (Token.seen v)) =
      (parenthesized? tokens).map fun (content, after) =>
        (content.map (Token.seen v), after.map (Token.seen v)) := by
  cases tokens with
  | nil => rfl
  | cons token rest =>
    simp only [List.map_cons, parenthesized?, Token.isOpen_seen, splitClose?_seen]
    split <;> rfl

@[simp] theorem startsWithPaste_seen (tokens : List Token) :
    startsWithPaste (tokens.map (Token.seen v)) = startsWithPaste tokens := by
  cases tokens <;> rfl

theorem readPaste_seen (paste : Token) :
    readPaste p (paste.seen v) (operand.seen v) (rest.map (Token.seen v)) =
      ((readPaste p paste operand rest).1.seen v,
        (readPaste p paste operand rest).2.map (Token.seen v)) := by
  simp only [readPaste, Parameters.indexOf?_seen, Parameters.isOptional_seen, parenthesized?_seen]
  cases p.indexOf? operand with
  | some position => rfl
  | none =>
    cases p.isOptional operand with
    | false => rfl
    | true => cases parenthesized? rest <;> rfl

theorem readOperand_seen :
    readOperand p (token.seen v) (rest.map (Token.seen v)) =
      ((readOperand p token rest).1.seen v, (readOperand p token rest).2.map (Token.seen v)) := by
  simp only [readOperand, Parameters.indexOf?_seen, Parameters.isOptional_seen, parenthesized?_seen,
    startsWithPaste_seen]
  cases startsWithPaste rest <;> cases p.indexOf? token <;> cases p.isOptional token <;>
    cases parenthesized? rest <;> simp [seen]

theorem readString?_seen :
    readString? p (token.seen v) (rest.map (Token.seen v)) =
      (readString? p token rest).map fun (operation, after) =>
        (operation.seen v, after.map (Token.seen v)) := by
  cases rest with
  | nil => rfl
  | cons next after =>
    by_cases isHash : token.isHash = true
    · simp only [List.map_cons, readString?, Token.isHash_seen, Parameters.indexOf?_seen, isHash,
        if_true]
      cases p.indexOf? next <;> rfl
    · simp only [List.map_cons, readString?, Token.isHash_seen, isHash, Bool.false_eq_true, if_false,
        Option.map_none]

theorem readComma?_seen :
    readComma? p (token.seen v) (rest.map (Token.seen v)) =
      (readComma? p token rest).map fun (operation, after) =>
        (operation.seen v, after.map (Token.seen v)) := by
  match rest with
  | [] => rfl
  | [_] => rfl
  | paste :: next :: after =>
    by_cases joins : (token.isPunctuator [','] && paste.isPaste && p.isVariadicAt next) = true
    · simp only [List.map_cons, readComma?, Token.isPunctuator_seen, Token.isPaste_seen,
        Parameters.isVariadicAt_seen, joins, if_true]
      rfl
    · simp only [List.map_cons, readComma?, Token.isPunctuator_seen, Token.isPaste_seen,
        Parameters.isVariadicAt_seen, joins, Bool.false_eq_true, if_false, Option.map_none]

/-- The operation at the head of a replacement list is the same under every view. -/
theorem read_seen :
    read p (token.seen v) (rest.map (Token.seen v)) =
      ((read p token rest).1.seen v, (read p token rest).2.map (Token.seen v)) := by
  simp only [read, readString?_seen, readComma?_seen]
  cases readString? p token rest with
  | some found => rfl
  | none =>
    cases readComma? p token rest with
    | some found => rfl
    | none =>
      cases rest with
      | nil => exact readOperand_seen v p token []
      | cons operand after =>
        simp only [Option.map_none, List.map_cons, Token.isPaste_seen]
        split
        · exact readPaste_seen v p operand after token
        · exact readOperand_seen v p token (operand :: after)

end Operation

/-- What is seen of an argument: its tokens, and an expansion that gives tokens that look the same. -/
structure Argument.Shows (v : View) (a b : Argument) : Prop where
  tokens : b.tokens = a.tokens.map (Token.seen v)
  expand : ∀ s s', Expansion.State.Alike v s s' →
    (b.expand s').1 = (a.expand s).1.map (Token.seen v)
      ∧ Expansion.State.Alike v (a.expand s).2 (b.expand s').2

namespace Substitution

/-- What is seen of a substitution that is under way. -/
structure Shows (v : View) (s t : Substitution) : Prop where
  produced : t.produced = s.produced.map (Token.seen v)
  placemarker : t.placemarker = s.placemarker.map (v.space && ·)
  expanded : t.expanded = s.expanded.map fun entry => (entry.1, entry.2.map (Token.seen v))
  state : Expansion.State.Alike v s.state t.state

variable {v : View} {s t : Substitution}

theorem Shows.result (shows : Shows v s t) : t.result = s.result.map (Token.seen v) := by
  simp only [Substitution.result, shows.produced, List.map_reverse]

theorem Shows.emit (shows : Shows v s t) (tokens : List Token) :
    Shows v (s.emit tokens) (t.emit (tokens.map (Token.seen v))) := by
  refine ⟨?_, rfl, shows.expanded, shows.state⟩
  simp only [Substitution.emit, shows.produced, List.map_append, List.map_reverse]

theorem Shows.marked (shows : Shows v s t) (placemarker : Option Bool) :
    Shows v { s with placemarker } { t with placemarker := placemarker.map (v.space && ·) } :=
  ⟨shows.produced, rfl, shows.expanded, shows.state⟩

theorem Shows.inner (shows : Shows v s t) : Shows v s.inner t.inner :=
  ⟨rfl, rfl, shows.expanded, shows.state⟩

theorem spaced_seen (v : View) (afterSpace : Bool) (tokens : List Token) :
    spaced (v.space && afterSpace) (tokens.map (Token.seen v)) =
      (spaced afterSpace tokens).map (Token.seen v) := by
  cases tokens with
  | nil => rfl
  | cons token rest => rfl

section Spaces

variable (spaces : v.space = true)
include spaces

theorem afterSpace_seen (token : Token) : (token.seen v).afterSpace = token.afterSpace := by
  simp [spaces]

theorem withSpace_seen (token : Token) (afterSpace : Bool) :
    (token.withSpace afterSpace).seen v = (token.seen v).withSpace afterSpace := by
  simp only [Token.withSpace, Token.seen, spaces, Bool.true_and]

theorem stringize_seen (hash : Token) (argument : List Token) :
    stringize (hash.seen v) (argument.map (Token.seen v)) = (stringize hash argument).seen v := by
  have lexemes : stringLexeme ∘ Token.seen v = stringLexeme := rfl
  have same : spelling stringLexeme (argument.map (Token.seen v)) = spelling stringLexeme argument := by
    cases argument with
    | nil => rfl
    | cons token rest =>
      simp only [List.map_cons, spelling, List.flatMap_map, afterSpace_seen spaces]
      rfl
  simp only [stringize, same, afterSpace_seen spaces, withSpace_seen spaces]
  rfl

end Spaces

/-- Two tokens make the same token under every view. -/
theorem pasted?_seen (v : View) (language : Language) (left right : Token) :
    pasted? language (left.seen v) (right.seen v) =
      (pasted? language left right).map (Token.seen v) := by
  have file : v.file left.file = v.file (left.seen v).file := (v.file_file _).symm
  have same := (tokenize_congr file (left.lexeme ++ right.lexeme) language).1
  simp only [pasted?, Token.lexeme_seen]
  generalize tokenize (left.lexeme ++ right.lexeme) (some left.file) language = one at same ⊢
  generalize tokenize (left.lexeme ++ right.lexeme) (some (left.seen v).file) language = two
    at same ⊢
  cases one with
  | error _ => cases two with
    | error _ => rfl
    | ok _ => cases same
  | ok tokens => cases two with
    | error _ => cases same
    | ok tokens' =>
      simp only [Except.toOption, Option.map_some, Option.some.injEq] at same
      rcases tokens with _ | ⟨token, _ | ⟨last, _ | ⟨more, rest⟩⟩⟩ <;>
        rcases tokens' with _ | ⟨token', _ | ⟨last', _ | ⟨more', rest'⟩⟩⟩ <;>
        simp only [List.map_cons, List.map_nil, List.cons.injEq, reduceCtorEq, and_false] at same <;>
        try rfl
      have error : token.error = token'.error :=
        Token.congr_seen Token.error (fun _ => rfl) same.1
      have lexeme : token.lexeme = token'.lexeme :=
        Token.congr_seen Token.lexeme (fun _ => rfl) same.1
      have kind : token.kind = token'.kind := Token.congr_seen Token.kind (fun _ => rfl) same.1
      by_cases whole : (token'.error.isNone && token'.lexeme == left.lexeme ++ right.lexeme) = true
      · simp only [error, lexeme, kind, whole, if_true]
        rfl
      · simp only [error, lexeme, whole, Bool.false_eq_true, if_false, Option.map_none]

theorem paste_seen (language : Language) (left right : Token) {s s' : Expansion.State}
    (same : Expansion.State.Alike v s s') :
    (paste language (left.seen v) (right.seen v) s').1 =
        (paste language left right s).1.map (Token.seen v)
      ∧ Expansion.State.Alike v (paste language left right s).2
          (paste language (left.seen v) (right.seen v) s').2 := by
  simp only [paste, pasted?_seen]
  cases pasted? language left right with
  | some token => exact ⟨rfl, same⟩
  | none => exact ⟨rfl, same.report left _ _⟩

theorem Shows.pasteOn (shows : Shows v s t) (language : Language) (hash : Token)
    (tokens : List Token) :
    Shows v (s.pasteOn language hash tokens)
      (t.pasteOn language (hash.seen v) (tokens.map (Token.seen v))) := by
  cases tokens with
  | nil => exact shows
  | cons right rest =>
    have spacing (afterSpace : Bool) := spaced_seen v afterSpace (right :: rest)
    simp only [List.map_cons] at spacing
    simp only [List.map_cons, Substitution.pasteOn, shows.placemarker, shows.produced]
    cases s.placemarker with
    | some afterSpace =>
      simp only [Option.map_some, spacing]
      exact shows.emit _
    | none =>
      cases s.produced with
      | nil =>
        simp only [Option.map_none, List.map_nil, Token.afterSpace_seen, spacing]
        exact shows.emit _
      | cons left earlier =>
        have pasted := paste_seen language left right shows.state
        refine ⟨?_, rfl, shows.expanded, pasted.2⟩
        simp only [Option.map_none, List.map_cons, pasted.1, List.map_append, List.map_reverse]

section Arguments

variable {args args' : List Argument} (arguments : List.Forall₂ (Argument.Shows v) args args')
include arguments

theorem written_seen (position : Nat) :
    written args' position = (written args position).map (Token.seen v) := by
  simp only [written]
  induction arguments generalizing position with
  | nil => rfl
  | cons first _ ih =>
    cases position with
    | zero => simp [first.tokens]
    | succ n => simpa using ih n

theorem hasVariable_seen : hasVariable args' = hasVariable args := by
  simp only [hasVariable]
  induction arguments with
  | nil => rfl
  | @cons a b as bs first more ih =>
    cases more with
    | nil => simp [first.tokens]
    | cons _ _ => simpa using ih

/-- An argument is expanded once, to tokens that look the same. -/
theorem Shows.expandArgument (shows : Shows v s t) (position : Nat) :
    (Substitution.expandArgument args' t position).1 =
        (Substitution.expandArgument args s position).1.map (Token.seen v)
      ∧ Shows v (Substitution.expandArgument args s position).2
          (Substitution.expandArgument args' t position).2 := by
  have known : t.expanded.lookup position
      = (s.expanded.lookup position).map (List.map (Token.seen v)) := by
    rw [shows.expanded]
    induction s.expanded with
    | nil => rfl
    | cons entry rest ih =>
      obtain ⟨key, tokens⟩ := entry
      simp only [List.map_cons, List.lookup_cons]
      cases position == key with
      | true => rfl
      | false => exact ih
  have there : Option.Rel (Argument.Shows v) args[position]? args'[position]? := by
    clear known shows
    induction arguments generalizing position with
    | nil => exact .none
    | cons first _ ih =>
      cases position with
      | zero => exact .some first
      | succ n => simpa using ih n
  simp only [Substitution.expandArgument, known]
  cases s.expanded.lookup position with
  | some tokens => exact ⟨rfl, shows⟩
  | none =>
    generalize args[position]? = one, args'[position]? = two at there
    cases there with
    | none => exact ⟨rfl, shows⟩
    | some argument =>
      have expanded := argument.expand _ _ shows.state
      refine ⟨expanded.1, shows.produced, shows.placemarker, ?_, expanded.2⟩
      simp only [List.map_cons, Option.map_none, shows.expanded, expanded.1]

/-- An operation gives tokens that look the same; white space has to be seen if it makes a string. -/
theorem Shows.apply (shows : Shows v s t) (language : Language) (content : List Token)
    (operation : Operation)
    (strings : v.space = true ∨ ∀ hash position, operation ≠ .stringize hash position) :
    Shows v (s.apply language args content operation)
      (t.apply language args' (content.map (Token.seen v)) (operation.seen v)) := by
  have empty (tokens : List Token) : (tokens.map (Token.seen v) = []) = (tokens = []) :=
    propext List.map_eq_nil_iff
  cases operation with
  | copy token => exact shows.emit [token]
  | argument token position =>
    have expanded := shows.expandArgument arguments position
    simp only [Operation.seen, Substitution.apply, expanded.1, Token.afterSpace_seen, spaced_seen]
    exact expanded.2.emit _
  | leftOperand token position =>
    simp only [Operation.seen, Substitution.apply, written_seen arguments, Token.afterSpace_seen,
      spaced_seen, empty]
    split
    · exact shows.marked (some token.afterSpace)
    · exact shows.emit _
  | stringize hash position =>
    have spaces := strings.resolve_right fun none => none hash position rfl
    simp only [Operation.seen, Substitution.apply, written_seen arguments, stringize_seen spaces]
    exact shows.emit [_]
  | comma token position =>
    simp only [Operation.seen, Substitution.apply, written_seen arguments, empty]
    split
    · exact shows.emit []
    · exact shows.emit [token]
  | pasteArgument paste position =>
    simp only [Operation.seen, Substitution.apply, written_seen arguments]
    exact shows.pasteOn language paste _
  | pasteOptional paste _ => exact shows.pasteOn language paste content
  | pasteToken paste token => exact shows.pasteOn language paste [token]
  | optional token _ beforePaste =>
    simp only [Operation.seen, Substitution.apply, Token.afterSpace_seen, spaced_seen, empty]
    split
    · exact shows.marked (some token.afterSpace)
    · exact shows.emit _

/-- Substitution gives tokens that look the same. -/
theorem Shows.run (shows : Shows v s t) (language : Language) (p : Parameters)
    (tokens : List Token) (strings : v.space = true ∨ p.makesString tokens = false) :
    Shows v (Substitution.run language p args tokens s)
      (Substitution.run language p args' (tokens.map (Token.seen v)) t) := by
  induction size : tokens.length using Nat.strongRecOn generalizing tokens s t with
  | ind size ih =>
    cases tokens with
    | nil =>
      simp only [List.map_nil, Substitution.run]
      exact shows
    | cons token rest =>
      have shorter := Operation.length_read p token rest
      have noStrings : v.space = true ∨ _ := strings.imp_right Operation.read_of_makesString
      simp only [List.length_cons] at size
      have content : Shows v
          (if hasVariable args then
            Substitution.run language p args (Operation.read p token rest).1.content s.inner
            else s.inner)
          (if hasVariable args' then
            Substitution.run language p args'
              ((Operation.read p token rest).1.content.map (Token.seen v)) t.inner
            else t.inner) := by
        rw [hasVariable_seen arguments]
        split
        · exact ih _ (by omega) shows.inner _ (noStrings.imp_right fun none => none.2.1) rfl
        · exact shows.inner
      rw [List.map_cons, Substitution.run, Substitution.run, Operation.read_seen,
        Operation.content_seen]
      refine ih _ (by omega) ?_ _ (noStrings.imp_right fun none => none.2.2) rfl
      simp only [content.result]
      refine Shows.apply arguments ?_ language _ _ (noStrings.imp_right fun none => none.1)
      exact ⟨shows.produced, shows.placemarker, content.expanded, content.state⟩

end Arguments

end Substitution

end CPreprocessor
