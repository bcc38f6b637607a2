/-
# Substitution

The replacement list of a macro is a sequence of operations: a token that is
copied, a parameter that is replaced, an argument made into a string, two tokens
that are pasted together, an optional part. `Operation.read` says which operation
stands at the head of a list; `Substitution.run` carries the operations out from
left to right. An argument next to `##` or after `#` is used as written; elsewhere
it is expanded first, once, when it is needed for the first time.
-/
import CPreprocessor.Macro.Context

namespace CPreprocessor

/-- What the head of a replacement list asks for. Arguments are given by their positions. -/
inductive Operation where
  /-- The token stays. -/
  | copy (token : Token)
  /-- A parameter becomes its expanded argument. -/
  | argument (token : Token) (position : Nat)
  /-- A parameter before `##` becomes its argument as written. -/
  | leftOperand (token : Token) (position : Nat)
  /-- `#` and a parameter become a string. -/
  | stringize (hash : Token) (position : Nat)
  /-- A comma before `##` and the variable arguments stays only if these are not empty, and
  nothing is pasted. -/
  | comma (token : Token) (position : Nat)
  /-- `##` pastes an argument as written to what stands before it. -/
  | pasteArgument (paste : Token) (position : Nat)
  /-- `##` pastes an optional part to what stands before it. -/
  | pasteOptional (paste : Token) (content : List Token)
  /-- `##` pastes a token to what stands before it. -/
  | pasteToken (paste : Token) (token : Token)
  /-- The part in parentheses after `__VA_OPT__` stays only if the variable arguments are not
  empty. -/
  | optional (token : Token) (content : List Token) (beforePaste : Bool)

namespace Operation

/-- Split a list, read inside `depth` open parentheses, at the parenthesis that closes the first of
them. -/
def splitClose? (depth : Nat) : List Token → Option (List Token × List Token)
  | [] => none
  | token :: rest =>
    if token.isClose && depth = 0 then
      some ([], rest)
    else
      let inner := if token.isOpen then depth + 1 else if token.isClose then depth - 1 else depth
      (splitClose? inner rest).map fun (content, after) => (token :: content, after)

/-- The content of the parentheses at the head of a list, and what follows them. -/
def parenthesized? : List Token → Option (List Token × List Token)
  | [] => none
  | token :: rest => if token.isOpen then splitClose? 0 rest else none

/-- The list starts with `##`. -/
def startsWithPaste : List Token → Bool
  | [] => false
  | token :: _ => token.isPaste

/-- The operation for `##` with `operand :: rest` after it, and what follows the operation. -/
def readPaste (p : Parameters) (paste operand : Token) (rest : List Token) : Operation × List Token :=
  match p.indexOf? operand with
  | some position => (.pasteArgument paste position, rest)
  | none =>
    match if p.isOptional operand then parenthesized? rest else none with
    | some (content, after) => (.pasteOptional paste content, after)
    | none => (.pasteToken paste operand, rest)

/-- The operation for a token that is neither `#` nor `##`, and what follows the operation. -/
def readOperand (p : Parameters) (token : Token) (rest : List Token) : Operation × List Token :=
  let position? := p.indexOf? token
  match if startsWithPaste rest then position? else none with
  | some position => (.leftOperand token position, rest)
  | none =>
    if p.isOptional token then
      match parenthesized? rest with
      | some (content, after) => (.optional token content (startsWithPaste after), after)
      | none => (.copy token, rest)
    else
      match position? with
      | some position => (.argument token position, rest)
      | none => (.copy token, rest)

/-- The string operation for `#` before a parameter, and what follows it. -/
def readString? (p : Parameters) (token : Token) : List Token → Option (Operation × List Token)
  | [] => none
  | next :: rest =>
    if token.isHash then
      (p.indexOf? next).map fun position => (.stringize token position, rest)
    else
      none

/-- The operation for a comma before `##` and the variable arguments, and what follows it. -/
def readComma? (p : Parameters) (token : Token) : List Token → Option (Operation × List Token)
  | paste :: next :: rest =>
    if token.isPunctuator [','] && paste.isPaste && p.isVariadicAt next then
      some (.comma token p.named.length, next :: rest)
    else
      none
  | _ => none

/-- The operation at the head of `token :: rest`, and what follows it. -/
def read (p : Parameters) (token : Token) (rest : List Token) : Operation × List Token :=
  match readString? p token rest with
  | some found => found
  | none =>
    match readComma? p token rest with
    | some found => found
    | none =>
      match rest with
      | operand :: after =>
        if token.isPaste then readPaste p token operand after else readOperand p token rest
      | [] => readOperand p token rest

/-- The part of the list that an operation carries along. -/
def content : Operation → List Token
  | pasteOptional _ content => content
  | optional _ content _ => content
  | _ => []

theorem length_splitClose? {depth : Nat} {tokens content after : List Token}
    (found : splitClose? depth tokens = some (content, after)) :
    content.length + after.length < tokens.length := by
  induction tokens generalizing depth content after with
  | nil => simp [splitClose?] at found
  | cons token rest ih =>
    rw [splitClose?] at found
    split at found
    · cases found
      simp
    · obtain ⟨⟨c, a⟩, split, same⟩ := Option.map_eq_some_iff.mp found
      cases same
      have := ih split
      simp only [List.length_cons]
      omega

theorem length_parenthesized? {tokens content after : List Token}
    (found : parenthesized? tokens = some (content, after)) :
    content.length + after.length < tokens.length := by
  match tokens with
  | [] => simp [parenthesized?] at found
  | token :: rest =>
    rw [parenthesized?] at found
    split at found
    · have := length_splitClose? found
      simp only [List.length_cons]
      omega
    · cases found

theorem length_readPaste (p : Parameters) (paste operand : Token) (rest : List Token) :
    (readPaste p paste operand rest).2.length ≤ rest.length
      ∧ (readPaste p paste operand rest).1.content.length ≤ rest.length := by
  unfold readPaste
  split
  · simp [content]
  · split
    · rename_i found
      split at found
      · have := length_parenthesized? found
        simp only [content]
        omega
      · cases found
    · simp [content]

theorem length_readOperand (p : Parameters) (token : Token) (rest : List Token) :
    (readOperand p token rest).2.length ≤ rest.length
      ∧ (readOperand p token rest).1.content.length ≤ rest.length := by
  unfold readOperand
  simp only []
  split
  · simp [content]
  · split
    · split
      · rename_i found
        have := length_parenthesized? found
        simp only [content]
        omega
      · simp [content]
    · split <;> simp [content]

/-- An operation takes its token at least, and a part it carries along is shorter than the list. -/
theorem length_read (p : Parameters) (token : Token) (rest : List Token) :
    (read p token rest).2.length ≤ rest.length
      ∧ (read p token rest).1.content.length ≤ rest.length := by
  unfold read
  split
  · rename_i found
    cases rest with
    | nil => cases found
    | cons next rest =>
      rw [readString?] at found
      split at found
      · obtain ⟨position, _, rfl⟩ := Option.map_eq_some_iff.mp found
        simp [content]
      · cases found
  · split
    · rename_i found
      rcases rest with _ | ⟨paste, _ | ⟨next, rest⟩⟩
      · cases found
      · cases found
      · rw [readComma?] at found
        split at found
        · cases found
          simp [content]
        · cases found
    · cases rest with
      | nil => exact length_readOperand p token []
      | cons operand after =>
        simp only []
        split
        · have := length_readPaste p token operand after
          simp only [List.length_cons]
          omega
        · exact length_readOperand p token _

end Operation

/-- An argument of a call: its tokens as written, and their expansion, which may report problems and
count. -/
structure Argument where
  tokens : List Token
  expand : Expansion.State → List Token × Expansion.State

/-- The state of a substitution that is under way. -/
structure Substitution where
  /-- The tokens produced so far, the latest first. -/
  produced : List Token := []
  /-- The left operand of the `##` that comes next is empty; the value says whether a blank stood
  before it. -/
  placemarker : Option Bool := none
  /-- The arguments that are expanded already. -/
  expanded : List (Nat × List Token) := []
  state : Expansion.State

namespace Substitution

/-- The tokens produced, in order. -/
def result (s : Substitution) : List Token :=
  s.produced.reverse

/-- Produce some tokens. -/
def emit (s : Substitution) (tokens : List Token) : Substitution :=
  { s with produced := tokens.reverse ++ s.produced, placemarker := none }

/-- The tokens with the given white space before the first one. -/
def spaced (afterSpace : Bool) : List Token → List Token
  | [] => []
  | token :: rest => token.withSpace afterSpace :: rest

/-- The spelling of an argument: its lexemes, with one blank wherever white space stood between two
of them. -/
def spelling (spell : Token → Text) : List Token → Text
  | [] => []
  | token :: rest =>
    spell token ++ rest.flatMap fun t => (if t.afterSpace then [' '] else []) ++ spell t

/-- A lexeme inside a string made by `#`: strings and characters keep their quotes and backslashes by
escaping them. -/
def stringLexeme (token : Token) : Text :=
  if token.kind = .string || token.kind = .character then
    Spelling.escape token.lexeme
  else
    token.lexeme

/-- The string that `#` makes of an argument. -/
def stringize (hash : Token) (argument : List Token) : Token :=
  let blank : Token :=
    { kind := .string, lexeme := '"' :: spelling stringLexeme argument ++ ['"'] }
  (blank.placedAt hash).withSpace hash.afterSpace

/-- The token that two tokens make when they are pasted together: their lexemes must form exactly
one token without an error. It stands where the left one stands. -/
def pasted? (language : Language) (left right : Token) : Option Token :=
  let lexeme := left.lexeme ++ right.lexeme
  match tokenize lexeme (some left.file) language with
  | .ok [token, _] =>
    if token.error.isNone && token.lexeme == lexeme then
      some { left with kind := token.kind, lexeme, verbatim := false, error := none }
    else
      none
  | _ => none

/-- Paste two tokens, or report that they cannot be pasted and keep both. -/
def paste (language : Language) (left right : Token) (state : Expansion.State) :
    List Token × Expansion.State :=
  match pasted? language left right with
  | some token => ([token], state)
  | none =>
    let detail :=
      '\'' :: left.lexeme ++ "' and '".toList ++ right.lexeme ++ ['\'']
    ([left, right], state.report left .illegalPastedToken detail)

/-- Paste some tokens to what was produced last. Nothing to paste leaves all as it is; without a left
operand the tokens stand for themselves. -/
def pasteOn (language : Language) (s : Substitution) (hash : Token) : List Token → Substitution
  | [] => s
  | right :: rest =>
    match s.placemarker, s.produced with
    | some afterSpace, _ => s.emit (spaced afterSpace (right :: rest))
    | none, [] => s.emit (spaced hash.afterSpace (right :: rest))
    | none, left :: earlier =>
      let (tokens, state) := paste language left right s.state
      { s with produced := rest.reverse ++ tokens.reverse ++ earlier, state }

/-- The tokens of an argument as written. -/
def written (args : List Argument) (position : Nat) : List Token :=
  (args[position]?.map Argument.tokens).getD []

/-- The tokens of an argument, expanded. -/
def expandArgument (args : List Argument) (s : Substitution) (position : Nat) :
    List Token × Substitution :=
  match s.expanded.lookup position with
  | some tokens => (tokens, s)
  | none =>
    match args[position]? with
    | none => ([], s)
    | some argument =>
      let (tokens, state) := argument.expand s.state
      (tokens, { s with expanded := (position, tokens) :: s.expanded, state })

/-- The variable arguments are not empty. -/
def hasVariable (args : List Argument) : Bool :=
  args.getLast?.any (·.tokens ≠ [])

/-- The state in which an inner substitution starts. -/
def inner (s : Substitution) : Substitution :=
  { expanded := s.expanded, state := s.state }

/-- Carry out one operation. `content` is what the part that it carries along was substituted by. -/
def apply (language : Language) (args : List Argument) (s : Substitution) (content : List Token) :
    Operation → Substitution
  | .copy token => s.emit [token]
  | .argument token position =>
    let (tokens, s) := expandArgument args s position
    s.emit (spaced token.afterSpace tokens)
  | .leftOperand token position =>
    let tokens := written args position
    if tokens = [] then
      { s with placemarker := some token.afterSpace }
    else
      s.emit (spaced token.afterSpace tokens)
  | .stringize hash position => s.emit [stringize hash (written args position)]
  | .comma token position => s.emit (if written args position = [] then [] else [token])
  | .pasteArgument paste position => pasteOn language s paste (written args position)
  | .pasteOptional paste _ => pasteOn language s paste content
  | .pasteToken paste token => pasteOn language s paste [token]
  | .optional token _ beforePaste =>
    if content = [] && beforePaste then
      { s with placemarker := some token.afterSpace }
    else
      s.emit (spaced token.afterSpace content)

/-- Substitute the arguments of a call in a replacement list. An optional part is substituted only if
there are variable arguments. -/
def run (language : Language) (p : Parameters) (args : List Argument) :
    List Token → Substitution → Substitution
  | [], s => s
  | token :: rest, s =>
    let head := Operation.read p token rest
    let content := if hasVariable args then run language p args head.1.content s.inner else s.inner
    let s := { s with expanded := content.expanded, state := content.state }
    run language p args head.2 (s.apply language args content.result head.1)
  termination_by tokens => tokens.length
  decreasing_by
    · exact Nat.lt_succ_of_le (Operation.length_read _ token rest).2
    · exact Nat.lt_succ_of_le (Operation.length_read _ token rest).1

end Substitution

end CPreprocessor
