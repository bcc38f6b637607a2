/-
# Expansion step by step

`Expansion.expandAll` is a recursive function whose recursion has been justified
beforehand. This module gives the same algorithm as a machine that knows nothing
about why it ends: a step takes one token from the front of the input, or one
operation of a replacement list, or hands a finished list back to the task that
waits for it. Results are put back in front of the input and scanned again,
arguments are expanded by an inner run of the same machine, and the tokens of a
call that fails are put back one and all.
-/
import Mathlib.Logic.Function.Iterate
import CPreprocessor.Macro.Expansion

namespace CPreprocessor.Expansion

/-- The argument list of a call while it is read. All lists grow at their front. -/
structure Collection where
  called : Macro
  parameters : Parameters
  /-- The name of the macro where it is called. -/
  site : Token
  /-- Every token read after the name. -/
  consumed : List Token
  /-- The arguments that are complete. -/
  pieces : List (List Token) := []
  /-- The argument that is being read. -/
  piece : List Token := []
  /-- The number of parentheses that are open inside the outer ones. -/
  depth : Nat := 0

namespace Collection

/-- A comma outside inner parentheses ends an argument, unless the variable arguments have
begun. -/
def separates (c : Collection) (token : Token) : Bool :=
  c.depth = 0 && token.isPunctuator [',']
    && !(c.parameters.variadic.isSome && c.parameters.named.length ≤ c.pieces.length)

/-- The collection after a token that ends an argument. -/
def endPiece (c : Collection) (token : Token) : Collection :=
  { c with consumed := token :: c.consumed, pieces := c.piece.reverse :: c.pieces, piece := [] }

/-- The collection after a token that belongs to the present argument. -/
def extend (c : Collection) (token : Token) : Collection :=
  { c with
    consumed := token :: c.consumed
    piece := token :: c.piece
    depth :=
      if token.isOpen then c.depth + 1 else if token.isClose then c.depth - 1 else c.depth }

/-- The arguments read so far, in order. -/
def all (c : Collection) : List (List Token) :=
  (c.piece.reverse :: c.pieces).reverse

end Collection

/-- A call whose replacement list is being worked through. -/
structure Rewriting where
  call : Call
  /-- What is left of the replacement list, or of the optional part of it that is being read. -/
  body : List Token
  work : Substitution
  /-- The optional parts around the present one: what asked for them, what follows them, and how far
  the work had come before them. -/
  outer : List (Operation × List Token × Substitution) := []

/-- What one run of the machine is at. `given` holds what it has given so far, the latest first. -/
inductive Task where
  | scan (given tokens : List Token) (state : State)
  | collect (given : List Token) (c : Collection) (tokens : List Token) (state : State)
  | rewrite (given : List Token) (w : Rewriting)

/-- A task that waits for one of its arguments to be expanded. -/
structure Waiting where
  given : List Token
  rewriting : Rewriting
  position : Nat

/-- The machine: a task with those that wait for it, or the result of the outermost one. -/
inductive Machine where
  | running (task : Task) (waiting : List Waiting)
  | halted (tokens : List Token) (state : State)

namespace Machine

/-- The machine before its first step. -/
def start (tokens : List Token) (state : State) : Machine :=
  .running (.scan [] tokens state) []

/-- The arguments of a call without their expansions. -/
def written (c : Call) : List Argument :=
  c.arguments.map fun tokens => { tokens, expand := fun state => ([], state) }

/-- Hand an expanded list to the task that waits for it. -/
def handBack (tokens : List Token) (state : State) : List Waiting → Machine
  | [] => .halted tokens state
  | w :: waiting =>
    let expanded := (w.position, tokens) :: w.rewriting.work.expanded
    .running
      (.rewrite w.given { w.rewriting with work := { w.rewriting.work with expanded, state } })
      waiting

/-- Begin to replace a call. -/
def replace (given : List Token) (call : Call) (state : State) : Task :=
  .rewrite given { call, body := call.called.body, work := { state } }

/-- Scan the first token of the input. -/
def scan (ctx : Context) (given : List Token) (token : Token) (rest : List Token)
    (state : State) : Task :=
  match Head.called? ctx.table token with
  | none => .scan (token :: given) rest state
  | some m =>
    match m.replacement with
    | .builtin kind =>
      let done := expandBuiltin ctx kind token state
      .scan (done.1 :: given) rest done.2
    | .object _ =>
      let hidden := token.hideSet.union [m.name]
      replace given { called := m, site := token, arguments := [], hidden, rest } state
    | .function parameters _ =>
      match rest with
      | [] => .scan (token :: given) [] state
      | opening :: inner =>
        if opening.isOpen then
          let c : Collection := { called := m, parameters, site := token, consumed := [opening] }
          .collect given c inner state
        else
          .scan (token :: given) (opening :: inner) state

/-- Give up a call: its name stays, and all that was read after it is put back. -/
def giveUp (given : List Token) (c : Collection) (code : Code) (tokens : List Token)
    (state : State) : Task :=
  .scan (c.site :: given) (c.consumed.reverse ++ tokens)
    (state.report c.site code c.site.lexeme)

/-- Read the first token after those of a call. -/
def collect (given : List Token) (c : Collection) (tokens : List Token) (state : State) : Task :=
  match tokens with
  | [] => giveUp given c .mismatchedParens [] state
  | token :: rest =>
    if token.isEnd then
      giveUp given c .mismatchedParens (token :: rest) state
    else if c.depth = 0 && token.isClose then
      match Arguments.fit c.parameters c.all with
      | .error code => giveUp given c code (token :: rest) state
      | .ok arguments =>
        let hidden := (c.site.hideSet.inter token.hideSet).union [c.called.name]
        replace given { called := c.called, site := c.site, arguments, hidden, rest } state
    else if c.separates token then
      .collect given (c.endPiece token) rest state
    else
      .collect given (c.extend token) rest state

/-- The argument that an operation needs and that is not expanded yet. -/
def missing? (c : Call) (work : Substitution) : Operation → Option (Nat × List Token)
  | .argument _ position =>
    if (work.expanded.lookup position).isNone then
      c.arguments[position]?.map fun tokens => (position, tokens)
    else
      none
  | _ => none

/-- Carry out an operation with what its optional part was substituted by, and go on after it. -/
def carryOut (ctx : Context) (w : Rewriting) (operation : Operation) (content after : List Token) :
    Rewriting :=
  { w with
    body := after
    work := w.work.apply ctx.language (written w.call) content operation }

/-- Go on with the replacement list of a call. An operation first gets the argument that it needs, or
the optional part that it carries along. -/
def rewrite (ctx : Context) (given : List Token) (w : Rewriting) (waiting : List Waiting) :
    Machine :=
  match w.body, w.outer with
  | token :: rest, _ =>
    let head := Operation.read w.call.called.parameters token rest
    match missing? w.call w.work head.1 with
    | some (position, argument) =>
      .running (.scan [] argument w.work.state) (⟨given, w, position⟩ :: waiting)
    | none =>
      if Substitution.hasVariable (written w.call) && head.1.content ≠ [] then
        let outer := (head.1, head.2, w.work) :: w.outer
        .running (.rewrite given { w with body := head.1.content, work := w.work.inner, outer })
          waiting
      else
        .running (.rewrite given (carryOut ctx w head.1 [] head.2)) waiting
  | [], (operation, after, before) :: outer =>
    let work := { before with expanded := w.work.expanded, state := w.work.state }
    .running
      (.rewrite given (carryOut ctx { w with work, outer } operation w.work.result after))
      waiting
  | [], [] =>
    .running
      (.scan given (replacement w.call.site w.call.hidden w.work.result ++ w.call.rest)
        w.work.state)
      waiting

/-- One step. A machine that has halted stays as it is. -/
def step (ctx : Context) : Machine → Machine
  | .halted tokens state => .halted tokens state
  | .running (.scan given [] state) waiting => handBack given.reverse state waiting
  | .running (.scan given (token :: rest) state) waiting =>
    if token.isEnd then handBack given.reverse state waiting
    else .running (scan ctx given token rest state) waiting
  | .running (.collect given c tokens state) waiting =>
    .running (collect given c tokens state) waiting
  | .running (.rewrite given w) waiting => rewrite ctx given w waiting

end Machine

end CPreprocessor.Expansion
