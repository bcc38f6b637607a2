/-
# Include guards

A file is guarded if all of it stands between `#ifndef X` and its `#endif`. Once a
guarded file has been read, it need not be entered again while `X` is defined. The
state of a guard is followed token by token and directive by directive.
-/
import CPreprocessor.Directive

namespace CPreprocessor

/-- What is known so far about the guard of a file. -/
inductive Guard where
  /-- Nothing has been read that could rule a guard out. -/
  | unread
  /-- The file has no guard. -/
  | absent
  /-- What was read is the part of a guard, whose conditional is the given one from the outside. -/
  | inside (name : Text) (depth : Nat)
  /-- The conditional of the guard is closed, and nothing has followed. -/
  | closed (name : Text)
  deriving DecidableEq, Repr

namespace Guard

/-- A token outside of directives has been read. -/
def afterToken : Guard → Guard
  | .unread | .closed _ => .absent
  | guard => guard

/-- The name that a directive at the start of a file guards the file with. -/
def opening? (d : Directive) : Option Text :=
  if d.kind = .ifndef then
    (d.args.head?.filter Token.isName).map Token.lexeme
  else
    none

/-- A directive has been read. The number of open conditionals was `before` and is `after`. -/
def afterDirective (guard : Guard) (d : Directive) (before after : Nat) : Guard :=
  match guard with
  | .unread =>
    match opening? d with
    | some name => if after = before + 1 then .inside name after else .absent
    | none => .absent
  | .inside name depth =>
    if before = depth then
      match d.kind with
      | .elif | .elifdef | .elifndef | .elseBranch => .absent
      | .endif => if after < before then .closed name else guard
      | _ => guard
    else
      guard
  | .closed _ => .absent
  | .absent => .absent

/-- The name of a guard that may still turn out to be one. -/
def name? : Guard → Option Text
  | .inside name _ => some name
  | .closed name => some name
  | _ => none

/-- The name of a guard around a whole file. -/
def complete? : Guard → Option Text
  | .closed name => some name
  | _ => none

end Guard

end CPreprocessor
