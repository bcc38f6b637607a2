/-
# The macro table

The table holds the macros that are defined, one for each name, and the
definitions that were set aside to be restored later.
-/
import CPreprocessor.Macro

namespace CPreprocessor

/-- The defined macros, and the definitions set aside. -/
structure MacroTable where
  /-- At most one macro for each name. -/
  macros : List Macro := []
  /-- The definitions set aside under each name, the latest first; a name that had none is set
  aside as well. -/
  saved : List (Text × Option Macro) := []

instance : Inhabited MacroTable := ⟨{}⟩

namespace MacroTable

/-- What a definition did to the table. -/
inductive DefineOutcome where
  | inserted
  /-- The same definition was there, and stays. -/
  | identical
  /-- Another definition was there, and is replaced. -/
  | redefined
  deriving DecidableEq, Repr

/-- The macro of a name. -/
def find? (table : MacroTable) (name : Text) : Option Macro :=
  table.macros.find? (·.name == name)

/-- The macro that a token names. -/
def findToken? (table : MacroTable) (token : Token) : Option Macro :=
  if token.isName then table.find? token.lexeme else none

/-- A name has a macro. -/
def isDefined (table : MacroTable) (name : Text) : Bool :=
  (table.find? name).isSome

/-- The table without the macro of a name. -/
def erase (table : MacroTable) (name : Text) : MacroTable :=
  { table with macros := table.macros.filter (·.name != name) }

/-- The table with a macro in place of any other of its name. -/
def insert (table : MacroTable) (m : Macro) : MacroTable :=
  { table with macros := m :: (table.erase m.name).macros }

/-- Define a macro. -/
def define (table : MacroTable) (m : Macro) : DefineOutcome × MacroTable :=
  match table.find? m.name with
  | none => (.inserted, table.insert m)
  | some old => if old.sameDefinition m then (.identical, table) else (.redefined, table.insert m)

/-- Remove the macro of a name, and say whether there was one. -/
def undefine (table : MacroTable) (name : Text) : Bool × MacroTable :=
  (table.isDefined name, table.erase name)

/-- The number of macros. -/
def size (table : MacroTable) : Nat :=
  table.macros.length

/-- The names of the macros, in the order of their bytes. -/
def names (table : MacroTable) : List Text :=
  (table.macros.map Macro.name).mergeSort Text.le

/-- Set the present definition of a name aside, or that it has none. -/
def push (table : MacroTable) (name : Text) : MacroTable :=
  { table with saved := (name, table.find? name) :: table.saved }

/-- Restore the definition of a name that was set aside last, and say whether there was one. -/
def pop (table : MacroTable) (name : Text) : Bool × MacroTable :=
  match table.saved.find? (·.1 == name) with
  | none => (false, table)
  | some (_, definition) =>
    let rest := { table with saved := table.saved.eraseP (·.1 == name) }
    match definition with
    | some m => (true, rest.insert { m with name })
    | none => (true, rest.erase name)

/-- The table with the builtin macros. A builtin macro replaces another one of its name. -/
def addBuiltins (table : MacroTable) : MacroTable :=
  Builtin.all.foldl
    (fun table kind => (table.define { name := kind.name, replacement := .builtin kind }).2) table

/-- A macro that is found has the name it was looked up by. -/
theorem name_of_find? {table : MacroTable} {name : Text} {m : Macro}
    (found : table.find? name = some m) : m.name = name := by
  have := List.find?_some found
  simpa using this

/-- A macro that is found is one of the table. -/
theorem mem_of_find? {table : MacroTable} {name : Text} {m : Macro}
    (found : table.find? name = some m) : m ∈ table.macros :=
  List.mem_of_find?_eq_some found

end MacroTable

end CPreprocessor
