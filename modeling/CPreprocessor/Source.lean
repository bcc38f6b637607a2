/-
# Sources

A source is a text in logical characters together with the physical place of
each of them. It is what the lexer reads.
-/
import CPreprocessor.Source.Encoding
import CPreprocessor.Source.Normalization

namespace CPreprocessor

/-- Why a source cannot be read. -/
inductive SourceError where
  /-- The bytes of the named source are not text in the encoding they announce. -/
  | undecodable (cause : EncodingError) (name : Text)
  /-- The path names a directory. -/
  | isDirectory (path : Text)
  /-- There is no file to open at the path. -/
  | cannotOpen (path : Text)
  deriving DecidableEq, Repr

namespace SourceError

/-- What is wrong with a source, with its whole name. -/
def wording : SourceError → Text
  | .undecodable cause name =>
    "cannot decode UTF-16 source file (".toList ++ cause.message ++ "): ".toList ++ name
  | .isDirectory path => "cannot read source file: ".toList ++ path ++ " is a directory".toList
  | .cannotOpen path => "cannot open source file: ".toList ++ path

/-- The message for a source that cannot be read. A zero byte in the name ends it. -/
def message (error : SourceError) : Text :=
  Text.beforeNul error.wording

end SourceError

/-- A text in logical characters, with the physical place of each. -/
structure Source where
  /-- The logical characters. -/
  text : Text
  /-- The place of each logical character, in order. -/
  places : Array Position
  /-- The place where the physical text ends. -/
  finish : Position
  deriving Inhabited

namespace Source

/-- The place of the logical character at an index; from the last character on, the end of
the physical text. -/
def place (source : Source) (index : Nat) : Position :=
  source.places[index]?.getD source.finish

/-- The position that is reported for an index. -/
def position (source : Source) (index : Nat) : Position :=
  (source.place index).reported

/-- A decoded text as a source. -/
def ofDecoded (trigraphs : Bool) (decoded : Text) : Source :=
  let (located, finish) := Normalization.characters trigraphs {} decoded
  ⟨located.map Prod.fst, (located.map Prod.snd).toArray, finish⟩

/-- The source that raw bytes hold. The name appears in messages only. -/
def ofBytes (raw name : Text) (trigraphs : Bool) : Except SourceError Source :=
  match Encoding.decode raw with
  | .ok decoded => .ok (ofDecoded trigraphs decoded)
  | .error cause => .error (.undecodable cause name)

end Source

end CPreprocessor
