/-
# Including headers

`#include` and `#include_next` name a header, directly or through macros. A header
that is found is entered by the reader of the file.
-/
import CPreprocessor.Directive

namespace CPreprocessor.Directive

/-- Find the header that the directive names. -/
def includeHeader (d : Directive) (setup : Setup) (place : Place) (s : Session) : Action × Session :=
  match d.args with
  | [] =>
    (.nothing,
      s.report d.nameToken .invalidIncludePath (d.title ++ " expects a file name".toList))
  | first :: _ =>
    match s.readHeaderName setup place d.args with
    | (none, _, s) => (.nothing, s.report first .invalidIncludePath (Spelling.join d.args))
    | (some name, tokens, s) =>
      let s := match tokens.drop name.consumed with
        | [] => s
        | extra :: _ => s.report extra .extraTokens d.title
      match s.findHeader setup place (d.kind = .includeNext) name with
      | (some header, s) => (.enter header d.hash, s)
      | (none, s) => (.nothing, s.report first .includeNotFound name.spelled)

end CPreprocessor.Directive
