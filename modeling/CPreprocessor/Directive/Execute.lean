/-
# Carrying out directives

Where nothing counts only conditional directives are carried out, since they
decide what counts next.
-/
import CPreprocessor.Directive.Condition
import CPreprocessor.Directive.Define
import CPreprocessor.Directive.Include
import CPreprocessor.Directive.Line
import CPreprocessor.Directive.Pragma

namespace CPreprocessor.Directive

/-- Carry out a directive in a place that counts or that a conditional directive may change. -/
def carryOut (d : Directive) (setup : Setup) (place : Place) (s : Session) : Action × Session :=
  match d.kind with
  | .define => (.nothing, d.define s)
  | .undef => (.nothing, d.undef s)
  | .includeHeader | .includeNext => d.includeHeader setup place s
  | .ifExpression | .ifdef | .ifndef => (.nothing, d.openCondition setup place s)
  | .elif | .elifdef | .elifndef => (.nothing, d.enterFurther setup place s)
  | .elseBranch => (.nothing, d.enterLast place s)
  | .endif => (.nothing, d.closeCondition place s)
  | .error => (.nothing, s.report d.hash .userErrorDirective (Spelling.join d.args))
  | .warning => (.nothing, s.report d.hash .userWarningDirective (Spelling.join d.args))
  | .pragma => d.pragma setup place s
  | .line | .lineMarker => d.presentLine setup place s
  | .null => (.nothing, s)
  | .unknown => (.nothing, s.report d.nameToken .invalidDirective d.title)

/-- Carry out a directive. -/
def execute (d : Directive) (setup : Setup) (place : Place) (s : Session) : Action × Session :=
  if s.conditions.isLive || d.kind.isConditional then
    d.carryOut setup place s
  else
    (.nothing, s)

end CPreprocessor.Directive
