import Caret.Text.Span
import Caret.Token.Kind
/-!
# Diagnostics

What was missing or misplaced in a text, and where (`ParseDiagnostic`). Parsing never fails: it
reports problems and goes on.
-/

namespace Caret

/-- What a parser did not find at a token. -/
inductive Problem where
  | expected (kind : TokenKind)
  | expectedDeclaration
  | expectedTypeDeclaration
  | expectedMember
  | expectedMemberName
  | expectedConstructorTarget
  | expectedBody
  | expectedAccessor
  | expectedParameterType
  | expectedType
  | expectedStatement
  | expectedExpression
  | nestingTooDeep
deriving DecidableEq

def Problem.message : Problem → String
  | .expected kind => "expected " ++ kind.name
  | .expectedDeclaration => "expected a namespace or type declaration"
  | .expectedTypeDeclaration => "expected a type declaration"
  | .expectedMember => "expected a member declaration"
  | .expectedMemberName => "expected a member name"
  | .expectedConstructorTarget => "expected 'base' or 'this'"
  | .expectedBody => "expected a body"
  | .expectedAccessor => "expected 'get' or 'set'"
  | .expectedParameterType => "expected a parameter type"
  | .expectedType => "expected a type"
  | .expectedStatement => "expected a statement"
  | .expectedExpression => "expected an expression"
  | .nestingTooDeep => "maximum nesting depth exceeded"

/-- A problem and the token at which it was found. -/
structure Diagnostic where
  span : Span
  problem : Problem
deriving DecidableEq

def Diagnostic.message (d : Diagnostic) : String := d.problem.message

end Caret
