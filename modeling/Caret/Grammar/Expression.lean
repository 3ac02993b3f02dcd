import Caret.Grammar.Name
/-!
# Expressions

Binary operators are read level by level, the loosest first: a level is a chain of the next
tighter level, grouped to the left. `parse_binary_expression` climbs over precedences instead, which
comes to the same. An operand that is missing leaves its slot empty; the operator is still in the
tree.

| function | read here by |
| --- | --- |
| `parse_expression` | `assignment` |
| `parse_binary_expression`, `parse_unary_expression` | `binary`, `Nesting.operand` |
| `parse_postfix_expression`, `parse_primary_expression` | `suffixed`, `primary` |
| `parse_object_creation_expression`, `parse_argument_list` | `objectCreation`, `argumentList` |

Assignments, operands of signs, parentheses and arguments nest. How deep they may nest is counted
down in `Nesting`: a parser for some depth is made from the parsers for one less.
-/

namespace Caret.Grammar

open Caret.Parser

/-- How deep expressions and statements may nest. -/
def nestingLimit : Nat := 256

/-! ## Parts of expressions -/

def identifierName : Parser := node .identifierName take

def isArgumentModifier : TokenKind → Bool
  | .refKeyword | .outKeyword | .inKeyword => true
  | _ => false

def argumentList (expression : Parser) : Parser :=
  node .argumentList (
    expect .openParen ++
    separated (fun k => k != .closeParen && k != .endOfFile)
      (ifNext isArgumentModifier take nothing ++ expression.into .item) ++
    expect .closeParen)

def optionalArguments (expression : Parser) : Parser :=
  ifNext (· == .openParen) ((argumentList expression).into .arguments) nothing

/-- The creation of an object, `new T(…)`. -/
def objectCreation (expression : Parser) : Parser :=
  node .objectCreationExpression (
    expect .newKeyword ++
    ifNext startsType (typeReference.into .expression) (report .expectedType) ++
    optionalArguments expression)

def parenthesized (expression : Parser) : Parser :=
  node .parenthesizedExpression (take ++ expression.into .expression ++ expect .closeParen)

/-- An expression without operators, calls and accesses. -/
def primary (expression : Parser) : Parser := look fun c =>
  match c.kind with
  | .identifier | .boolKeyword | .doubleKeyword | .intKeyword | .objectKeyword
  | .stringKeyword => identifierName
  | .thisKeyword => node .thisExpression take
  | .baseKeyword => node .baseExpression take
  | .numericLiteral | .stringLiteral | .trueKeyword | .falseKeyword | .nullKeyword =>
    node .literalExpression take
  | .openParen => parenthesized expression
  | .newKeyword => objectCreation expression
  | _ => report .expectedExpression

/-! ## Operators -/

/-- How a primary expression goes on: with an access to a member or with a call. -/
def suffix (expression : Parser) (c : Cursor) : Option Extension :=
  match c.kind with
  | .dot => some ⟨.memberAccessExpression, .left, take.into .operator ++
      ifNext (· == .identifier) (identifierName.into .right) (report .expectedMemberName)⟩
  | .openParen => some ⟨.invocationExpression, .expression,
      (argumentList expression).into .arguments⟩
  | _ => none

/-- A primary expression with all its accesses and calls. -/
def suffixed (expression : Parser) : Parser :=
  (primary expression).read fun start left => look fun c =>
    if left.isEmpty then nothing else extend (suffix expression) start c.rest left

/-- How an operand goes on: with an operator of the given precedence. -/
def operation (precedence : Nat) (operand : Parser) (c : Cursor) : Option Extension :=
  if c.kind.precedence? == some precedence then
    some ⟨.binaryExpression, .left, take.into .operator ++ operand.into .right⟩
  else none

def level (precedence : Nat) (operand : Parser) : Parser :=
  operand.extended (operation precedence operand)

/-- Operands with binary operators between them. -/
def binary (operand : Parser) : Parser :=
  level 1 (level 2 (level 3 (level 4 (level 5 (level 6 operand)))))

/-- An operand with binary operators, or the assignment of `value` to it. -/
def assignment (operand value : Parser) : Parser :=
  (binary operand).read fun start left =>
    ifNext TokenKind.isAssignment
      (enlarge ⟨.assignmentExpression, .left, take.into .operator ++ value.into .right⟩ start left)
      (emit left)

def signed (operand : Parser) : Parser :=
  node .prefixUnaryExpression (take.into .operator ++ operand.into .right)

/-! ## Nesting -/

/-- The parsers for what may stand at some depth. -/
structure Nesting where
  /-- An expression, assignments included. -/
  expression : Parser
  /-- An operand of a binary operator, with its signs. -/
  operand : Parser

def Nesting.deepest : Nesting where
  expression := report .nestingTooDeep
  operand := ifNext TokenKind.isSign (report .nestingTooDeep)
    (suffixed (report .nestingTooDeep))

def Nesting.above (inner : Nesting) : Nesting :=
  let expression := assignment inner.operand inner.expression
  { expression
    operand := ifNext TokenKind.isSign (signed inner.operand) (suffixed expression) }

/-- The parsers where `depth` levels may still be opened. -/
def Nesting.of : (depth : Nat) → Nesting
  | 0 => .deepest
  | n + 1 => (Nesting.of n).above

-- by rewriting: `rfl` would compare the parsers down to their tests

theorem Nesting.above_expression (inner : Nesting) :
    inner.above.expression = assignment inner.operand inner.expression := by rw [above]

theorem Nesting.above_operand (inner : Nesting) : inner.above.operand =
    ifNext TokenKind.isSign (signed inner.operand) (suffixed inner.above.expression) := by
  rw [above]

theorem Nesting.of_zero_operand : (of 0).operand =
    ifNext TokenKind.isSign (report .nestingTooDeep) (suffixed (report .nestingTooDeep)) := by
  rw [of, deepest]

theorem Nesting.of_succ_expression (n : Nat) :
    (of (n + 1)).expression = assignment (of n).operand (of n).expression := by
  rw [of, above_expression]

theorem Nesting.of_succ_operand (n : Nat) : (of (n + 1)).operand =
    ifNext TokenKind.isSign (signed (of n).operand) (suffixed (of (n + 1)).expression) := by
  rw [of, above_operand]

/-- An expression that may open `depth` levels. -/
def expression (depth : Nat) : Parser := (Nesting.of depth).expression

def arrowClause (expression : Parser) : Parser :=
  node .arrowExpressionClause (expect .equalsGreater ++ expression.into .expression)

end Caret.Grammar
