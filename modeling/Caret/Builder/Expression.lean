import Caret.Builder.Basic
import Caret.Grammar.Expression
/-!
# Building names and expressions

The builders follow the functions of the parser one by one (`parse_type`, `parse_expression` and
those that they call). Binary operators are read by precedence climbing: an operand goes on as long
as the next operator binds tighter than the one before it. How deep expressions may nest is counted
down as in `Caret.Grammar.Nesting`.
-/

namespace Caret.Builder

open Caret.Grammar (startsType dotNameAt isArgumentModifier)

/-! ## Names -/

/-- The last name of a qualified name, of whose further parts at most so many are read. -/
def dottedAtMost : Nat → (name : Ref) → Builder Ref
  | 0, name => return name
  | n + 1, name => look fun c =>
    if dotNameAt c 0 then do
      let _ ← token
      let name ← token
      dottedAtMost n name
    else return name

def dotted (name : Ref) : Builder Ref := look fun c => dottedAtMost (c.rest.length - 1) name

/-- A qualified name, for which its last name stands (`parse_qualified_name`). -/
def qualifiedName : Builder Ref := do
  let name ← expect .identifier
  dotted name

/-- Reads the brackets of an array type, and tells whether there are any. -/
def arrayBrackets : Builder Bool := look fun c =>
  if c.peek 0 == .openBracket && c.peek 1 == .closeBracket then do
    let _ ← token
    let _ ← token
    return true
  else return false

def typeParts (name : Ref) : Builder Data := do
  let isArray ← arrayBrackets
  return .typeReference ⟨name, isArray⟩

/-- A type reference (`parse_type`). -/
def typeReference : Builder Ref := look fun c =>
  if c.kind.isPredefinedType then
    node .typeReference do
      let name ← token
      typeParts name
  else if c.kind == .identifier then
    node .typeReference do
      let first ← token
      let name ← dotted first
      typeParts name
  else missing .expectedType

/-! ## Parts of expressions -/

def single (kind : NodeKind) : Builder Ref := node kind do
  let _ ← token
  return .none

/-- A list of arguments in parentheses (`parse_argument_list`). -/
def argumentList (expression : Builder Ref) : Builder Ref := node .argumentList do
  let _ ← expect .openParen
  let arguments ← separated (fun k => k != .closeParen && k != .endOfFile) do
    let _ ← ifNext isArgumentModifier token (return none)
    kept expression
  let _ ← expect .closeParen
  return .list arguments

def optionalArguments (expression : Builder Ref) : Builder Ref :=
  ifNext (· == .openParen) (argumentList expression) (return none)

/-- The creation of an object (`parse_object_creation_expression`). -/
def objectCreation (expression : Builder Ref) : Builder Ref := node .objectCreationExpression do
  let _ ← expect .newKeyword
  let type ← ifNext startsType typeReference (missing .expectedType)
  let arguments ← optionalArguments expression
  return .call ⟨type, arguments⟩

def parenthesized (expression : Builder Ref) : Builder Ref := node .parenthesizedExpression do
  let _ ← token
  let inner ← expression
  let _ ← expect .closeParen
  return .wrapped inner

/-- An expression without operators, calls and accesses (`parse_primary_expression`). -/
def primary (expression : Builder Ref) : Builder Ref := look fun c =>
  match c.kind with
  | .identifier | .boolKeyword | .doubleKeyword | .intKeyword | .objectKeyword
  | .stringKeyword => single .identifierName
  | .thisKeyword => single .thisExpression
  | .baseKeyword => single .baseExpression
  | .numericLiteral | .stringLiteral | .trueKeyword | .falseKeyword | .nullKeyword =>
    single .literalExpression
  | .openParen => parenthesized expression
  | .newKeyword => objectCreation expression
  | _ => missing .expectedExpression

/-! ## Operators -/

/-- How a primary expression goes on: with an access to a member or with a call. -/
def suffix (expression : Builder Ref) (c : Cursor) : Option Extension :=
  match c.kind with
  | .dot => some ⟨.memberAccessExpression, fun left => do
      let operator ← token
      let name ← ifNext (· == .identifier) (single .identifierName) (missing .expectedMemberName)
      return .operation ⟨left, operator, name⟩⟩
  | .openParen => some ⟨.invocationExpression, fun left => do
      let arguments ← argumentList expression
      return .call ⟨left, arguments⟩⟩
  | _ => none

/-- A primary expression with all its accesses and calls (`parse_postfix_expression`). -/
def suffixed (expression : Builder Ref) : Builder Ref := do
  let m ← start
  let left ← primary expression
  ifFound left (look fun c => extend (suffix expression) m (c.rest.length - 1) left)

/-- How an operand goes on: with an operator that binds tighter than `least`, and what `operand`
builds behind an operator of some precedence. -/
def operation (least : Nat) (operand : (precedence : Nat) → Builder Ref) (c : Cursor) :
    Option Extension :=
  match c.kind.precedence? with
  | none => none
  | some precedence =>
    if precedence ≤ least then none
    else some ⟨.binaryExpression, fun left => do
      let operator ← token
      let right ← operand precedence
      return .operation ⟨left, operator, right⟩⟩

/-- An operand, and the operators behind it that bind tighter than `least`
(`parse_binary_expression`). Behind an operator only tighter ones are read, so the calls that nest
are no more than there are precedences above `least`. -/
def binary (operand : Builder Ref) : (levels : Nat) → (least : Nat) → Builder Ref
  | 0, _ => operand
  | levels + 1, least => do
    let m ← start
    let left ← operand
    look fun c => extend (operation least (binary operand levels)) m (c.rest.length - 1) left

def precedences : Nat := 6

/-- An operand with binary operators, or the assignment of `value` to it (`parse_expression`). -/
def assignment (operand value : Builder Ref) : Builder Ref := do
  let m ← start
  let left ← binary operand precedences 0
  ifNext TokenKind.isAssignment
    (close m .assignmentExpression do
      let operator ← token
      let right ← value
      return .operation ⟨left, operator, right⟩)
    (return left)

def signed (operand : Builder Ref) : Builder Ref := node .prefixUnaryExpression do
  let operator ← token
  let right ← operand
  return .operation ⟨none, operator, right⟩

/-! ## Nesting -/

/-- The builders for what may stand at some depth. -/
structure Nesting where
  expression : Builder Ref
  /-- An operand of a binary operator, with its signs (`parse_unary_expression`). -/
  operand : Builder Ref

def Nesting.deepest : Nesting where
  expression := missing .nestingTooDeep
  operand := ifNext TokenKind.isSign (missing .nestingTooDeep)
    (suffixed (missing .nestingTooDeep))

def Nesting.above (inner : Nesting) : Nesting :=
  let expression := assignment inner.operand inner.expression
  { expression
    operand := ifNext TokenKind.isSign (signed inner.operand) (suffixed expression) }

/-- The builders where `depth` levels may still be opened. -/
def Nesting.of : (depth : Nat) → Nesting
  | 0 => .deepest
  | n + 1 => (Nesting.of n).above

def expression (depth : Nat) : Builder Ref := (Nesting.of depth).expression

def arrowClause (expression : Builder Ref) : Builder Ref := node .arrowExpressionClause do
  let _ ← expect .equalsGreater
  let inner ← expression
  return .wrapped inner

end Caret.Builder
