import Caret.Builder.Expression
import Caret.Grammar.Statement
/-!
# Building statements

The builders follow `parse_statement` and the functions that it calls.
-/

namespace Caret.Builder

open Caret.Grammar (continuesBlock startsLocal)

/-! ## Declared names -/

/-- One declared name with its initializer (`parse_variable_declarator`). -/
def declarator (expression : Builder Ref) : Builder Ref := node .variableDeclarator do
  let name ← expect .identifier
  let initializer ← ifNext (· == .equals)
    (do
      let _ ← token
      expression)
    (return none)
  return .declarator ⟨name, initializer⟩

def declarators (expression : Builder Ref) : Builder (List Ref) :=
  separated (fun _ => true) (listed (declarator expression))

/-! ## Parts of statements -/

/-- Statements in braces (`parse_block`). -/
def block (statement : Builder Ref) : Builder Ref := node .block do
  let _ ← expect .openBrace
  let statements ← many continuesBlock (orSkip statement .expectedStatement)
  let _ ← expect .closeBrace
  return .list statements

/-- The condition of an `if` or `while`, which is no part that is kept (`parse_condition`). -/
def condition (expression : Builder Ref) : Builder Unit := do
  let _ ← expect .openParen
  let _ ← ifNext (· == .closeParen) (return none) expression
  let _ ← expect .closeParen

def localDeclaration (expression : Builder Ref) : Builder Ref := node .localDeclarationStatement do
  let type ← typeReference
  let names ← declarators expression
  let _ ← expect .semicolon
  return .variableList ⟨none, none, type, names⟩

def returnStatement (expression : Builder Ref) : Builder Ref := node .returnStatement do
  let _ ← expect .returnKeyword
  let value ← ifNext (· == .semicolon) (return none) expression
  let _ ← expect .semicolon
  return .wrapped value

def ifStatement (expression statement : Builder Ref) : Builder Ref := node .ifStatement do
  let _ ← expect .ifKeyword
  condition expression
  let _ ← statement
  let _ ← ifNext (· == .elseKeyword)
    (node .elseClause do
      let _ ← token
      let _ ← statement
      return .none)
    (return none)
  return .none

def whileStatement (expression statement : Builder Ref) : Builder Ref := node .whileStatement do
  let _ ← expect .whileKeyword
  condition expression
  let _ ← statement
  return .none

/-- An expression as a statement; where no token is read there is none
(`parse_expression_statement`). -/
def expressionStatement (expression : Builder Ref) : Builder Ref := do
  let m ← start
  let before ← unread
  let found ← expression
  let after ← unread
  if found.isNone && after == before then return none
  else close m .expressionStatement do
    let _ ← expect .semicolon
    return .wrapped found

/-! ## Nesting -/

/-- A statement that may open `depth` levels, its own included. -/
def statement : (depth : Nat) → Builder Ref
  | 0 => missing .nestingTooDeep
  | depth + 1 => look fun c =>
    match c.kind with
    | .openBrace => block (statement depth)
    | .returnKeyword => returnStatement (expression depth)
    | .ifKeyword => ifStatement (expression depth) (statement depth)
    | .whileKeyword => whileStatement (expression depth) (statement depth)
    | .semicolon => single .emptyStatement
    | .closeBrace | .endOfFile => return none
    | _ =>
      if startsLocal c then localDeclaration (expression depth)
      else expressionStatement (expression depth)

end Caret.Builder
