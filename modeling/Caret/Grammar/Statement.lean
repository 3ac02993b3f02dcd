import Caret.Grammar.Expression
/-!
# Statements

What `parse_statement` and the functions that it calls read. A block that is not closed ends before
a token that can only start a declaration, so that what follows is still read as declarations.
Statements nest in blocks, conditions and loops; how deep is counted together with the nesting of
expressions.
-/

namespace Caret.Grammar

open Caret.Parser

/-! ## Declared names -/

def declarator (expression : Parser) : Parser :=
  node .variableDeclarator (
    (expect .identifier).into .name ++
    ifNext (· == .equals) (take ++ expression.into .initializer) nothing)

def declarators (expression : Parser) : Parser :=
  separated (fun _ => true) ((declarator expression).into .declarator)

/-! ## Parts of statements -/

def startsDeclaration (k : TokenKind) : Bool :=
  k.isModifier || k.isTypeKeyword || k == .namespaceKeyword

/-- A token that may stand in a block before its end. -/
def continuesBlock (k : TokenKind) : Bool :=
  k != .closeBrace && k != .endOfFile && !startsDeclaration k

def block (statement : Parser) : Parser :=
  node .block (
    expect .openBrace ++
    many continuesBlock ((statement.into .item).orSkip .expectedStatement) ++
    expect .closeBrace)

/-- The condition of an `if` or `while`; its parentheses belong to the statement. -/
def condition (expression : Parser) : Parser :=
  expect .openParen ++ ifNext (· == .closeParen) nothing expression ++ expect .closeParen

/-- The next tokens start the declaration of a local variable. -/
def startsLocal (c : Cursor) : Bool :=
  if c.kind.isPredefinedType && c.kind != .voidKeyword then
    c.peek 1 == .identifier || (c.peek 1 == .openBracket && c.peek 2 == .closeBracket)
  else c.kind == .identifier && c.peek 1 == .identifier

def localDeclaration (expression : Parser) : Parser :=
  node .localDeclarationStatement (
    typeReference.into .type ++ declarators expression ++ expect .semicolon)

def returnStatement (expression : Parser) : Parser :=
  node .returnStatement (
    expect .returnKeyword ++
    ifNext (· == .semicolon) nothing (expression.into .expression) ++
    expect .semicolon)

def ifStatement (expression statement : Parser) : Parser :=
  node .ifStatement (
    expect .ifKeyword ++ condition expression ++ statement ++
    ifNext (· == .elseKeyword) (node .elseClause (take ++ statement)) nothing)

def whileStatement (expression statement : Parser) : Parser :=
  node .whileStatement (expect .whileKeyword ++ condition expression ++ statement)

/-- An expression as a statement; where no expression can be read there is no statement. -/
def expressionStatement (expression : Parser) : Parser :=
  (expression.into .expression).read fun start found =>
    if found.isEmpty then nothing
    else close .expressionStatement start (emit found ++ expect .semicolon)

/-! ## Nesting -/

/-- A statement that may open `depth` levels, its own included. At a token that starts no
statement there is none, and nothing is read. -/
def statement : (depth : Nat) → Parser
  | 0 => report .nestingTooDeep
  | depth + 1 => look fun c =>
    match c.kind with
    | .openBrace => block (statement depth)
    | .returnKeyword => returnStatement (expression depth)
    | .ifKeyword => ifStatement (expression depth) (statement depth)
    | .whileKeyword => whileStatement (expression depth) (statement depth)
    | .semicolon => node .emptyStatement take
    | .closeBrace | .endOfFile => nothing
    | _ =>
      if startsLocal c then localDeclaration (expression depth)
      else expressionStatement (expression depth)

end Caret.Grammar
