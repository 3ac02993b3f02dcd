import Caret.Proofs.Counting
import Caret.Proofs.DeclarationPatterns
/-!
# The grammar with a counter

Every parser of the grammar that reads expressions or statements, as a counting parser. The guard
stands at three places: around an expression, around a sign with its operand, and around a
statement. None of these is told how deep it stands. They call each other, and `calls` bounds how
often, one more often than there are levels; so it is the guard that stops them.
-/

namespace Caret.Counting

open CountingParser

/-! ## Names and type references -/

def typeReference : CountingParser := plain Grammar.typeReference

def qualifiedName : CountingParser := plain Grammar.qualifiedName

/-! ## Expressions -/

def identifierName : CountingParser := node .identifierName take

def argumentList (expression : CountingParser) : CountingParser :=
  node .argumentList (
    expect .openParen ++
    separated (fun k => k != .closeParen && k != .endOfFile)
      (ifNext Grammar.isArgumentModifier take nothing ++ expression.into .item) ++
    expect .closeParen)

def optionalArguments (expression : CountingParser) : CountingParser :=
  ifNext (· == .openParen) ((argumentList expression).into .arguments) nothing

def objectCreation (expression : CountingParser) : CountingParser :=
  node .objectCreationExpression (
    expect .newKeyword ++
    ifNext Grammar.startsType (typeReference.into .expression) (report .expectedType) ++
    optionalArguments expression)

def parenthesized (expression : CountingParser) : CountingParser :=
  node .parenthesizedExpression (take ++ expression.into .expression ++ expect .closeParen)

def primary (expression : CountingParser) : CountingParser := look fun c =>
  match c.kind with
  | .identifier | .boolKeyword | .doubleKeyword | .intKeyword | .objectKeyword
  | .stringKeyword => identifierName
  | .thisKeyword => node .thisExpression take
  | .baseKeyword => node .baseExpression take
  | .numericLiteral | .stringLiteral | .trueKeyword | .falseKeyword | .nullKeyword =>
    node .literalExpression take
  | .openParen => parenthesized expression
  | .newKeyword => objectCreation expression
  | _ => report .expectedExpression

def suffix (expression : CountingParser) (c : Cursor) : Option Extension :=
  match c.kind with
  | .dot => some ⟨.memberAccessExpression, .left, take.into .operator ++
      ifNext (· == .identifier) (identifierName.into .right) (report .expectedMemberName)⟩
  | .openParen => some ⟨.invocationExpression, .expression,
      (argumentList expression).into .arguments⟩
  | _ => none

def suffixed (expression : CountingParser) : CountingParser :=
  (primary expression).read fun start left => look fun c =>
    if left.isEmpty then nothing else extend (suffix expression) start c.rest left

def operation (precedence : Nat) (operand : CountingParser) (c : Cursor) : Option Extension :=
  if c.kind.precedence? == some precedence then
    some ⟨.binaryExpression, .left, take.into .operator ++ operand.into .right⟩
  else none

def level (precedence : Nat) (operand : CountingParser) : CountingParser :=
  operand.extended (operation precedence operand)

def binary (operand : CountingParser) : CountingParser :=
  level 1 (level 2 (level 3 (level 4 (level 5 (level 6 operand)))))

def assignment (operand value : CountingParser) : CountingParser :=
  (binary operand).read fun start left =>
    ifNext TokenKind.isAssignment
      (enlarge ⟨.assignmentExpression, .left, take.into .operator ++ value.into .right⟩ start left)
      (emit left)

def signed (operand : CountingParser) : CountingParser :=
  node .prefixUnaryExpression (take.into .operator ++ operand.into .right)

/-- The parsers that call themselves in expressions. -/
structure Nesting where
  expression : CountingParser
  operand : CountingParser

/-- The parsers that call those given. An operand without a sign opens no level itself, so the
expressions in it are one call away as well. -/
def Nesting.above (inner : Nesting) : Nesting :=
  let expression := guarded (assignment inner.operand inner.expression)
  { expression
    operand := ifNext TokenKind.isSign (guarded (signed inner.operand)) (suffixed expression) }

def Nesting.of : (calls : Nat) → Nesting
  | 0 => ⟨nothing, nothing⟩
  | calls + 1 => (Nesting.of calls).above

theorem Nesting.of_succ_expression (calls : Nat) : (of (calls + 1)).expression =
    guarded (assignment (of calls).operand (of calls).expression) := by
  rw [of, above]

theorem Nesting.of_succ_operand (calls : Nat) : (of (calls + 1)).operand =
    ifNext TokenKind.isSign (guarded (signed (of calls).operand))
      (suffixed (of (calls + 1)).expression) := by
  rw [of, above]

def expression (calls : Nat) : CountingParser := (Nesting.of calls).expression

def arrowClause (expression : CountingParser) : CountingParser :=
  node .arrowExpressionClause (expect .equalsGreater ++ expression.into .expression)

/-! ## Statements -/

def declarator (expression : CountingParser) : CountingParser :=
  node .variableDeclarator (
    (expect .identifier).into .name ++
    ifNext (· == .equals) (take ++ expression.into .initializer) nothing)

def declarators (expression : CountingParser) : CountingParser :=
  separated (fun _ => true) ((declarator expression).into .declarator)

def block (statement : CountingParser) : CountingParser :=
  node .block (
    expect .openBrace ++
    many Grammar.continuesBlock ((statement.into .item).orSkip .expectedStatement) ++
    expect .closeBrace)

def condition (expression : CountingParser) : CountingParser :=
  expect .openParen ++ ifNext (· == .closeParen) nothing expression ++ expect .closeParen

def localDeclaration (expression : CountingParser) : CountingParser :=
  node .localDeclarationStatement (
    typeReference.into .type ++ declarators expression ++ expect .semicolon)

def returnStatement (expression : CountingParser) : CountingParser :=
  node .returnStatement (
    expect .returnKeyword ++
    ifNext (· == .semicolon) nothing (expression.into .expression) ++
    expect .semicolon)

def ifStatement (expression statement : CountingParser) : CountingParser :=
  node .ifStatement (
    expect .ifKeyword ++ condition expression ++ statement ++
    ifNext (· == .elseKeyword) (node .elseClause (take ++ statement)) nothing)

def whileStatement (expression statement : CountingParser) : CountingParser :=
  node .whileStatement (expect .whileKeyword ++ condition expression ++ statement)

def expressionStatement (expression : CountingParser) : CountingParser :=
  (expression.into .expression).read fun start found =>
    if found.isEmpty then nothing
    else close .expressionStatement start (emit found ++ expect .semicolon)

def statement : (calls : Nat) → CountingParser
  | 0 => nothing
  | calls + 1 => guarded <| look fun c =>
    match c.kind with
    | .openBrace => block (statement calls)
    | .returnKeyword => returnStatement (expression calls)
    | .ifKeyword => ifStatement (expression calls) (statement calls)
    | .whileKeyword => whileStatement (expression calls) (statement calls)
    | .semicolon => node .emptyStatement take
    | .closeBrace | .endOfFile => nothing
    | _ =>
      if Grammar.startsLocal c then localDeclaration (expression calls)
      else expressionStatement (expression calls)

/-! ## Declarations -/

def outerExpression : CountingParser := expression (Grammar.nestingLimit + 1)

def outerStatement : CountingParser := statement (Grammar.nestingLimit + 1)

def singleAttribute : CountingParser :=
  node .attribute (
    qualifiedName.into .expression ++ optionalArguments outerExpression)

def attributeList : CountingParser :=
  node .attributeList (
    expect .openBracket ++
    separated (· == .identifier) (singleAttribute.into .item) ++
    expect .closeBracket)

def attributeLists : CountingParser :=
  many (· == .openBracket) (attributeList.into .attribute)

def modifiers : CountingParser := many TokenKind.isModifier (take.into .modifier)

def declarationHead : CountingParser := attributeLists ++ modifiers

def parameterName : CountingParser :=
  ifNext Grammar.startsType (typeReference.into .type ++ (expect .identifier).into .name)
    (report .expectedParameterType)

def parameter : CountingParser :=
  node .parameter (
    attributeLists ++
    many TokenKind.isParameterModifier (take.into .modifier) ++
    parameterName ++
    ifNext (· == .equals) (take ++ outerExpression.into .initializer) nothing)

def parameterList : CountingParser :=
  node .parameterList (
    expect .openParen ++ separated Grammar.startsParameter (parameter.into .item) ++
    expect .closeParen)

def memberBody : CountingParser := look fun c =>
  match c.kind with
  | .openBrace => (block outerStatement).into .body
  | .equalsGreater => (arrowClause outerExpression).into .body ++ expect .semicolon
  | .semicolon => take
  | _ => report .expectedBody

def accessor : CountingParser :=
  modifiers.read fun start found => look fun c =>
    if Grammar.isAccessorKeyword c.kind then
      (close .accessorDeclaration start
        (emit found ++ take.into .keyword ++ memberBody)).into .accessor
    else if found.isEmpty then nothing
    else report .expectedAccessor ++ emit (found.map (Tree.withSlot .loose))

def accessorList : CountingParser :=
  expect .openBrace ++
  many (fun k => k.isModifier || Grammar.isAccessorKeyword k) accessor ++
  expect .closeBrace ++
  ifNext (· == .equals) (take ++ outerExpression.into .initializer ++ expect .semicolon) nothing

def constructorInitializer : CountingParser :=
  node .constructorInitializer (
    (expect .colon).into .colon ++
    ifNext (fun k => k == .baseKeyword || k == .thisKeyword) (take.into .keyword)
      (report .expectedConstructorTarget) ++
    optionalArguments outerExpression)

def constructorRest : CountingParser :=
  (expect .identifier).into .name ++ parameterList.into .parameters ++
  ifNext (· == .colon) (constructorInitializer.into .initializer) nothing ++ memberBody

def methodRest : CountingParser :=
  (expect .identifier).into .name ++ parameterList.into .parameters ++ memberBody

def propertyRest : CountingParser :=
  (expect .identifier).into .name ++
  ifNext (· == .equalsGreater)
    ((arrowClause outerExpression).into .body ++ expect .semicolon)
    accessorList

def fieldRest : CountingParser := declarators outerExpression ++ expect .semicolon

def incomplete (start : Nat) (found : List Tree) : CountingParser :=
  close .incompleteMember start (emit found)

def namedMember (start : Nat) (found : List Tree) : CountingParser := look fun c =>
  if c.kind != .identifier then report .expectedMemberName ++ incomplete start found
  else match c.peek 1 with
    | .openParen => close .methodDeclaration start (emit found ++ methodRest)
    | .openBrace | .equalsGreater => close .propertyDeclaration start (emit found ++ propertyRest)
    | _ => close .fieldDeclaration start (emit found ++ fieldRest)

def member (nested : Nat → List Tree → CountingParser) (typeName : Option (List Char)) :
    CountingParser :=
  declarationHead.read fun start head => look fun c =>
    if c.kind.isTypeKeyword then nested start head
    else if Grammar.startsConstructor typeName c then
      close .constructorDeclaration start (emit head ++ constructorRest)
    else if Grammar.startsType c.kind then
      (emit head ++ typeReference.into .type).read fun _ found => namedMember start found
    else if head.isEmpty then nothing
    else report .expectedMember ++ incomplete start head

def baseList : CountingParser :=
  node .baseList (expect .colon ++ separated (fun _ => true) (typeReference.into .item))

def typeRest (memberOf : Option (List Char) → CountingParser) : CountingParser := look fun c =>
  let typeName := if c.kind == .identifier then some c.next.text else none
  (expect .identifier).into .name ++
  ifNext (· == .colon) (baseList.into .bases) nothing ++
  ifNext (· == .openBrace)
    (take ++
      many Grammar.continuesBraces (((memberOf typeName).into .member).orSkip .expectedMember) ++
      expect .closeBrace)
    (report (.expected .openBrace))

def typeDeclaration : (unread : List Token) → (start : Nat) → (head : List Tree) → CountingParser
  | [], _, _ => nothing
  | _ :: unread, start, head => look fun c =>
    close (Grammar.declarationKind c.kind) start
      (emit head ++ take ++ typeRest (member (typeDeclaration unread)))

def namespaceDeclaration (inner : CountingParser) : CountingParser :=
  node .namespaceDeclaration (
    expect .namespaceKeyword ++
    qualifiedName ++
    ifNext (· == .semicolon) take
      (expect .openBrace ++
        many Grammar.continuesBraces ((inner.into .member).orSkip .expectedDeclaration) ++
        expect .closeBrace))

def outerType : CountingParser :=
  declarationHead.read fun start head => look fun c =>
    if c.kind.isTypeKeyword then typeDeclaration c.rest start head
    else if head.isEmpty then nothing
    else report .expectedTypeDeclaration ++ incomplete start head

def namespaceMember : (unread : List Token) → CountingParser
  | [] => nothing
  | _ :: unread =>
    ifNext (· == .namespaceKeyword) (namespaceDeclaration (namespaceMember unread)) outerType

def declarations : CountingParser := look fun c =>
  many (· != .endOfFile)
    (((namespaceMember c.rest).into .item).orSkip .expectedDeclaration)

/-- The tree and the diagnostics of a text, and the counter behind its last token; before the first
it is zero. -/
def sourceFile (text : List Char) : SourceFile × Nat :=
  let c := Grammar.startOf text
  let r := declarations 0 c
  ({ length := c.length
     root := .node .loose .compilationUnit ⟨c.next.start, c.length⟩
      (r.1.1 ++ [.leaf .loose (.endOfFile c.length)])
     diagnostics := r.1.2.diagnostics.reverse }, r.2)

end Caret.Counting
