import Caret.Table.Basic
/-!
# What may stand at a place

Questions about the token before a place, as `is_statement_context` and
`is_parameter_modifier_context`. Where the shape that a question looks for is missing the
answer is no, which is the ordinary case while a text is being edited.
-/

namespace Caret.NodeTable

variable (t : NodeTable)

/-! ## The token before the caret -/

/-- The token itself, or the one before it if it is a word that the caret touches: such a word is
most likely being typed (`previous_token_if_touching_word`). -/
def beforeTouchedWord (token : Ref) (offset : Nat) : Ref :=
  match t.get? token with
  | some e =>
    if offset ≤ e.span.stop && e.kind.token?.any TokenKind.isWord then t.previousToken token
    else token
  | none => token

/-! ## What is around a token -/

/-- The nearest type around a token; its own closing brace stands outside a type
(`containing_type_declaration`). -/
def containingType (token : Ref) : Ref :=
  let declaration := t.nodeAbove token NodeKind.isTypeDeclaration
  if t.token? token == some .closeBrace && t.parent token == declaration then
    t.nodeAbove declaration NodeKind.isTypeDeclaration
  else declaration

/-- The nearest member around a token, if it is declared right in a type (`containing_member`). -/
def containingMember (token : Ref) : Ref :=
  let member := t.nodeAbove token NodeKind.isMemberDeclaration
  if t.isNode NodeKind.isTypeDeclaration (t.parent member) then member else none

def inInstance (token : Ref) : Bool :=
  let member := t.containingMember token
  member.isSome && !t.isStatic member

def inAttribute (token : Ref) : Bool := (t.nodeAbove token (· == .attribute)).isSome

/-! ## What may follow a token -/

def allowsStatement (token : Ref) : Bool :=
  let parent := t.parent token
  match t.kind? parent with
  | none => false
  | some kind =>
    let inContainer := t.isNode NodeKind.isStatementContainer (t.parent parent)
    match t.token? token with
    | some .openBrace => kind == .node .block
    | some .semicolon => kind.isNode NodeKind.isStatement && inContainer
    | some .closeBrace => kind == .node .block && inContainer
    | some .closeParen => kind == .node .ifStatement || kind == .node .whileStatement
    | some .elseKeyword => kind == .node .elseClause
    | _ => false

/-- The kinds of node in which an expression may follow a token of the given kind. -/
def expressionParents (token : TokenKind) : List NodeKind :=
  match token with
  | .equals => [.variableDeclarator, .assignmentExpression, .propertyDeclaration]
  | .plusEquals | .minusEquals => [.assignmentExpression]
  | .openParen => [.argumentList, .ifStatement, .whileStatement, .parenthesizedExpression]
  | .comma => [.argumentList]
  | .returnKeyword => [.returnStatement]
  | .equalsGreater => [.arrowExpressionClause]
  | .exclamation => [.prefixUnaryExpression]
  | .plus | .minus => [.binaryExpression, .prefixUnaryExpression]
  | _ => if token.precedence?.isSome then [.binaryExpression] else []

def allowsExpression (token : Ref) : Bool :=
  match t.token? token, t.node? (t.parent token) with
  | some kind, some parent => (expressionParents kind).contains parent
  | _, _ => false

def hasParameters (k : NodeKind) : Bool := k == .methodDeclaration || k == .constructorDeclaration

def isParameterList (list : Ref) : Bool :=
  t.node? list == some .parameterList && t.isNode hasParameters (t.parent list)

/-- A modifier of a parameter may start at the offset: after the opening of a parameter list,
after a comma in one, or after the attributes of a parameter. With `onlyFirst` that has to be the
first parameter. -/
def allowsParameterModifier (offset : Nat) (left : Ref) (onlyFirst : Bool) : Bool :=
  let token := t.beforeTouchedWord left offset
  let parent := t.parent token
  match t.token? token with
  | some .openParen => t.isParameterList parent
  | some .comma => !onlyFirst && t.isParameterList parent
  | some .closeBracket =>
    let parameter := t.parent parent
    let list := t.parent parameter
    t.node? parent == some .attributeList && t.node? parameter == some .parameter &&
      t.isParameterList list &&
      (!onlyFirst || ((t.list? list).bind List.head?) == some parameter)
  | _ => false

def allowsArgumentModifier (token : Ref) : Bool :=
  (t.token? token == some .openParen || t.token? token == some .comma) &&
    t.node? (t.parent token) == some .argumentList && !t.inAttribute token

/-- The constructor whose initializer the token, a colon, opens
(`constructor_of_initializer_colon`). -/
def constructorOfColon (token : Ref) : Ref :=
  let initializer := t.parent token
  let constructor := t.parent initializer
  if t.token? token == some .colon && t.node? initializer == some .constructorInitializer &&
      t.node? constructor == some .constructorDeclaration then constructor
  else none

end Caret.NodeTable
