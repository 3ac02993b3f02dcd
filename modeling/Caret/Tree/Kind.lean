import Caret.Token.Kind
/-!
# Node kinds

The kinds of inner node of a syntax tree, and the kinds of all entries of a tree: tokens, inner
nodes, and the numbers that stand for neither. Token kinds have numbers up to
`TokenKind.lastCode`, the declarations of a node kind start at 200, statements at 230 and
expressions at 250.
-/

namespace Caret

inductive NodeKind where
  | compilationUnit | namespaceDeclaration | classDeclaration | structDeclaration
  | interfaceDeclaration | baseList | methodDeclaration | constructorDeclaration
  | constructorInitializer | fieldDeclaration | propertyDeclaration | accessorDeclaration
  | incompleteMember | parameterList | parameter | attributeList | attribute | argumentList
  | typeReference | variableDeclarator | arrowExpressionClause
  | block | localDeclarationStatement | expressionStatement | returnStatement | ifStatement
  | elseClause | whileStatement | emptyStatement
  | identifierName | thisExpression | baseExpression | literalExpression | objectCreationExpression
  | invocationExpression | memberAccessExpression | binaryExpression | assignmentExpression
  | parenthesizedExpression | prefixUnaryExpression
deriving DecidableEq

namespace NodeKind

def all : List NodeKind := [
  .compilationUnit, .namespaceDeclaration, .classDeclaration, .structDeclaration,
  .interfaceDeclaration, .baseList, .methodDeclaration, .constructorDeclaration,
  .constructorInitializer, .fieldDeclaration, .propertyDeclaration, .accessorDeclaration,
  .incompleteMember, .parameterList, .parameter, .attributeList, .attribute, .argumentList,
  .typeReference, .variableDeclarator, .arrowExpressionClause, .block, .localDeclarationStatement,
  .expressionStatement, .returnStatement, .ifStatement, .elseClause, .whileStatement,
  .emptyStatement, .identifierName, .thisExpression, .baseExpression, .literalExpression,
  .objectCreationExpression, .invocationExpression, .memberAccessExpression, .binaryExpression,
  .assignmentExpression, .parenthesizedExpression, .prefixUnaryExpression]

def code : NodeKind → Nat
  | .compilationUnit => 200
  | .namespaceDeclaration => 201
  | .classDeclaration => 202
  | .structDeclaration => 203
  | .interfaceDeclaration => 204
  | .baseList => 205
  | .methodDeclaration => 206
  | .constructorDeclaration => 207
  | .constructorInitializer => 208
  | .fieldDeclaration => 209
  | .propertyDeclaration => 210
  | .accessorDeclaration => 211
  | .incompleteMember => 212
  | .parameterList => 213
  | .parameter => 214
  | .attributeList => 215
  | .attribute => 216
  | .argumentList => 217
  | .typeReference => 218
  | .variableDeclarator => 219
  | .arrowExpressionClause => 220
  | .block => 230
  | .localDeclarationStatement => 231
  | .expressionStatement => 232
  | .returnStatement => 233
  | .ifStatement => 234
  | .elseClause => 235
  | .whileStatement => 236
  | .emptyStatement => 237
  | .identifierName => 250
  | .thisExpression => 251
  | .baseExpression => 252
  | .literalExpression => 253
  | .objectCreationExpression => 254
  | .invocationExpression => 255
  | .memberAccessExpression => 256
  | .binaryExpression => 257
  | .assignmentExpression => 258
  | .parenthesizedExpression => 259
  | .prefixUnaryExpression => 260

def isTypeDeclaration : NodeKind → Bool
  | .classDeclaration | .structDeclaration | .interfaceDeclaration => true
  | _ => false

/-- A member whose body or initializer may hold an expression of the instance. -/
def isMemberDeclaration : NodeKind → Bool
  | .methodDeclaration | .constructorDeclaration | .fieldDeclaration
  | .propertyDeclaration => true
  | _ => false

def isStatement : NodeKind → Bool
  | .block | .localDeclarationStatement | .expressionStatement | .returnStatement | .ifStatement
  | .whileStatement | .emptyStatement => true
  | _ => false

/-- A node whose children may be statements. -/
def isStatementContainer : NodeKind → Bool
  | .block | .ifStatement | .elseClause | .whileStatement => true
  | _ => false

theorem lastCode_lt_code (k : NodeKind) : TokenKind.lastCode < k.code := by cases k <;> decide

end NodeKind

/-- The kind of an entry of a tree; `other` is a number that no token or node kind has. -/
inductive Kind where
  | token (kind : TokenKind)
  | node (kind : NodeKind)
  | other (code : Nat)
deriving DecidableEq

namespace Kind

def ofCode (n : Nat) : Kind :=
  match TokenKind.ofCode? n with
  | some k => .token k
  | none =>
    match NodeKind.all.find? fun k => k.code == n with
    | some k => .node k
    | none => .other n

def code : Kind → Nat
  | .token k => k.code
  | .node k => k.code
  | .other n => n

/-- The kind of a token, none for a node. -/
def token? : Kind → Option TokenKind
  | .token k => some k
  | _ => none

/-- The kind of an inner node, none for a token. -/
def node? : Kind → Option NodeKind
  | .node k => some k
  | _ => none

def isNode (p : NodeKind → Bool) (k : Kind) : Bool := k.node?.any p

@[simp] theorem ofCode_token (k : TokenKind) : ofCode k.code = .token k := by
  simp [ofCode]

@[simp] theorem ofCode_node (k : NodeKind) : ofCode k.code = .node k := by
  cases k <;> rfl

end Kind

end Caret
