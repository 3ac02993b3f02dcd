import Caret.Tree.Basic
/-!
# What a node holds

Next to its kind and its span, an entry of a table holds the parts of the construct: references to
the entries that fill the slots. Kinds that have the same parts share a shape of data, as
`MethodDeclData` or `BinaryExprData`. `Data.ofChildren` says what a node with given children has to
hold; the parser fills in the data on its own.
-/

namespace Caret

/-- A reference to an entry of a table by its number, or none. -/
abbrev Ref := Option Nat

structure NamespaceParts where
  name : Ref
  members : List Ref
deriving DecidableEq

/-- The parts of a class, struct or interface. Lists that may be absent as a whole are
optional. -/
structure TypeParts where
  attributes : Option (List Ref)
  modifiers : Option (List Ref)
  name : Ref
  bases : Ref
  members : List Ref
deriving DecidableEq

/-- The parts of a method; a method that ends with a semicolon has no body. -/
structure MethodParts where
  attributes : Option (List Ref)
  modifiers : Option (List Ref)
  type : Ref
  name : Ref
  parameters : Ref
  body : Ref
deriving DecidableEq

structure ConstructorParts where
  attributes : Option (List Ref)
  modifiers : Option (List Ref)
  name : Ref
  parameters : Ref
  initializer : Ref
  body : Ref
deriving DecidableEq

structure InitializerParts where
  colon : Ref
  keyword : Ref
  arguments : Ref
deriving DecidableEq

/-- The parts of a field, of a declaration of locals, and of an incomplete member. -/
structure VariableParts where
  attributes : Option (List Ref)
  modifiers : Option (List Ref)
  type : Ref
  declarators : List Ref
deriving DecidableEq

structure DeclaratorParts where
  name : Ref
  initializer : Ref
deriving DecidableEq

structure PropertyParts where
  attributes : Option (List Ref)
  modifiers : Option (List Ref)
  type : Ref
  name : Ref
  accessors : List Ref
  body : Ref
  initializer : Ref
deriving DecidableEq

structure AccessorParts where
  modifiers : Option (List Ref)
  keyword : Ref
  body : Ref
deriving DecidableEq

structure ParameterParts where
  attributes : Option (List Ref)
  modifiers : Option (List Ref)
  type : Ref
  name : Ref
  initializer : Ref
deriving DecidableEq

/-- The parts of a type reference: the last part of its name, and whether it is an array. -/
structure TypeReferenceParts where
  name : Ref
  isArray : Bool
deriving DecidableEq

/-- The parts of an operation: an operator between, or before, operands. -/
structure OperationParts where
  left : Ref
  operator : Ref
  right : Ref
deriving DecidableEq

/-- The parts of a call, of the creation of an object, and of an attribute. -/
structure CallParts where
  expression : Ref
  arguments : Ref
deriving DecidableEq

/-- What an entry holds, by shape. `name` is the text of a name without leading `@`, `list` the
items of a list, `wrapped` the one expression of a statement, clause or pair of parentheses. -/
inductive Data where
  | none
  | name (text : List Char)
  | list (items : List Ref)
  | space (parts : NamespaceParts)
  | type (parts : TypeParts)
  | method (parts : MethodParts)
  | constructor (parts : ConstructorParts)
  | initializer (parts : InitializerParts)
  | variableList (parts : VariableParts)
  | declarator (parts : DeclaratorParts)
  | property (parts : PropertyParts)
  | accessor (parts : AccessorParts)
  | parameter (parts : ParameterParts)
  | typeReference (parts : TypeReferenceParts)
  | operation (parts : OperationParts)
  | call (parts : CallParts)
  | wrapped (expression : Ref)
deriving DecidableEq

inductive Shape where
  | name | list | space | type | method | constructor | initializer | variableList | declarator
  | property | accessor | parameter | typeReference | operation | call | wrapped
deriving DecidableEq

namespace Data

def shape? : Data → Option Shape
  | none => Option.none
  | name _ => some .name
  | list _ => some .list
  | space _ => some .space
  | type _ => some .type
  | method _ => some .method
  | constructor _ => some .constructor
  | initializer _ => some .initializer
  | variableList _ => some .variableList
  | declarator _ => some .declarator
  | property _ => some .property
  | accessor _ => some .accessor
  | parameter _ => some .parameter
  | typeReference _ => some .typeReference
  | operation _ => some .operation
  | call _ => some .call
  | wrapped _ => some .wrapped

/-- The text of a name without the `@` before it. -/
def plainName (text : List Char) : List Char := text.dropWhile (· == '@')

end Data

def NodeKind.shape? : NodeKind → Option Shape
  | .compilationUnit | .block | .parameterList | .argumentList | .attributeList
  | .baseList => some .list
  | .namespaceDeclaration => some .space
  | .classDeclaration | .structDeclaration | .interfaceDeclaration => some .type
  | .methodDeclaration => some .method
  | .constructorDeclaration => some .constructor
  | .constructorInitializer => some .initializer
  | .fieldDeclaration | .localDeclarationStatement | .incompleteMember => some .variableList
  | .variableDeclarator => some .declarator
  | .propertyDeclaration => some .property
  | .accessorDeclaration => some .accessor
  | .parameter => some .parameter
  | .typeReference => some .typeReference
  | .binaryExpression | .assignmentExpression | .memberAccessExpression
  | .prefixUnaryExpression => some .operation
  | .invocationExpression | .objectCreationExpression | .attribute => some .call
  | .expressionStatement | .returnStatement | .parenthesizedExpression
  | .arrowExpressionClause => some .wrapped
  | .ifStatement | .elseClause | .whileStatement | .emptyStatement | .identifierName
  | .thisExpression | .baseExpression | .literalExpression => none

def Kind.shape? : Kind → Option Shape
  | .token .identifier => some .name
  | .token _ => none
  | .node k => k.shape?
  | .other _ => none

/-! ## Data from children -/

/-- A child of a node: its slot, its kind and its number. -/
structure Child where
  slot : Slot
  kind : Kind
  index : Nat
deriving DecidableEq

namespace Child

/-- The child in a slot that holds at most one. -/
def inSlot (cs : List Child) (s : Slot) : Ref := (cs.find? (·.slot == s)).map (·.index)

/-- The children in a slot that holds a list. -/
def listIn (cs : List Child) (s : Slot) : List Ref :=
  (cs.filter (·.slot == s)).map (some ·.index)

/-- The children in a slot that holds a list, if there are any. -/
def someIn (cs : List Child) (s : Slot) : Option (List Ref) :=
  match listIn cs s with
  | [] => none
  | refs => some refs

/-- The kinds of token in a slot. -/
def tokensIn (cs : List Child) (s : Slot) : List TokenKind :=
  (cs.filter (·.slot == s)).filterMap (·.kind.token?)

end Child

open Child in
/-- What a node with the given children holds. -/
def Data.ofChildren (k : NodeKind) (cs : List Child) : Data :=
  match k.shape? with
  | some .list => .list (listIn cs .item)
  | some .space => .space ⟨inSlot cs .name, listIn cs .member⟩
  | some .type => .type ⟨someIn cs .attribute, someIn cs .modifier, inSlot cs .name,
      inSlot cs .bases, listIn cs .member⟩
  | some .method => .method ⟨someIn cs .attribute, someIn cs .modifier, inSlot cs .type,
      inSlot cs .name, inSlot cs .parameters, inSlot cs .body⟩
  | some .constructor => .constructor ⟨someIn cs .attribute, someIn cs .modifier,
      inSlot cs .name, inSlot cs .parameters, inSlot cs .initializer, inSlot cs .body⟩
  | some .initializer => .initializer ⟨inSlot cs .colon, inSlot cs .keyword,
      inSlot cs .arguments⟩
  | some .variableList => .variableList ⟨someIn cs .attribute, someIn cs .modifier,
      inSlot cs .type, listIn cs .declarator⟩
  | some .declarator => .declarator ⟨inSlot cs .name, inSlot cs .initializer⟩
  | some .property => .property ⟨someIn cs .attribute, someIn cs .modifier, inSlot cs .type,
      inSlot cs .name, listIn cs .accessor, inSlot cs .body, inSlot cs .initializer⟩
  | some .accessor => .accessor ⟨someIn cs .modifier, inSlot cs .keyword, inSlot cs .body⟩
  | some .parameter => .parameter ⟨someIn cs .attribute, someIn cs .modifier, inSlot cs .type,
      inSlot cs .name, inSlot cs .initializer⟩
  | some .typeReference => .typeReference ⟨inSlot cs .name,
      cs.any (·.kind == .token .closeBracket)⟩
  | some .operation => .operation ⟨inSlot cs .left, inSlot cs .operator, inSlot cs .right⟩
  | some .call => .call ⟨inSlot cs .expression, inSlot cs .arguments⟩
  | some .wrapped => .wrapped (inSlot cs .expression)
  | some .name | Option.none => .none

theorem Data.shape?_ofChildren (k : NodeKind) (cs : List Child) :
    (Data.ofChildren k cs).shape? = k.shape? := by
  cases k <;> rfl

end Caret
