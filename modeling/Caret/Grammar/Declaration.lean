import Caret.Grammar.Statement
/-!
# Declarations

Members, types and namespaces. What kind of declaration begins is told by the tokens after its
attributes and modifiers; a declaration that breaks off is kept as an incomplete member. The rest of
a declaration starts at its name. A member is a constructor if its name is written as that of the
type around it.

| function | read here by |
| --- | --- |
| `parse_declaration_head`, `parse_attribute_lists`, `parse_modifiers` | `declarationHead` |
| `parse_parameter_list`, `parse_parameter` | `parameterList`, `parameter` |
| `parse_member_body` | `memberBody` |
| `parse_property_declaration`, `parse_accessor_declaration` | `propertyRest`, `accessor` |
| `parse_constructor_declaration`, `parse_constructor_initializer` | `constructorRest` |
| `parse_method_declaration`, `parse_field_declaration` | `methodRest`, `fieldRest` |
| `parse_member_declaration`, `finish_incomplete_member` | `member`, `incomplete` |
| `parse_type_declaration`, `parse_base_list` | `typeDeclaration`, `baseList` |
| `parse_namespace_member`, `parse_namespace_declaration` | `namespaceMember` |
-/

namespace Caret.Grammar

open Caret.Parser

def outerExpression : Parser := expression nestingLimit

/-! ## Attributes and modifiers -/

def singleAttribute : Parser :=
  node .attribute (
    qualifiedName.into .expression ++ optionalArguments outerExpression)

def attributeList : Parser :=
  node .attributeList (
    expect .openBracket ++
    separated (· == .identifier) (singleAttribute.into .item) ++
    expect .closeBracket)

def attributeLists : Parser := many (· == .openBracket) (attributeList.into .attribute)

def modifiers : Parser := many TokenKind.isModifier (take.into .modifier)

/-- What may precede any declaration. -/
def declarationHead : Parser := attributeLists ++ modifiers

/-! ## Parameters -/

def startsParameter (k : TokenKind) : Bool :=
  k == .openBracket || k.isParameterModifier || startsType k

def parameterName : Parser :=
  ifNext startsType (typeReference.into .type ++ (expect .identifier).into .name)
    (report .expectedParameterType)

def parameter : Parser :=
  node .parameter (
    attributeLists ++
    many TokenKind.isParameterModifier (take.into .modifier) ++
    parameterName ++
    ifNext (· == .equals) (take ++ outerExpression.into .initializer) nothing)

/-- The parameters of a method or constructor. A list that is not closed ends before the first
token that starts no parameter. -/
def parameterList : Parser :=
  node .parameterList (
    expect .openParen ++ separated startsParameter (parameter.into .item) ++ expect .closeParen)

/-! ## Bodies -/

/-- The body of a method, constructor or accessor: a block, an arrow clause, or a semicolon. -/
def memberBody : Parser := look fun c =>
  match c.kind with
  | .openBrace => (block (statement nestingLimit)).into .body
  | .equalsGreater => (arrowClause outerExpression).into .body ++ expect .semicolon
  | .semicolon => take
  | _ => report .expectedBody

def isAccessorKeyword (k : TokenKind) : Bool := k == .getKeyword || k == .setKeyword

/-- An accessor of a property. Modifiers without an accessor are left as they stand. -/
def accessor : Parser :=
  modifiers.read fun start found => look fun c =>
    if isAccessorKeyword c.kind then
      (close .accessorDeclaration start
        (emit found ++ take.into .keyword ++ memberBody)).into .accessor
    else if found.isEmpty then nothing
    else report .expectedAccessor ++ emit (found.map (Tree.withSlot .loose))

def accessorList : Parser :=
  expect .openBrace ++
  many (fun k => k.isModifier || isAccessorKeyword k) accessor ++
  expect .closeBrace ++
  ifNext (· == .equals) (take ++ outerExpression.into .initializer ++ expect .semicolon) nothing

/-! ## Members -/

/-- The initializer of a constructor, `: base(…)` or `: this(…)`. -/
def constructorInitializer : Parser :=
  node .constructorInitializer (
    (expect .colon).into .colon ++
    ifNext (fun k => k == .baseKeyword || k == .thisKeyword) (take.into .keyword)
      (report .expectedConstructorTarget) ++
    optionalArguments outerExpression)

def constructorRest : Parser :=
  (expect .identifier).into .name ++ parameterList.into .parameters ++
  ifNext (· == .colon) (constructorInitializer.into .initializer) nothing ++ memberBody

def methodRest : Parser :=
  (expect .identifier).into .name ++ parameterList.into .parameters ++ memberBody

def propertyRest : Parser :=
  (expect .identifier).into .name ++
  ifNext (· == .equalsGreater)
    ((arrowClause outerExpression).into .body ++ expect .semicolon)
    accessorList

def fieldRest : Parser := declarators outerExpression ++ expect .semicolon

/-- A declaration that breaks off after `found`. -/
def incomplete (start : Nat) (found : List Tree) : Parser :=
  close .incompleteMember start (emit found)

/-- A member from its name on, where the head and the type are read. -/
def namedMember (start : Nat) (found : List Tree) : Parser := look fun c =>
  if c.kind != .identifier then report .expectedMemberName ++ incomplete start found
  else match c.peek 1 with
    | .openParen => close .methodDeclaration start (emit found ++ methodRest)
    | .openBrace | .equalsGreater => close .propertyDeclaration start (emit found ++ propertyRest)
    | _ => close .fieldDeclaration start (emit found ++ fieldRest)

/-- The next tokens start a constructor of a type with the given name. -/
def startsConstructor (typeName : Option (List Char)) (c : Cursor) : Bool :=
  c.kind == .identifier && c.peek 1 == .openParen && typeName == some c.next.text

/-- A member of a type with the given name (`parse_member_declaration`). `nested` reads a type from
its keyword on, where the head is read. At a token that starts no member there is none, and nothing
is read. -/
def member (nested : Nat → List Tree → Parser) (typeName : Option (List Char)) : Parser :=
  declarationHead.read fun start head => look fun c =>
    if c.kind.isTypeKeyword then nested start head
    else if startsConstructor typeName c then
      close .constructorDeclaration start (emit head ++ constructorRest)
    else if startsType c.kind then
      (emit head ++ typeReference.into .type).read fun _ found => namedMember start found
    else if head.isEmpty then nothing
    else report .expectedMember ++ incomplete start head

/-! ## Types -/

def declarationKind : TokenKind → NodeKind
  | .structKeyword => .structDeclaration
  | .interfaceKeyword => .interfaceDeclaration
  | _ => .classDeclaration

def baseList : Parser :=
  node .baseList (expect .colon ++ separated (fun _ => true) (typeReference.into .item))

def continuesBraces (k : TokenKind) : Bool := k != .closeBrace && k != .endOfFile

/-- A type from its name on; `memberOf` reads a member of a type with the given name. -/
def typeRest (memberOf : Option (List Char) → Parser) : Parser := look fun c =>
  let typeName := if c.kind == .identifier then some c.next.text else none
  (expect .identifier).into .name ++
  ifNext (· == .colon) (baseList.into .bases) nothing ++
  ifNext (· == .openBrace)
    (take ++
      many continuesBraces (((memberOf typeName).into .member).orSkip .expectedMember) ++
      expect .closeBrace)
    (report (.expected .openBrace))

/-- A type from its keyword on, where the head is read. Each type in a type has a keyword of its
own, so the types that nest are no more than `unread`. -/
def typeDeclaration : (unread : List Token) → (start : Nat) → (head : List Tree) → Parser
  | [], _, _ => nothing
  | _ :: unread, start, head => look fun c =>
    close (declarationKind c.kind) start
      (emit head ++ take ++ typeRest (member (typeDeclaration unread)))

/-! ## Namespaces -/

/-- A namespace from its keyword on; `inner` reads what may stand in it. -/
def namespaceDeclaration (inner : Parser) : Parser :=
  node .namespaceDeclaration (
    expect .namespaceKeyword ++
    qualifiedName ++
    ifNext (· == .semicolon) take
      (expect .openBrace ++
        many continuesBraces ((inner.into .member).orSkip .expectedDeclaration) ++
        expect .closeBrace))

/-- A type outside of every type. At a token that starts none there is none, and nothing is
read. -/
def outerType : Parser :=
  declarationHead.read fun start head => look fun c =>
    if c.kind.isTypeKeyword then typeDeclaration c.rest start head
    else if head.isEmpty then nothing
    else report .expectedTypeDeclaration ++ incomplete start head

/-- A namespace or a type. Each namespace in a namespace has a keyword of its own, so the
namespaces that nest are no more than `unread`. -/
def namespaceMember : (unread : List Token) → Parser
  | [] => nothing
  | _ :: unread =>
    ifNext (· == .namespaceKeyword) (namespaceDeclaration (namespaceMember unread)) outerType

end Caret.Grammar
