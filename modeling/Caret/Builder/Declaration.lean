import Caret.Builder.Statement
import Caret.Grammar.Declaration
/-!
# Building declarations

The builders follow `parse_namespace_member`, `parse_member_declaration` and the functions that
they call. A declaration starts before its attributes and modifiers, which are read before it is
known what is declared; so the marker is passed on with them.
-/

namespace Caret.Builder

open Caret.Grammar (nestingLimit startsType startsParameter startsConstructor isAccessorKeyword
  continuesBraces declarationKind)

def outerExpression : Builder Ref := expression nestingLimit

/-! ## Attributes and modifiers -/

/-- What may precede any declaration (`DeclarationHead`). -/
structure Head where
  attributes : Option (List Ref)
  modifiers : Option (List Ref)

def Head.isEmpty (head : Head) : Bool := head.attributes.isNone && head.modifiers.isNone

def singleAttribute : Builder Ref := node .attribute do
  let name ← qualifiedName
  let arguments ← optionalArguments outerExpression
  return .call ⟨name, arguments⟩

def attributeList : Builder Ref := node .attributeList do
  let _ ← expect .openBracket
  let attributes ← separated (· == .identifier) (listed singleAttribute)
  let _ ← expect .closeBracket
  return .list attributes

def attributeLists : Builder (Option (List Ref)) := do
  let lists ← many (· == .openBracket) (listed attributeList)
  return someOf lists

/-- The modifiers that pass a test (`parse_modifiers`, `parse_parameter_modifiers`). -/
def modifiers (test : TokenKind → Bool) : Builder (Option (List Ref)) := do
  let tokens ← many test (listed token)
  return someOf tokens

def declarationHead : Builder Head := do
  let attributes ← attributeLists
  let modifiers ← modifiers TokenKind.isModifier
  return ⟨attributes, modifiers⟩

/-! ## Parameters -/

/-- One parameter (`parse_parameter`). The name is only looked for behind a type. -/
def parameter : Builder Ref := node .parameter do
  let attributes ← attributeLists
  let modifiers ← modifiers TokenKind.isParameterModifier
  let type ← ifNext startsType typeReference (missing .expectedParameterType)
  let name ← ifFound type (expect .identifier)
  let initializer ← ifNext (· == .equals)
    (do
      let _ ← token
      outerExpression)
    (return none)
  return .parameter ⟨attributes, modifiers, type, name, initializer⟩

def parameterList : Builder Ref := node .parameterList do
  let _ ← expect .openParen
  let parameters ← separated startsParameter (listed parameter)
  let _ ← expect .closeParen
  return .list parameters

/-! ## Bodies -/

/-- `=> e;`, for which the arrow clause stands. -/
def arrowBody : Builder Ref := do
  let clause ← arrowClause outerExpression
  let _ ← expect .semicolon
  return clause

/-- The body of a method, constructor or accessor (`parse_member_body`). -/
def memberBody : Builder Ref := look fun c =>
  match c.kind with
  | .openBrace => block (statement nestingLimit)
  | .equalsGreater => arrowBody
  | .semicolon => do
    let _ ← token
    return none
  | _ => missing .expectedBody

/-- An accessor of a property (`parse_accessor_declaration`). Modifiers without an accessor are left
as they stand. -/
def accessor : Builder Ref := do
  let m ← start
  let modifiers ← modifiers TokenKind.isModifier
  ifNext isAccessorKeyword
    (close m .accessorDeclaration do
      let keyword ← token
      let body ← memberBody
      return .accessor ⟨modifiers, keyword, body⟩)
    (if modifiers.isSome then missing .expectedAccessor else return none)

/-- Accessors up to the closing brace, in at most so many turns. A turn that reads no token is the
last one. -/
def accessorsAtMost : Nat → Builder (List Ref)
  | 0 => return []
  | n + 1 => ifNext continuesBraces
      (do
        let before ← unread
        let found ← kept accessor
        let after ← unread
        if after = before then return found
        else
          let others ← accessorsAtMost n
          return found ++ others)
      (return [])

/-! ## Members -/

/-- The initializer of a constructor (`parse_constructor_initializer`). -/
def constructorInitializer : Builder Ref := node .constructorInitializer do
  let colon ← expect .colon
  let keyword ← ifNext (fun k => k == .baseKeyword || k == .thisKeyword) token
    (missing .expectedConstructorTarget)
  let arguments ← optionalArguments outerExpression
  return .initializer ⟨colon, keyword, arguments⟩

/-- A constructor from its name on (`parse_constructor_declaration`). -/
def constructor (m : Marker) (head : Head) : Builder Ref := close m .constructorDeclaration do
  let name ← expect .identifier
  let parameters ← parameterList
  let initializer ← ifNext (· == .colon) constructorInitializer (return none)
  let body ← memberBody
  return .constructor ⟨head.attributes, head.modifiers, name, parameters, initializer, body⟩

/-- A method from its name on (`parse_method_declaration`). -/
def method (m : Marker) (head : Head) (type : Ref) : Builder Ref := close m .methodDeclaration do
  let name ← expect .identifier
  let parameters ← parameterList
  let body ← memberBody
  return .method ⟨head.attributes, head.modifiers, type, name, parameters, body⟩

/-- What follows the name of a property: its accessors, its body and its initializer. -/
structure PropertyRest where
  accessors : List Ref
  body : Ref
  initializer : Ref

def accessorList : Builder PropertyRest := do
  let _ ← expect .openBrace
  let accessors ← look fun c => accessorsAtMost (c.rest.length - 1)
  let _ ← expect .closeBrace
  let initializer ← ifNext (· == .equals)
    (do
      let _ ← token
      let value ← outerExpression
      let _ ← expect .semicolon
      return value)
    (return none)
  return ⟨accessors, none, initializer⟩

/-- A property from its name on (`parse_property_declaration`). -/
def property (m : Marker) (head : Head) (type : Ref) : Builder Ref :=
    close m .propertyDeclaration do
  let name ← expect .identifier
  let rest ← ifNext (· == .equalsGreater)
    (do
      let clause ← arrowBody
      return ⟨[], clause, none⟩)
    accessorList
  return .property ⟨head.attributes, head.modifiers, type, name, rest.accessors, rest.body,
    rest.initializer⟩

/-- A field from its first name on (`parse_field_declaration`). -/
def field (m : Marker) (head : Head) (type : Ref) : Builder Ref := close m .fieldDeclaration do
  let names ← declarators outerExpression
  let _ ← expect .semicolon
  return .variableList ⟨head.attributes, head.modifiers, type, names⟩

/-- A declaration that breaks off (`finish_incomplete_member`). -/
def incomplete (m : Marker) (head : Head) (type : Ref) (problem : Problem) : Builder Ref := do
  report problem
  close m .incompleteMember (return .variableList ⟨head.attributes, head.modifiers, type, []⟩)

/-- A member from its name on, where the head and the type are read. -/
def namedMember (m : Marker) (head : Head) (type : Ref) : Builder Ref := look fun c =>
  if c.kind != .identifier then incomplete m head type .expectedMemberName
  else match c.peek 1 with
    | .openParen => method m head type
    | .openBrace | .equalsGreater => property m head type
    | _ => field m head type

/-- A member of a type with the given name (`parse_member_declaration`). `nested` reads a type from
its keyword on. -/
def member (nested : Marker → Head → Builder Ref) (typeName : Option (List Char)) :
    Builder Ref := do
  let m ← start
  let head ← declarationHead
  look fun c =>
    if c.kind.isTypeKeyword then nested m head
    else if startsConstructor typeName c then constructor m head
    else if startsType c.kind then do
      let type ← typeReference
      namedMember m head type
    else if head.isEmpty then return none
    else incomplete m head none .expectedMember

/-! ## Types -/

def baseList : Builder Ref := node .baseList do
  let _ ← expect .colon
  let types ← separated (fun _ => true) (kept typeReference)
  return .list types

/-- The members of a type in braces, if the opening brace stands there. -/
def members (memberOf : Builder Ref) : Builder (List Ref) :=
  ifNext (· == .openBrace)
    (do
      let _ ← token
      let members ← many continuesBraces (orSkip memberOf .expectedMember)
      let _ ← expect .closeBrace
      return members)
    (do
      report (.expected .openBrace)
      return [])

/-- A type from its name on, its attributes and modifiers left out. -/
def typeRest (memberOf : Option (List Char) → Builder Ref) : Builder TypeParts := look fun c => do
  let typeName := if c.kind == .identifier then some c.next.text else none
  let name ← expect .identifier
  let bases ← ifNext (· == .colon) baseList (return none)
  let members ← members (memberOf typeName)
  return ⟨none, none, name, bases, members⟩

/-- A type from its keyword on (`parse_type_declaration`). The types that nest are no more than
`unread`. -/
def typeDeclaration : (unread : Nat) → Marker → Head → Builder Ref
  | 0, _, _ => return none
  | n + 1, m, head => look fun c => close m (declarationKind c.kind) do
    let _ ← token
    let type ← typeRest (member (typeDeclaration n))
    return .type { type with attributes := head.attributes, modifiers := head.modifiers }

/-! ## Namespaces -/

/-- A namespace (`parse_namespace_declaration`); `inner` reads what may stand in it. -/
def namespaceDeclaration (inner : Builder Ref) : Builder Ref := node .namespaceDeclaration do
  let _ ← expect .namespaceKeyword
  let name ← qualifiedName
  let members ← ifNext (· == .semicolon)
    (do
      let _ ← token
      return [])
    (do
      let _ ← expect .openBrace
      let members ← many continuesBraces (orSkip inner .expectedDeclaration)
      let _ ← expect .closeBrace
      return members)
  return .space ⟨name, members⟩

def outerType : Builder Ref := do
  let m ← start
  let head ← declarationHead
  look fun c =>
    if c.kind.isTypeKeyword then typeDeclaration (c.rest.length - 1) m head
    else if head.isEmpty then return none
    else incomplete m head none .expectedTypeDeclaration

/-- A namespace or a type (`parse_namespace_member`). The namespaces that nest are no more than
`unread`. -/
def namespaceMember : (unread : Nat) → Builder Ref
  | 0 => return none
  | n + 1 => ifNext (· == .namespaceKeyword) (namespaceDeclaration (namespaceMember n)) outerType

end Caret.Builder
