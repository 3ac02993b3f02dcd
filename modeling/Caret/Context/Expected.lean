import Caret.Context.Syntax
import Caret.Text.Offset
/-!
# The expected type

Where an expression is assigned or returned its type is declared somewhere. `expectedType` finds the
type reference that gives the type expected after a token (`expected_type_node`): the type of the
variable or property after its `=`, the type of the member after `return` and `=>`, and the declared
type of the target after the `=` of an assignment.
-/

namespace Caret.NodeTable

variable (t : NodeTable)

def resultType (member : Ref) : Ref :=
  match t.node? member with
  | some .methodDeclaration => (t.method? member).bind (·.type)
  | some .propertyDeclaration => (t.property? member).bind (·.type)
  | _ => none

/-! ## Targets of assignments -/

def declaresVariable (declaration : Ref) (name : List Char) : Bool :=
  ((t.variableList? declaration).map (·.declarators)).getD [] |>.any fun d =>
    (t.declarator? d).any fun parts => t.name? parts.name == some name

/-- The type of the variables of a declaration, if one has the given name. -/
def variableType (declaration : Ref) (name : List Char) : Ref :=
  if t.declaresVariable declaration name then (t.variableList? declaration).bind (·.type) else none

/-- The type of a local variable of the given name among statements, up to the first statement that
does not start before the offset. -/
def localIn (name : List Char) (offset : Nat) (statements : List Ref) : Ref :=
  (statements.takeWhile fun s => (t.get? s).any fun e => e.span.start < offset).findSome?
    fun s => t.variableType s name

def parametersOf (member : Ref) : List Ref :=
  let list := match t.method? member with
    | some parts => parts.parameters
    | none => (t.constructor? member).bind (·.parameters)
  (t.list? list).getD []

def parameterType (name : List Char) (member : Ref) : Ref :=
  ((t.parametersOf member).findSome? fun p =>
    (t.parameter? p).filter fun parts => t.name? parts.name == some name).bind (·.type)

/-- The type of the local variable or parameter that a name means, given what is around it
(`local_type_by_name`). -/
def localAmong (name : List Char) (offset : Nat) : (ancestors : List Nat) → Ref
  | [] => none
  | a :: rest =>
    match t.node? (some a) with
    | some .block =>
      match t.localIn name offset ((t.list? (some a)).getD []) with
      | some type => some type
      | none => localAmong name offset rest
    | some .methodDeclaration | some .constructorDeclaration => t.parameterType name (some a)
    | some .classDeclaration | some .structDeclaration | some .interfaceDeclaration => none
    | _ => localAmong name offset rest

def localType (entry : Ref) (name : List Char) : Ref :=
  (t.get? entry).bind fun e => t.localAmong name e.span.start (t.ancestors entry)

/-- What a member says about the type of a name: a field that declares it and any property of that
name give an answer. -/
def memberTypeIn (name : List Char) (member : Ref) : Option Ref :=
  match t.node? member with
  | some .fieldDeclaration => (t.variableType member name).map some
  | some .propertyDeclaration =>
    ((t.property? member).filter fun parts => t.name? parts.name == some name).map (·.type)
  | _ => none

def memberType (declaration : Ref) (name : List Char) : Ref :=
  ((((t.type? declaration).map (·.members)).getD []).findSome? (t.memberTypeIn name)).join

/-- The name that a name expression consists of (`name_of_identifier_name`). -/
def nameOf (entry : Ref) : Option (List Char) :=
  (t.get? entry).bind fun e =>
    let token := t.tokenBefore (Offset.next e.span.start)
    if t.parent token == entry then t.name? token else none

/-- The declared type of the target `x` or `this.x` of an assignment, inside the given type
(`declared_type_of_target`). -/
def targetType (declaration target : Ref) : Ref :=
  match t.node? target with
  | some .identifierName =>
    (t.nameOf target).bind fun name =>
      match t.localType target name with
      | some type => some type
      | none => t.memberType declaration name
  | some .memberAccessExpression =>
    (t.operation? target).bind fun access =>
      if t.node? access.left == some .thisExpression then
        (t.nameOf access.right).bind (t.memberType declaration)
      else none
  | _ => none

/-! ## The place after a token -/

/-- The type reference that gives the type expected after a token, inside the given type. -/
def expectedType (declaration token : Ref) : Ref :=
  let parent := t.parent token
  match t.token? token, t.node? parent with
  | some .equals, some .variableDeclarator => (t.variableList? (t.parent parent)).bind (·.type)
  | some .equals, some .propertyDeclaration => (t.property? parent).bind (·.type)
  | some .equals, some .assignmentExpression =>
    (t.operation? parent).bind fun parts => t.targetType declaration parts.left
  | some .returnKeyword, some .returnStatement => t.resultType (t.containingMember token)
  | some .equalsGreater, some .arrowExpressionClause =>
    let owner := t.parent parent
    if t.node? owner == some .accessorDeclaration then t.resultType (t.parent owner)
    else t.resultType owner
  | _, _ => none

end Caret.NodeTable
