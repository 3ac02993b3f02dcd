import Caret.Context.Syntax
import Caret.Types.Model
/-!
# The types of a text

Binding (`bind`) gives a number to every named type that a table declares, in the order of the
entries. A type reference is resolved by its name (`resolve_type_reference`), innermost scope first:
among the types declared right in each type, namespace and file around it, and at last to the first
type of that name. Arrays and qualifiers are not told apart.
-/

namespace Caret

structure DeclaredType where
  name : List Char
  kind : TypeKind
  declaration : Nat
deriving DecidableEq

/-- The named types of a table in order. -/
structure Binding where
  table : NodeTable
  types : List DeclaredType

namespace NodeTable

def declaredKind? : NodeKind → Option TypeKind
  | .classDeclaration => some .classType
  | .structDeclaration => some .structType
  | .interfaceDeclaration => some .interfaceType
  | _ => none

def declaredType? (t : NodeTable) (i : Nat) : Option DeclaredType := do
  let kind ← declaredKind? (← t.node? (some i))
  let name ← t.declaredName? (some i)
  return ⟨name, kind, i⟩

end NodeTable

namespace Binding

/-- The named types of a table. -/
def ofTable (t : NodeTable) : Binding := ⟨t, (List.range t.size).filterMap t.declaredType?⟩

/-- After how many entries binding polls again. -/
def pollInterval : Nat := 1024

/-- The binding of a table, unless the request is cancelled meanwhile. -/
def bind (t : NodeTable) : Request (Except ModelError Binding) := do
  if ← Request.pollTimes ((t.size + pollInterval - 1) / pollInterval) then
    return .error .cancelled
  else return .ok (ofTable t)

/-! ## Look-ups -/

/-- The identity of the type at a place of the list. -/
def idAt (place : Nat) : TypeId := ⟨TypeId.firstDeclared + place⟩

/-- The type at the place that an identity stands for. -/
def declared? (b : Binding) (id : TypeId) : Option DeclaredType :=
  if id.isIntrinsic then none else b.types[id.number - TypeId.firstDeclared]?

def ids (b : Binding) : List TypeId := (List.range b.types.length).map idAt

def ofDeclaration? (b : Binding) (declaration : Ref) : Option TypeId :=
  (b.types.findIdx? fun d => some d.declaration == declaration).map idAt

def lookup? (b : Binding) (name : List Char) : Option TypeId :=
  (b.types.findIdx? fun d => d.name == name).map idAt

def kind? (b : Binding) (id : TypeId) : Option TypeKind :=
  if id.isIntrinsic then id.intrinsicName?.map fun _ => .intrinsic
  else (b.declared? id).map (·.kind)

def declaration? (b : Binding) (id : TypeId) : Option Nat := (b.declared? id).map (·.declaration)

def typeName? (b : Binding) (id : TypeId) : Option (List Char) :=
  if id.isIntrinsic then id.intrinsicName? else (b.declared? id).map (·.name)

/-! ## Scopes -/

/-- The members of a scope: a type, a namespace or a file. -/
def membersOf (t : NodeTable) (scope : Ref) : List Ref :=
  match t.node? scope with
  | some .namespaceDeclaration => ((t.space? scope).map (·.members)).getD []
  | some .compilationUnit => (t.list? scope).getD []
  | some k =>
    if k.isTypeDeclaration then ((t.type? scope).map (·.members)).getD [] else []
  | none => []

/-- The first type with a name among the members of a scope. -/
def typeIn (t : NodeTable) (name : List Char) (scope : Ref) : Option Ref :=
  (membersOf t scope).find? fun m =>
    t.isNode NodeKind.isTypeDeclaration m && t.declaredName? m == some name

/-- The type that a name means at an entry (`lookup_in_scope`). -/
def lookupFrom (b : Binding) (entry : Ref) (name : List Char) : Option TypeId :=
  match (b.table.ancestors entry).findSome? fun scope => typeIn b.table name (some scope) with
  | some declaration => b.ofDeclaration? declaration
  | none => b.lookup? name

/-- The type that a type reference names. -/
def resolve (b : Binding) (reference : Ref) : Option TypeId :=
  match b.table.typeReference? reference with
  | none => none
  | some parts =>
    if parts.isArray then none
    else match (b.table.token? parts.name).bind TypeId.ofPredefined? with
      | some id => some id
      | none => (b.table.name? parts.name).bind (b.lookupFrom reference)

def enclosing (b : Binding) (offset : Nat) : Option TypeId :=
  match b.table.tokenBefore offset with
  | none => none
  | token => b.ofDeclaration? (b.table.containingType token)

/-- What the binding knows, as a model. -/
def model (b : Binding) : Model where
  enclosing offset := do
    if ← Request.poll then return .error .cancelled else return .ok (b.enclosing offset)
  resolve reference := do
    if ← Request.poll then return .error .cancelled else return .ok (b.resolve reference)
  typeName := b.typeName?

end Binding

end Caret
