import Caret.Token.Kind
/-!
# Type identities

Built-in types have fixed numbers; the types that a text declares are numbered from
`TypeId.firstDeclared` on.
-/

namespace Caret

structure TypeId where
  number : Nat
deriving DecidableEq

namespace TypeId

/-- The type of no value. -/
def void : TypeId := ⟨0⟩

/-- The number of the first type that a text declares. -/
def firstDeclared : Nat := 100

/-- The number is one of those kept for built-in types. -/
def isIntrinsic (id : TypeId) : Bool := id.number < firstDeclared

def ofPredefined? : TokenKind → Option TypeId
  | .voidKeyword => some void
  | .intKeyword => some ⟨1⟩
  | .stringKeyword => some ⟨2⟩
  | .boolKeyword => some ⟨3⟩
  | .objectKeyword => some ⟨4⟩
  | .doubleKeyword => some ⟨5⟩
  | _ => none

def keyword? (id : TypeId) : Option TokenKind :=
  TokenKind.all.find? fun k => ofPredefined? k == some id

def intrinsicName? (id : TypeId) : Option (List Char) := id.keyword?.map TokenKind.spelling

theorem isSome_ofPredefined? (k : TokenKind) :
    (ofPredefined? k).isSome = k.isPredefinedType := by
  cases k <;> rfl

end TypeId

inductive TypeKind where
  | intrinsic | classType | structType | interfaceType
deriving DecidableEq

def TypeKind.name : TypeKind → String
  | .intrinsic => "intrinsic"
  | .classType => "class"
  | .structType => "struct"
  | .interfaceType => "interface"

def TypeKind.all : List TypeKind := [.intrinsic, .classType, .structType, .interfaceType]

end Caret
