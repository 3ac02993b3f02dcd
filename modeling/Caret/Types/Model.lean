import Caret.Request
import Caret.Table.Basic
import Caret.Types.Id
/-!
# Type models

Completion asks a type model (`SemanticModel`) three questions. A model may fail to answer, or
notice that the request is cancelled.
-/

namespace Caret

inductive ModelError where
  | cancelled
  | fault (message : String)
deriving DecidableEq

def ModelError.message : ModelError → String
  | .cancelled => "semantic query cancelled"
  | .fault message => "semantic model fault: " ++ message

abbrev TypeAnswer := Except ModelError (Option TypeId)

/-- What is known about the types of a text. -/
structure Model where
  /-- The named type around an offset. -/
  enclosing : Nat → Request TypeAnswer
  /-- The type that a type reference names. -/
  resolve : Ref → Request TypeAnswer
  /-- The name of a type. -/
  typeName : TypeId → Option (List Char)

namespace Model

def askEnclosing (m : Model) (offset : Nat) : Request TypeAnswer := do
  modify fun s => { s with enclosingAsked := s.enclosingAsked + 1 }
  m.enclosing offset

def askResolve (m : Model) (reference : Ref) : Request TypeAnswer := do
  modify fun s => { s with resolveAsked := s.resolveAsked + 1 }
  m.resolve reference

/-- The model with set answers in place of its own, where some are given. -/
def scripted (m : Model) (enclosing resolve : Option TypeAnswer) : Model where
  enclosing offset := match enclosing with | some a => pure a | none => m.enclosing offset
  resolve reference := match resolve with | some a => pure a | none => m.resolve reference
  typeName := m.typeName

end Model

end Caret
