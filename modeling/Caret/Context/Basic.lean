import Caret.Completion.Error
import Caret.Context.Expected
/-!
# The context of a caret

All that recommenders look at (`SyntaxContext`), gathered once for a place: the tokens before it,
what may stand there, and the types that an expression there is expected to have.
-/

namespace Caret

structure Context where
  table : NodeTable
  model : Model
  /-- The offset of the caret. -/
  offset : Nat
  /-- The last token that starts before the caret. -/
  left : Ref
  /-- The token that decides what may follow: `left`, or the one before it if `left` is a word
  that the caret touches. -/
  target : Ref
  inInstance : Bool
  /-- An expression outside of attributes may start here. -/
  allowsExpression : Bool
  allowsStatement : Bool
  containingType : Ref
  /-- The types that an expression here is expected to have. -/
  inferred : List TypeId

namespace Context

def targetKind (c : Context) : Option TokenKind := c.table.token? c.target

/-- The expected types, where the given type reference tells them (`infer_expected_types`): an
unresolved reference, and one to the type of no value, tell nothing. -/
def inferFrom (model : Model) (reference : Ref) :
    Request (Except CompletionError (List TypeId)) := do
  if reference.isNone then return .ok []
  return (observe (← model.askResolve reference)).map fun id =>
    (id.filter (· != TypeId.void)).toList

/-- The context of a place, or the fault of the model. If the request is cancelled meanwhile, no
type is expected. -/
def build (table : NodeTable) (model : Model) (offset : Nat) :
    Request (Except CompletionError Context) := do
  let left := table.tokenBefore offset
  let target := table.beforeTouchedWord left offset
  let declaration := table.containingType target
  let expression := table.allowsExpression target
  let inferred ←
    if expression then inferFrom model (table.expectedType declaration target)
    else pure (.ok [])
  return inferred.map fun inferred =>
    { table, model, offset, left, target
      inInstance := table.inInstance target
      allowsExpression := expression && !table.inAttribute target
      allowsStatement := table.allowsStatement target
      containingType := declaration
      inferred }

end Context

end Caret
