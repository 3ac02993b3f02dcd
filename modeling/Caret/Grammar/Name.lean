import Caret.Grammar.Parser
/-!
# Names and type references

What `parse_qualified_name` and `parse_type` read. Qualified names stand for their last part, which
alone fills the slot `name`.
-/

namespace Caret.Grammar

open Caret.Parser

def startsType (k : TokenKind) : Bool := k == .identifier || k.isPredefinedType

/-- The tokens that follow `count` more are a dot and a name. -/
def dotNameAt (c : Cursor) (count : Nat) : Bool :=
  c.peek count == .dot && c.peek (count + 1) == .identifier

/-- Further parts `.B` of a qualified name, at most one for each of `unread`. -/
def dottedAtMost : (unread : List Token) → Parser
  | [] => nothing
  | _ :: unread => look fun c =>
    if dotNameAt c 0 then take ++ take ++ dottedAtMost unread else nothing

def dotted : Parser := look fun c => dottedAtMost c.rest

def qualifiedName : Parser := (expect .identifier ++ dotted).into .name

def arrayBrackets : Parser := look fun c =>
  if c.peek 0 == .openBracket && c.peek 1 == .closeBracket then take ++ take else nothing

/-- A type reference: a built-in type or a qualified name, or an array of one of them. -/
def typeReference : Parser := look fun c =>
  if c.kind.isPredefinedType then node .typeReference (take.into .name ++ arrayBrackets)
  else if c.kind == .identifier then
    node .typeReference ((take ++ dotted).into .name ++ arrayBrackets)
  else report .expectedType

end Caret.Grammar
