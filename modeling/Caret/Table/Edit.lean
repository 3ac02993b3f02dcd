import Caret.Table.Basic
/-!
# Putting tables together

Tables that are not made from a text are put together entry by entry. A new entry has no parent
until one is set or a node adopts it (`adopt_children`). These are the steps of the parser's arena
too, as far as a table shows them.
-/

namespace Caret

/-- What a token holds: the text of a name, where one is given. -/
def Data.ofToken : TokenKind → (text : Option (List Char)) → Data
  | .identifier, some text => .name (plainName text)
  | _, _ => .none

namespace NodeTable

variable (t : NodeTable)

/-- The table with one more node, which has the given modifiers; these may be listed by entries that
stand in the table already, the new one included. -/
def addNode (kind : Kind) (span : Span) (modifiers : Option (List Ref)) (data : Data) :
    NodeTable :=
  let entry : Entry := { kind, span, parent := none, modifiers := .none, data }
  let t' := { t with entries := t.entries.push entry }
  let found := Modifiers.ofKinds ((modifiers.getD []).filterMap t'.token?)
  { t with entries := t.entries.push { entry with modifiers := found } }

/-- The table with one more token (`add_token`). -/
def addToken (kind : TokenKind) (span : Span) (text : Option (List Char)) : NodeTable :=
  let entry : Entry :=
    { kind := .token kind, span, parent := none, modifiers := .none, data := .ofToken kind text }
  { t with entries := t.entries.push entry, tokens := t.tokens.push t.entries.size }

/-- The table in which `parent` is the parent of all entries from `first` on that stand before it
and have no parent yet. -/
def adopt (first : Nat) (parent : Ref) : NodeTable :=
  let stop := parent.getD t.entries.size
  { t with entries := t.entries.mapIdx fun i e =>
      if first ≤ i && i < stop && e.parent.isNone then { e with parent } else e }

/-- The table in which an entry has the given parent, unless there is no such entry. -/
def setParent? (i : Ref) (parent : Ref) : Option NodeTable :=
  match i with
  | some n =>
    if n < t.entries.size then
      some { t with entries := t.entries.modify n fun e => { e with parent } }
    else none
  | none => none

/-- The table with `count` more nodes without text, each the child of the next. -/
def addChain (kind : Kind) (count : Nat) : NodeTable :=
  let entry (i : Nat) : Entry :=
    { kind, span := ⟨0, 0⟩, modifiers := .none, data := .none
      parent := if i + 1 < count then some (t.size + i + 1) else none }
  { t with entries := t.entries ++ ((List.range count).map entry).toArray }

def setRoot (root : Ref) : NodeTable := { t with root }

end NodeTable

end Caret
