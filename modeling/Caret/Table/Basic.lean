import Caret.Table.Data
import Caret.Table.Modifiers
/-!
# Tables of nodes

A table holds the tokens and nodes of a syntax tree as numbered entries that refer to each other. It
is what can be asked of an arena, by `kind_of`, `parent`, `get_list`, `token_before` and the other
functions that look into one. The table of a text is what the parser leaves (`NodeTable.ofText`); a
table may also be put together entry by entry, and then nothing is certain: references may lead
nowhere, and parents may form a circle. Every question about a table has an answer all the same, and
walks along parents (`ancestors`) stop after `walkLimit` steps.
-/

namespace Caret

/-- A token or node in a table. -/
structure Entry where
  kind : Kind
  span : Span
  parent : Ref
  modifiers : Modifiers
  data : Data
deriving DecidableEq

namespace Entry

def isToken (e : Entry) : Bool := e.kind.token?.isSome

end Entry

structure NodeTable where
  entries : Array Entry
  /-- The numbers of the tokens, in the order of the text. -/
  tokens : Array Nat
  root : Ref

namespace NodeTable

def empty : NodeTable := ⟨#[], #[], none⟩

def size (t : NodeTable) : Nat := t.entries.size

/-! ## Entries -/

/-- The entry that a reference leads to. -/
def get? (t : NodeTable) (i : Ref) : Option Entry := i.bind fun n => t.entries[n]?

def kind? (t : NodeTable) (i : Ref) : Option Kind := (t.get? i).map (·.kind)

def token? (t : NodeTable) (i : Ref) : Option TokenKind := (t.kind? i).bind Kind.token?

def node? (t : NodeTable) (i : Ref) : Option NodeKind := (t.kind? i).bind Kind.node?

def parent (t : NodeTable) (i : Ref) : Ref := (t.get? i).bind (·.parent)

/-- The entry is an inner node whose kind has a property. -/
def isNode (t : NodeTable) (p : NodeKind → Bool) (i : Ref) : Bool := (t.node? i).any p

def modifiers (t : NodeTable) (i : Ref) : Modifiers :=
  ((t.get? i).map (·.modifiers)).getD .none

def isStatic (t : NodeTable) (i : Ref) : Bool := (t.modifiers i).has .staticKeyword

/-- One of the entries in a list of modifiers is a token of the given kind. -/
def listsToken (t : NodeTable) (list : Option (List Ref)) (k : TokenKind) : Bool :=
  (list.getD []).any fun i => t.token? i == some k

/-! ## Ancestors -/

/-- How many steps a walk along parents takes at most. -/
def walkLimit : Nat := 4096

/-- The first `steps` ancestors of an entry, the nearest first. -/
def walk (t : NodeTable) : (steps : Nat) → Ref → List Nat
  | 0, _ => []
  | n + 1, i =>
    match t.parent i with
    | none => []
    | some p => p :: t.walk n (some p)

def ancestors (t : NodeTable) (i : Ref) : List Nat := t.walk walkLimit i

def ancestor? (t : NodeTable) (i : Ref) (p : Kind → Bool) : Ref :=
  (t.ancestors i).find? fun a => (t.kind? (some a)).any p

def nodeAbove (t : NodeTable) (i : Ref) (p : NodeKind → Bool) : Ref :=
  t.ancestor? i (Kind.isNode p)

/-! ## Data -/

/-- The data of one shape in the table, in the order of the entries. -/
def dataOfShape (t : NodeTable) (s : Shape) : List Data :=
  (t.entries.toList.map (·.data)).filter (·.shape? == some s)

/-- How many entries before `i` hold data of one shape. -/
def rank (t : NodeTable) (s : Shape) (i : Nat) : Nat :=
  (t.entries.toList.take i).countP (·.data.shape? == some s)

/-- What an entry holds. Data are kept by shape, and an entry knows the place of its data among
those of their shape. So an entry whose kind asks for another shape than that of its own data
answers with the data at that place among those of the shape it asks for. -/
def data (t : NodeTable) (i : Ref) : Data :=
  match i, t.get? i with
  | some n, some e =>
    match e.kind.shape?, e.data.shape? with
    | some want, some own =>
      if want = own then e.data else ((t.dataOfShape want)[t.rank own n]?).getD .none
    | _, _ => .none
  | _, _ => .none

def name? (t : NodeTable) (i : Ref) : Option (List Char) :=
  match t.data i with | .name text => some text | _ => none

def list? (t : NodeTable) (i : Ref) : Option (List Ref) :=
  match t.data i with | .list items => some items | _ => none

def space? (t : NodeTable) (i : Ref) : Option NamespaceParts :=
  match t.data i with | .space parts => some parts | _ => none

def type? (t : NodeTable) (i : Ref) : Option TypeParts :=
  match t.data i with | .type parts => some parts | _ => none

def method? (t : NodeTable) (i : Ref) : Option MethodParts :=
  match t.data i with | .method parts => some parts | _ => none

def constructor? (t : NodeTable) (i : Ref) : Option ConstructorParts :=
  match t.data i with | .constructor parts => some parts | _ => none

/-- The parts of a field, of a declaration of locals, or of an incomplete member. -/
def variableList? (t : NodeTable) (i : Ref) : Option VariableParts :=
  match t.data i with | .variableList parts => some parts | _ => none

def declarator? (t : NodeTable) (i : Ref) : Option DeclaratorParts :=
  match t.data i with | .declarator parts => some parts | _ => none

def property? (t : NodeTable) (i : Ref) : Option PropertyParts :=
  match t.data i with | .property parts => some parts | _ => none

def parameter? (t : NodeTable) (i : Ref) : Option ParameterParts :=
  match t.data i with | .parameter parts => some parts | _ => none

def typeReference? (t : NodeTable) (i : Ref) : Option TypeReferenceParts :=
  match t.data i with | .typeReference parts => some parts | _ => none

def operation? (t : NodeTable) (i : Ref) : Option OperationParts :=
  match t.data i with | .operation parts => some parts | _ => none

/-- The name that a namespace, type, method, constructor or property declares
(`declaration_name`). -/
def declaredName? (t : NodeTable) (i : Ref) : Option (List Char) :=
  match t.data i with
  | .space parts => t.name? parts.name
  | .type parts => t.name? parts.name
  | .method parts => t.name? parts.name
  | .constructor parts => t.name? parts.name
  | .property parts => t.name? parts.name
  | _ => none

/-! ## Tokens -/

/-- Where in the sorted numbers from `base` on the predicate stops holding, found by halving: of
`size` numbers those in the half that cannot hold the place are left out. -/
def bisect (p : Nat → Bool) : (steps : Nat) → (base size : Nat) → Nat
  | 0, base, _ => base
  | n + 1, base, size =>
    if size ≤ 1 then if p base then base + 1 else base
    else
      let half := size / 2
      bisect p n (if p (base + half) then base + half else base) (size - half)

/-- The last token that starts before an offset (`token_before`). -/
def tokenBefore (t : NodeTable) (offset : Nat) : Ref :=
  let startsBefore (place : Nat) : Bool :=
    (t.get? t.tokens[place]?).any fun e => e.span.start < offset
  match t.tokens.size with
  | 0 => none
  | size =>
    match bisect startsBefore size 0 size with
    | 0 => none
    | n + 1 => t.tokens[n]?

/-- The token before a token (`previous_token`). -/
def previousToken (t : NodeTable) (i : Ref) : Ref :=
  match t.get? i with
  | some e => if e.isToken then t.tokenBefore e.span.start else none
  | none => none

end NodeTable

end Caret
