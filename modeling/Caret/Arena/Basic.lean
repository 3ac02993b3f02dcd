import Caret.Table.Edit
/-!
# Arenas

The parser does not fill a table but an arena. An entry of an arena is a thin header; its parent
and its modifiers stand apart from it, and so do its data, in one pool for each shape: the header
only knows their place there. Entries come one after the other (`push_node`), tokens by
`addToken` and nodes by `addNode`, which stands for all functions that add a node, and a node that
is added then adopts what came since it began (`adopt_children`).

`Arena.table` is what can be asked of an arena.
-/

namespace Caret

/-- The parent and the modifiers of an entry, which stand apart from its header. -/
structure Info where
  parent : Ref
  modifiers : Modifiers

structure Header where
  kind : Kind
  span : Span
  /-- The place of the data in the pool for their shape. -/
  place : Option Nat

/-! ## Pools -/

/-- Data, each shape in a pool of its own. -/
structure Pools where
  names : Array (List Char)
  lists : Array (List Ref)
  spaces : Array NamespaceParts
  types : Array TypeParts
  methods : Array MethodParts
  constructors : Array ConstructorParts
  initializers : Array InitializerParts
  variableLists : Array VariableParts
  declarators : Array DeclaratorParts
  properties : Array PropertyParts
  accessors : Array AccessorParts
  parameters : Array ParameterParts
  typeReferences : Array TypeReferenceParts
  operations : Array OperationParts
  calls : Array CallParts
  wrapped : Array Ref

namespace Pools

def empty : Pools :=
  ⟨#[], #[], #[], #[], #[], #[], #[], #[], #[], #[], #[], #[], #[], #[], #[], #[]⟩

def count (p : Pools) : Shape → Nat
  | .name => p.names.size
  | .list => p.lists.size
  | .space => p.spaces.size
  | .type => p.types.size
  | .method => p.methods.size
  | .constructor => p.constructors.size
  | .initializer => p.initializers.size
  | .variableList => p.variableLists.size
  | .declarator => p.declarators.size
  | .property => p.properties.size
  | .accessor => p.accessors.size
  | .parameter => p.parameters.size
  | .typeReference => p.typeReferences.size
  | .operation => p.operations.size
  | .call => p.calls.size
  | .wrapped => p.wrapped.size

def get? (p : Pools) (s : Shape) (n : Nat) : Option Data :=
  match s with
  | .name => p.names[n]?.map .name
  | .list => p.lists[n]?.map .list
  | .space => p.spaces[n]?.map .space
  | .type => p.types[n]?.map .type
  | .method => p.methods[n]?.map .method
  | .constructor => p.constructors[n]?.map .constructor
  | .initializer => p.initializers[n]?.map .initializer
  | .variableList => p.variableLists[n]?.map .variableList
  | .declarator => p.declarators[n]?.map .declarator
  | .property => p.properties[n]?.map .property
  | .accessor => p.accessors[n]?.map .accessor
  | .parameter => p.parameters[n]?.map .parameter
  | .typeReference => p.typeReferences[n]?.map .typeReference
  | .operation => p.operations[n]?.map .operation
  | .call => p.calls[n]?.map .call
  | .wrapped => p.wrapped[n]?.map .wrapped

/-- The pools with data added to the pool for their shape. -/
def push (p : Pools) : Data → Pools
  | .none => p
  | .name text => { p with names := p.names.push text }
  | .list items => { p with lists := p.lists.push items }
  | .space parts => { p with spaces := p.spaces.push parts }
  | .type parts => { p with types := p.types.push parts }
  | .method parts => { p with methods := p.methods.push parts }
  | .constructor parts => { p with constructors := p.constructors.push parts }
  | .initializer parts => { p with initializers := p.initializers.push parts }
  | .variableList parts => { p with variableLists := p.variableLists.push parts }
  | .declarator parts => { p with declarators := p.declarators.push parts }
  | .property parts => { p with properties := p.properties.push parts }
  | .accessor parts => { p with accessors := p.accessors.push parts }
  | .parameter parts => { p with parameters := p.parameters.push parts }
  | .typeReference parts => { p with typeReferences := p.typeReferences.push parts }
  | .operation parts => { p with operations := p.operations.push parts }
  | .call parts => { p with calls := p.calls.push parts }
  | .wrapped expression => { p with wrapped := p.wrapped.push expression }

end Pools

/-- The modifiers that data list, where they list any. -/
def Data.modifiers? : Data → Option (List Ref)
  | .type parts => parts.modifiers
  | .method parts => parts.modifiers
  | .constructor parts => parts.modifiers
  | .variableList parts => parts.modifiers
  | .property parts => parts.modifiers
  | .accessor parts => parts.modifiers
  | .parameter parts => parts.modifiers
  | _ => .none

/-! ## Arenas -/

structure Arena where
  headers : Array Header
  infos : Array Info
  /-- The numbers of the tokens, in the order of the text. -/
  tokens : Array Nat
  pools : Pools
  root : Ref

namespace Arena

def empty : Arena := ⟨#[], #[], #[], .empty, none⟩

def size (a : Arena) : Nat := a.headers.size

def token? (a : Arena) (i : Ref) : Option TokenKind :=
  (i.bind fun n => a.headers[n]?).bind fun h => h.kind.token?

/-- The arena with one more entry, which has no parent and no modifiers (`push_node`). -/
def push (a : Arena) (kind : Kind) (span : Span) (data : Data) : Arena :=
  { a with
    headers := a.headers.push ⟨kind, span, data.shape?.map a.pools.count⟩
    infos := a.infos.push ⟨none, .none⟩
    pools := a.pools.push data }

/-- The arena in which an entry has the modifiers that are listed (`set_modifier_flags`). -/
def flag (a : Arena) (i : Nat) (listed : Option (List Ref)) : Arena :=
  let found := Modifiers.ofKinds ((listed.getD []).filterMap a.token?)
  { a with infos := a.infos.modify i fun info => { info with modifiers := found } }

/-- The arena with one more token (`add_token`). -/
def addToken (a : Arena) (kind : TokenKind) (span : Span) (text : Option (List Char)) : Arena :=
  { a.push (.token kind) span (.ofToken kind text) with tokens := a.tokens.push a.size }

def addNode (a : Arena) (kind : NodeKind) (span : Span) (data : Data) : Arena :=
  (a.push (.node kind) span data).flag a.size data.modifiers?

/-- An entry below a parent, unless it has one already. -/
def Info.adoptedBy (parent : Ref) (info : Info) : Info :=
  if info.parent.isNone then { info with parent } else info

/-- The arena in which `parent` is the parent of all entries from `first` on that stand before it
and have no parent yet (`adopt_children`). -/
def adopt (a : Arena) (first : Nat) (parent : Ref) : Arena :=
  let stop := min (parent.getD a.infos.size) a.infos.size
  { a with
    infos := (List.range' first (stop - first)).foldl
      (fun infos i => infos.modify i (Info.adoptedBy parent)) a.infos }

/-! ## What can be asked of an arena -/

/-- What an entry holds: the data at its place in the pool that belongs to its kind. -/
def data (pools : Pools) (h : Header) : Data :=
  match h.kind.shape?, h.place with
  | some s, some n => (pools.get? s n).getD .none
  | _, _ => .none

def entry (pools : Pools) (h : Header) (info : Info) : Entry where
  kind := h.kind
  span := h.span
  parent := info.parent
  modifiers := info.modifiers
  data := data pools h

/-- The arena as a table. -/
def table (a : Arena) : NodeTable where
  entries := Array.zipWith (entry a.pools) a.headers a.infos
  tokens := a.tokens
  root := a.root

end Arena

end Caret
