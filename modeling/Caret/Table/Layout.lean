import Caret.Grammar.SourceFile
import Caret.Table.Basic
/-!
# Tables of trees

A tree is written into a table in post-order: the entries of the children, then the entry of the
node (`Tree.entries`). So the entries of a tree stand together, its root last, and the number of
every entry follows from the sizes of the trees before it. This is the table that a parser should
leave; the one that it does leave is made step by step (`NodeTable.ofText`).

`Tree.layout` computes the same entries in one pass (`Tree.layout_entries`).
-/

namespace Caret

namespace Tree

def leafEntry (parent : Ref) (t : Token) : Entry where
  kind := .token t.kind
  span := t.span
  parent := parent
  modifiers := .none
  data := if t.kind = .identifier then .name (Data.plainName t.text) else .none

/-- The entry of a node with the given children. -/
def nodeEntry (parent : Ref) (kind : NodeKind) (span : Span) (cs : List Child) : Entry where
  kind := .node kind
  span := span
  parent := parent
  modifiers := .ofKinds (Child.tokensIn cs .modifier)
  data := .ofChildren kind cs

/-- The children of a node, where their trees are written from `base` on. -/
def placed (base : Nat) : List Tree → List Child
  | [] => []
  | t :: ts => ⟨t.slot, t.kind, base + t.size - 1⟩ :: placed (base + t.size) ts

mutual

/-- The entries of a tree that is written from `base` on below `parent`. -/
def entries (parent : Ref) (base : Nat) : Tree → List Entry
  | leaf _ t => [leafEntry parent t]
  | node _ kind span children =>
    entriesAll (some (base + sizes children)) base children ++
      [nodeEntry parent kind span (placed base children)]

def entriesAll (parent : Ref) (base : Nat) : List Tree → List Entry
  | [] => []
  | t :: ts => entries parent base t ++ entriesAll parent (base + size t) ts

end

mutual

theorem length_entries (parent : Ref) (base : Nat) (t : Tree) :
    (t.entries parent base).length = t.size := by
  cases t with
  | leaf => simp [entries, size]
  | node _ _ _ children => simp [entries, size, length_entriesAll]

theorem length_entriesAll (parent : Ref) (base : Nat) (ts : List Tree) :
    (entriesAll parent base ts).length = sizes ts := by
  cases ts with
  | nil => simp [entriesAll, sizes]
  | cons t ts => simp [entriesAll, sizes, length_entries, length_entriesAll]

end

/-! ## One pass -/

/-- A piece of a table: its root, how many entries it has, and, for a parent, its entries and what
is to stand behind them. -/
structure Layout where
  size : Nat
  root : Child
  write : (parent : Ref) → (after : List Entry) → List Entry

/-- Pieces of a table one after the other. -/
structure Layouts where
  size : Nat
  roots : List Child
  write : (parent : Ref) → (after : List Entry) → List Entry

mutual

/-- A tree as a piece of a table from `base` on. -/
def layout (base : Nat) : Tree → Layout
  | leaf s t => ⟨1, ⟨s, .token t.kind, base⟩, fun parent after => leafEntry parent t :: after⟩
  | node s kind span children =>
    let cs := layoutAll base children
    ⟨cs.size + 1, ⟨s, .node kind, base + cs.size⟩, fun parent after =>
      cs.write (some (base + cs.size)) (nodeEntry parent kind span cs.roots :: after)⟩

def layoutAll (base : Nat) : List Tree → Layouts
  | [] => ⟨0, [], fun _ after => after⟩
  | t :: ts =>
    let first := layout base t
    let others := layoutAll (base + first.size) ts
    ⟨first.size + others.size, first.root :: others.roots,
      fun parent after => first.write parent (others.write parent after)⟩

end

mutual

theorem layout_eq (base : Nat) (t : Tree) :
    t.layout base = ⟨t.size, ⟨t.slot, t.kind, base + t.size - 1⟩,
      fun parent after => t.entries parent base ++ after⟩ := by
  cases t with
  | leaf => simp [layout, size, slot, kind, entries]
  | node _ _ _ children =>
    simp [layout, layoutAll_eq base children, size, slot, kind, entries]

theorem layoutAll_eq (base : Nat) (ts : List Tree) :
    layoutAll base ts = ⟨sizes ts, placed base ts,
      fun parent after => entriesAll parent base ts ++ after⟩ := by
  cases ts with
  | nil => simp [layoutAll, sizes, placed, entriesAll]
  | cons t ts =>
    simp [layoutAll, layout_eq base t, layoutAll_eq (base + t.size) ts, sizes, placed, entriesAll]

end

/-- What is computed in one pass are the entries of the tree. -/
theorem layout_entries (t : Tree) (parent : Ref) (base : Nat) :
    (t.layout base).write parent [] = t.entries parent base := by
  simp [layout_eq]

end Tree

namespace NodeTable

def ofTree (t : Tree) : NodeTable :=
  let entries := ((t.layout 0).write none []).toArray
  { entries
    tokens := (Array.range entries.size).filter fun i => (entries[i]?).any Entry.isToken
    root := some (entries.size - 1) }

theorem entries_ofTree (t : Tree) : (ofTree t).entries = (t.entries none 0).toArray := by
  simp [ofTree, Tree.layout_entries]

theorem root_ofTree (t : Tree) : (ofTree t).root = some (t.size - 1) := by
  simp [ofTree, Tree.layout_entries, Tree.length_entries]

/-- The table after reading a text of the given length again to its end: where no token is left, a
compilation unit without children is found. -/
def readOn (t : NodeTable) (length : Nat) : NodeTable :=
  { t with
    entries := t.entries.push
      { kind := .node .compilationUnit, span := ⟨length, length⟩, parent := none
        modifiers := .none, data := .list [] }
    root := some t.size }

end NodeTable

end Caret
