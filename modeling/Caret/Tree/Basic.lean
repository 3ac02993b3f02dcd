import Caret.Token.Scan
import Caret.Tree.Kind
/-!
# Syntax trees

The leaves of a syntax tree are tokens, so the leaves in order are the text without its gaps
(`Tree.tokens`). Each tree knows the slot that it fills in its parent; what a node holds in its
slots can be read off its children, so slots and children cannot disagree.
-/

namespace Caret

/-- The part that a tree plays in its parent. A `loose` tree plays none: punctuation, the words
that only introduce a construct, and whatever was skipped to go on after an error. -/
inductive Slot where
  | loose | attribute | modifier | name | type | bases | member | item | parameters
  | initializer | body | colon | keyword | arguments | declarator | accessor | left | operator
  | right | expression
deriving DecidableEq

/-- A syntax tree, with the slot of the parent that it fills. -/
inductive Tree where
  | leaf (slot : Slot) (token : Token)
  | node (slot : Slot) (kind : NodeKind) (span : Span) (children : List Tree)

namespace Tree

def slot : Tree → Slot
  | leaf s _ => s
  | node s _ _ _ => s

def withSlot (s : Slot) : Tree → Tree
  | leaf _ t => leaf s t
  | node _ k span children => node s k span children

/-- The kind of the root of a tree. -/
def kind : Tree → Kind
  | leaf _ t => .token t.kind
  | node _ k _ _ => .node k

def span : Tree → Span
  | leaf _ t => t.span
  | node _ _ s _ => s

def children : Tree → List Tree
  | leaf _ _ => []
  | node _ _ _ cs => cs

mutual

/-- The number of leaves and nodes of a tree. -/
def size : Tree → Nat
  | leaf _ _ => 1
  | node _ _ _ children => sizes children + 1

def sizes : List Tree → Nat
  | [] => 0
  | t :: ts => size t + sizes ts

end

mutual

/-- The leaves of a tree in order. -/
def tokens : Tree → List Token
  | leaf _ t => [t]
  | node _ _ _ children => tokensAll children

def tokensAll : List Tree → List Token
  | [] => []
  | t :: ts => tokens t ++ tokensAll ts

end

@[simp] theorem slot_withSlot (s : Slot) (t : Tree) : (t.withSlot s).slot = s := by
  cases t <;> rfl

@[simp] theorem kind_withSlot (s : Slot) (t : Tree) : (t.withSlot s).kind = t.kind := by
  cases t <;> rfl

@[simp] theorem children_withSlot (s : Slot) (t : Tree) :
    (t.withSlot s).children = t.children := by
  cases t <;> rfl

@[simp] theorem size_withSlot (s : Slot) (t : Tree) : (t.withSlot s).size = t.size := by
  cases t <;> simp [withSlot, size]

@[simp] theorem tokens_withSlot (s : Slot) (t : Tree) : (t.withSlot s).tokens = t.tokens := by
  cases t <;> simp [withSlot, tokens]

theorem eq_node_of_kind {t : Tree} {k : NodeKind} (h : t.kind = .node k) :
    ∃ slot span ts, t = .node slot k span ts := by
  cases t with
  | leaf => cases h
  | node slot k span ts =>
    cases h
    exact ⟨slot, span, ts, rfl⟩

theorem size_pos (t : Tree) : 0 < t.size := by
  cases t <;> simp [size]

theorem sizes_append (ts us : List Tree) : sizes (ts ++ us) = sizes ts + sizes us := by
  induction ts with
  | nil => simp [sizes]
  | cons t ts ih => simp [sizes, ih, Nat.add_assoc]

theorem tokensAll_append (ts us : List Tree) :
    tokensAll (ts ++ us) = tokensAll ts ++ tokensAll us := by
  induction ts with
  | nil => simp [tokensAll]
  | cons t ts ih => simp [tokensAll, ih]

end Tree

end Caret
