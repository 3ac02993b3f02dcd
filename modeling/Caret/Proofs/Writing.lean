import Caret.Proofs.Outline
import Caret.Proofs.CleanText
import Mathlib.Data.List.Forall2
/-!
# Written expressions

Expressions as trees of their own, the words that write them, and the outlines of the syntax trees
that stand for them. The words tell the tree if the grouping is explicit wherever precedence and
association ask for it (`Expression.Grouped`): no word is added in writing, so parentheses are nodes
of the tree.

`NodeTable.Mirrors` says that the typed data of an entry are those of an expression: the same kinds,
operators, names and arguments in the same order.
-/

namespace Caret

/-! ## Names and types -/

/-- A name as it may be written. -/
abbrev Identifier := { text : List Char // Word.Stands (.identifier, text) }

def Identifier.word (x : Identifier) : Word := (.identifier, x.1)

/-- The name of a type: a built-in type, or a qualified name. -/
inductive TypeName where
  | builtIn (keyword : { k : TokenKind // k.isPredefinedType })
  | named (first : Identifier) (more : List Identifier)

/-- A type: a named type or an array of it. -/
structure WrittenType where
  name : TypeName
  isArray : Bool

def TypeName.words : TypeName → List Word
  | builtIn k => [k.1.word]
  | named first more => first.word :: more.flatMap fun x => [TokenKind.dot.word, x.word]

namespace WrittenType

def brackets (T : WrittenType) : List Word :=
  if T.isArray then [TokenKind.openBracket.word, TokenKind.closeBracket.word] else []

def words (T : WrittenType) : List Word := T.name.words ++ T.brackets

/-- The last part of the name stands for the type. -/
def outline (T : WrittenType) : Outline :=
  .node .loose .typeReference
    (Outline.lastInto .name (T.name.words.map (.leaf .loose)) ++ T.brackets.map (.leaf .loose))

end WrittenType

/-! ## Expressions -/

/-- A literal as it may be written. -/
abbrev Literal := { w : Word // w.1.isLiteral ∧ w.Stands }

/-- An expression, parentheses included. -/
inductive Expression where
  | name (x : Identifier)
  | builtIn (keyword : { k : TokenKind // k.isPredefinedType ∧ k ≠ .voidKeyword })
  | this
  | base
  | literal (value : Literal)
  | parenthesized (inner : Expression)
  | signed (sign : { k : TokenKind // k.isSign }) (operand : Expression)
  | binary (operator : { k : TokenKind // k.precedence?.isSome }) (left right : Expression)
  | assignment (operator : { k : TokenKind // k.isAssignment }) (left right : Expression)
  | access (base : Expression) (member : Identifier)
  | call (base : Expression) (arguments : List Expression)
  | bareCreation (type : WrittenType)
  | creation (type : WrittenType) (arguments : List Expression)

namespace Expression

/-- The words of some arguments, between parentheses. -/
def argumentWords (arguments : List (List Word)) : List Word :=
  TokenKind.openParen.word :: (commaWords arguments ++ [TokenKind.closeParen.word])

mutual

/-- The words of the expression in order. -/
def words : Expression → List Word
  | name x => [x.word]
  | builtIn k => [k.1.word]
  | this => [TokenKind.thisKeyword.word]
  | base => [TokenKind.baseKeyword.word]
  | literal w => [w.1]
  | parenthesized e => TokenKind.openParen.word :: (words e ++ [TokenKind.closeParen.word])
  | signed k e => k.1.word :: words e
  | binary k l r => words l ++ k.1.word :: words r
  | assignment k l r => words l ++ k.1.word :: words r
  | access e x => words e ++ [TokenKind.dot.word, x.word]
  | call e args => words e ++ argumentWords (wordsAll args)
  | bareCreation T => TokenKind.newKeyword.word :: T.words
  | creation T args => TokenKind.newKeyword.word :: (T.words ++ argumentWords (wordsAll args))

def wordsAll : List Expression → List (List Word)
  | [] => []
  | e :: es => words e :: wordsAll es

end

/-- The outline of a node that consists of one token. -/
def single (k : NodeKind) (w : Word) : Outline := .node .loose k [.leaf .loose w]

/-- The outline of arguments in parentheses. -/
def argumentOutline (arguments : List Outline) : Outline :=
  .node .arguments .argumentList (.leaf .loose TokenKind.openParen.word ::
    (commaOutlines (arguments.map (Outline.withSlot .item)) ++
      [.leaf .loose TokenKind.closeParen.word]))

mutual

/-- The outline of the tree that stands for the expression. -/
def outline : Expression → Outline
  | name x => single .identifierName x.word
  | builtIn k => single .identifierName k.1.word
  | this => single .thisExpression TokenKind.thisKeyword.word
  | base => single .baseExpression TokenKind.baseKeyword.word
  | literal w => single .literalExpression w.1
  | parenthesized e => .node .loose .parenthesizedExpression
      [.leaf .loose TokenKind.openParen.word, (outline e).withSlot .expression,
        .leaf .loose TokenKind.closeParen.word]
  | signed k e => .node .loose .prefixUnaryExpression
      [.leaf .operator k.1.word, (outline e).withSlot .right]
  | binary k l r => .node .loose .binaryExpression
      [(outline l).withSlot .left, .leaf .operator k.1.word, (outline r).withSlot .right]
  | assignment k l r => .node .loose .assignmentExpression
      [(outline l).withSlot .left, .leaf .operator k.1.word, (outline r).withSlot .right]
  | access e x => .node .loose .memberAccessExpression
      [(outline e).withSlot .left, .leaf .operator TokenKind.dot.word,
        (single .identifierName x.word).withSlot .right]
  | call e args => .node .loose .invocationExpression
      [(outline e).withSlot .expression, argumentOutline (outlineAll args)]
  | bareCreation T => .node .loose .objectCreationExpression
      [.leaf .loose TokenKind.newKeyword.word, T.outline.withSlot .expression]
  | creation T args => .node .loose .objectCreationExpression
      [.leaf .loose TokenKind.newKeyword.word, T.outline.withSlot .expression,
        argumentOutline (outlineAll args)]

def outlineAll : List Expression → List Outline
  | [] => []
  | e :: es => outline e :: outlineAll es

end

theorem wordsAll_eq_map (es : List Expression) : wordsAll es = es.map words := by
  induction es with
  | nil => rfl
  | cons e es ih => rw [wordsAll, ih, List.map_cons]

theorem outlineAll_eq_map (es : List Expression) : outlineAll es = es.map outline := by
  induction es with
  | nil => rfl
  | cons e es ih => rw [outlineAll, ih, List.map_cons]

mutual

/-- How deep parentheses, signs, arguments and assigned values are nested. -/
def nesting : Expression → Nat
  | name _ | builtIn _ | this | base | literal _ | bareCreation _ => 0
  | parenthesized e | signed _ e => nesting e + 1
  | binary _ l r => max (nesting l) (nesting r)
  | assignment _ l r => max (nesting l) (nesting r + 1)
  | access e _ => nesting e
  | call e args => max (nesting e) (nestingAll args)
  | creation _ args => nestingAll args

/-- The nesting of arguments, their parentheses included. -/
def nestingAll : List Expression → Nat
  | [] => 0
  | e :: es => max (nesting e + 1) (nestingAll es)

end

theorem nesting_lt_nestingAll {e : Expression} {es : List Expression} (h : e ∈ es) :
    e.nesting < nestingAll es := by
  induction h with
  | head => exact Nat.le_max_left _ _
  | tail _ _ ih => exact Nat.lt_of_lt_of_le ih (Nat.le_max_right _ _)

/-- How tightly the expression holds together: assignments least, then binary operations by the
precedence of their operators, signs, and all others. -/
def level : Expression → Nat
  | assignment .. => 0
  | binary k _ _ => k.1.precedence?.getD 0
  | signed .. => 7
  | _ => 8

def isBareCreation : Expression → Bool
  | bareCreation _ => true
  | _ => false

/-- The grouping is explicit wherever precedence and association ask for it, and no creation without
arguments is the base of an access or a call. -/
inductive Grouped : Expression → Prop
  | name (x) : Grouped (name x)
  | builtIn (k) : Grouped (builtIn k)
  | this : Grouped this
  | base : Grouped base
  | literal (w) : Grouped (literal w)
  | parenthesized {e} : Grouped e → Grouped (parenthesized e)
  | signed {k e} : Grouped e → 7 ≤ e.level → Grouped (signed k e)
  /-- Binary operations group to the left. -/
  | binary {k l r} : Grouped l → Grouped r → (binary k l r).level ≤ l.level →
      (binary k l r).level < r.level → Grouped (binary k l r)
  /-- Assignments group to the right. -/
  | assignment {k l r} : Grouped l → Grouped r → 0 < l.level → Grouped (assignment k l r)
  | access {e x} : Grouped e → e.level = 8 → e.isBareCreation = false → Grouped (access e x)
  | call {e args} : Grouped e → e.level = 8 → e.isBareCreation = false → (∀ a ∈ args, Grouped a) →
      Grouped (call e args)
  | bareCreation (T) : Grouped (bareCreation T)
  | creation {T args} : (∀ a ∈ args, Grouped a) → Grouped (creation T args)

end Expression

/-! ## Expressions in a table -/

namespace NodeTable

variable (t : NodeTable) (text : List Char)

/-- The entry is a token that is written as the word is, at its place in the text. -/
structure Spells (i : Ref) (w : Word) : Prop where
  token : t.token? i = some w.1
  written : ∃ before after, text = before ++ w.2 ++ after ∧
    (t.get? i).map (·.span) = some ⟨byteLength before, byteLength before + byteLength w.2⟩
  name : w.1 = .identifier → t.name? i = some (Data.plainName w.2)

/-- The entry is a node of the kind, and its children are written as the words are. -/
def Consists (i : Ref) (k : NodeKind) (words : List Word) : Prop :=
  ∃ n, i = some n ∧ t.node? i = some k ∧
    List.Forall₂ (t.Spells text) ((t.children n).map some) words

/-- The entry is a reference to the type. -/
structure Refers (i : Ref) (T : WrittenType) : Prop where
  consists : t.Consists text i .typeReference T.words
  parts : ∃ parts w, t.typeReference? i = some parts ∧ parts.isArray = T.isArray ∧
    T.name.words.getLast? = some w ∧ t.Spells text parts.name w

/-- The typed data of the entry and of those below it are those of the expression. -/
inductive Mirrors : Expression → Ref → Prop
  | name {i x} : t.Consists text i .identifierName [x.word] → Mirrors (.name x) i
  | builtIn {i k} : t.Consists text i .identifierName [k.1.word] → Mirrors (.builtIn k) i
  | this {i} : t.Consists text i .thisExpression [TokenKind.thisKeyword.word] → Mirrors .this i
  | base {i} : t.Consists text i .baseExpression [TokenKind.baseKeyword.word] → Mirrors .base i
  | literal {i w} : t.Consists text i .literalExpression [w.1] → Mirrors (.literal w) i
  | parenthesized {i j e} : t.node? i = some .parenthesizedExpression → t.data i = .wrapped j →
      Mirrors e j → Mirrors (.parenthesized e) i
  | signed {i parts k e} : t.node? i = some .prefixUnaryExpression → t.operation? i = some parts →
      parts.left = none → t.Spells text parts.operator k.1.word → Mirrors e parts.right →
      Mirrors (.signed k e) i
  | binary {i parts k l r} : t.node? i = some .binaryExpression → t.operation? i = some parts →
      Mirrors l parts.left → t.Spells text parts.operator k.1.word → Mirrors r parts.right →
      Mirrors (.binary k l r) i
  | assignment {i parts k l r} : t.node? i = some .assignmentExpression →
      t.operation? i = some parts → Mirrors l parts.left →
      t.Spells text parts.operator k.1.word → Mirrors r parts.right →
      Mirrors (.assignment k l r) i
  | access {i parts e x} : t.node? i = some .memberAccessExpression → t.operation? i = some parts →
      Mirrors e parts.left → t.Spells text parts.operator TokenKind.dot.word →
      t.Consists text parts.right .identifierName [x.word] → Mirrors (.access e x) i
  | call {i parts items e args} : t.node? i = some .invocationExpression → t.data i = .call parts →
      Mirrors e parts.expression → t.node? parts.arguments = some .argumentList →
      t.list? parts.arguments = some items → List.Forall₂ Mirrors args items →
      Mirrors (.call e args) i
  | bareCreation {i parts T} : t.node? i = some .objectCreationExpression →
      t.data i = .call parts → t.Refers text parts.expression T → parts.arguments = none →
      Mirrors (.bareCreation T) i
  | creation {i parts items T args} : t.node? i = some .objectCreationExpression →
      t.data i = .call parts → t.Refers text parts.expression T →
      t.node? parts.arguments = some .argumentList → t.list? parts.arguments = some items →
      List.Forall₂ Mirrors args items → Mirrors (.creation T args) i

end NodeTable

end Caret
