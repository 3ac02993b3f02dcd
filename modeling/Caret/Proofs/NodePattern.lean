import Caret.Proofs.Pattern
import Caret.Grammar.Declaration
/-!
# The patterns of nodes

`NodeKind.pattern` lists what the children of each kind of node may be, in their order and with the
slots they fill. A tree is well formed if all its nodes are as their kinds say. The only nodes of a
well-formed tree that may have no token are declared names (`tokens_ne_nil`).
-/

namespace Caret

namespace TokenKind

/-- A token that is an expression by itself, other than a name. -/
def isLiteral : TokenKind → Bool
  | .numericLiteral | .stringLiteral | .trueKeyword | .falseKeyword | .nullKeyword => true
  | _ => false

/-- A part of a qualified name. -/
def isNamePart (k : TokenKind) : Bool := k == .identifier || k == .dot

/-- A keyword that names a constructor in an initializer. -/
def isConstructorTarget (k : TokenKind) : Bool := k == .baseKeyword || k == .thisKeyword

end TokenKind

namespace NodeKind

/-- An expression. -/
def isExpression : NodeKind → Bool
  | .identifierName | .thisExpression | .baseExpression | .literalExpression
  | .objectCreationExpression | .invocationExpression | .memberAccessExpression | .binaryExpression
  | .assignmentExpression | .parenthesizedExpression | .prefixUnaryExpression => true
  | _ => false

/-- A declaration outside of types. -/
def isOuter (k : NodeKind) : Bool :=
  k == .namespaceDeclaration || k.isTypeDeclaration || k == .incompleteMember

/-- A declaration in a type. -/
def isInner (k : NodeKind) : Bool :=
  k.isMemberDeclaration || k.isTypeDeclaration || k == .incompleteMember

end NodeKind

namespace Pattern

/-! ## Common parts -/

/-- A token that was passed over where tokens of some kinds may stand. A modifier never is: it starts
a declaration, be it an incomplete one. -/
def skipped (test : TokenKind → Bool) : Pattern := leaf .loose fun k => test k && !k.isModifier

/-- Items with commas between. -/
def separated (a : Pattern) : Pattern := many (alt a (mark .comma))

def attributes : Pattern := many (node .attribute (· == .attributeList))

def modifiers (p : TokenKind → Bool) : Pattern := many (leaf .modifier p)

/-- What precedes a declaration. -/
def head : Pattern := seq attributes (modifiers TokenKind.isModifier)

def type : Pattern := node .type (· == .typeReference)

def name : Pattern := leaf .name (· == .identifier)

/-- A qualified name whose last part fills a slot. -/
def qualified (s : Slot) : Pattern :=
  seq (many (leaf .loose TokenKind.isNamePart)) (leaf s (· == .identifier))

def expression (s : Slot) : Pattern := opt (node s NodeKind.isExpression)

def statement (s : Slot) : Pattern := opt (node s NodeKind.isStatement)

def arguments : Pattern := opt (node .arguments (· == .argumentList))

def arrow : Pattern := seq (node .body (· == .arrowExpressionClause)) (opt (mark .semicolon))

/-- The body of a method, constructor or accessor. -/
def body : Pattern := opt (alt (node .body (· == .block)) (alt arrow (mark .semicolon)))

/-- Parts in braces that may break off. -/
def braces (opening : Pattern) (part : Pattern) : Pattern :=
  seq (seq opening (many part)) (opt (mark .closeBrace))

def declarators : Pattern := separated (node .declarator (· == .variableDeclarator))

/-- The condition of a statement. -/
def condition : Pattern :=
  seq (seq (opt (mark .openParen)) (expression .loose)) (opt (mark .closeParen))

/-- A value behind a sign that introduces it. -/
def initializer : Pattern := seq (mark .equals) (expression .initializer)

/-- An operator between operands. -/
def operation (p : TokenKind → Bool) : Pattern :=
  seq (expression .left) (seq (leaf .operator p) (expression .right))

/-- A declaration, or a token in its place. -/
def declarations (s : Slot) (p : NodeKind → Bool) (test : TokenKind → Bool) : Pattern :=
  alt (node s p) (skipped test)

/-- Parts `.B.C` that follow a name, and nothing but the last fills a slot. -/
theorem Covers.dotted {ts : List Tree}
    (h : Covers (many (.seq (mark .dot) (mark .identifier))) ts) :
    ts = [] ∨ Covers (qualified .loose) ts := by
  generalize hs : many (.seq (mark .dot) (mark .identifier)) = s at h
  induction h with
  | nil => exact .inl rfl
  | cons ha _ _ ih =>
    cases hs
    obtain ⟨us, vs, rfl, hd, hi⟩ := covers_seq.1 ha
    have hpart {k ws} (hk : TokenKind.isNamePart k) (hw : Covers (mark k) ws) :
        Covers (many (leaf .loose TokenKind.isNamePart)) ws :=
      (hw.leafMono fun l hl => by simpa [eq_of_beq hl] using hk).single
    right
    rcases ih rfl with rfl | h
    · rw [List.append_nil]; exact .seq (hpart rfl hd) hi
    · obtain ⟨ws, xs, rfl, hw, hx⟩ := covers_seq.1 h
      rw [← List.append_assoc]
      exact .seq (((hpart rfl hd).manyAppend (hpart rfl hi)).manyAppend hw) hx
  | _ => cases hs

/-- A name with the parts that follow it. -/
theorem Covers.dottedName {ts us : List Tree} (h : Covers (mark .identifier) ts)
    (h' : Covers (many (.seq (mark .dot) (mark .identifier))) us) :
    Covers (qualified .loose) (ts ++ us) := by
  rcases h'.dotted with rfl | h'
  · rw [List.append_nil]; exact Covers.seq .nil h
  · obtain ⟨vs, ws, rfl, hv, hw⟩ := covers_seq.1 h'
    rw [← List.append_assoc]
    have hpart : Covers (leaf .loose TokenKind.isNamePart) ts :=
      h.leafMono fun k hk => by rw [eq_of_beq hk]; rfl
    exact .seq (.cons hpart hv) hw

/-- Items go on behind a comma. -/
theorem Covers.commas {a : Pattern} {ts : List Tree}
    (h : Covers (opt (.seq (mark .comma) (separated a))) ts) : Covers (separated a) ts := by
  rcases covers_opt.1 h with h | rfl
  · cases h with | seq hc hs => exact .cons hc.right hs
  · exact .nil

end Pattern

open Pattern in
/-- What the children of a node look like. -/
def NodeKind.pattern : NodeKind → Pattern
  | .compilationUnit => seq (many (declarations .item isOuter (· != .endOfFile))) (mark .endOfFile)
  | .namespaceDeclaration =>
    seq (seq (mark .namespaceKeyword) (opt (qualified .name)))
      (alt (mark .semicolon)
        (braces (opt (mark .openBrace)) (declarations .member isOuter Grammar.continuesBraces)))
  | .classDeclaration | .structDeclaration | .interfaceDeclaration =>
    seq (seq head (leaf .loose TokenKind.isTypeKeyword))
      (seq (seq (opt name) (opt (node .bases (· == .baseList))))
        (opt (braces (mark .openBrace) (declarations .member isInner Grammar.continuesBraces))))
  | .baseList => seq (mark .colon) (separated (opt (node .item (· == .typeReference))))
  | .methodDeclaration =>
    seq (seq head type) (seq (seq name (node .parameters (· == .parameterList))) body)
  | .constructorDeclaration =>
    seq head (seq (seq (seq name (node .parameters (· == .parameterList)))
      (opt (node .initializer (· == .constructorInitializer)))) body)
  | .constructorInitializer =>
    seq (seq (leaf .colon (· == .colon)) (opt (leaf .keyword TokenKind.isConstructorTarget)))
      arguments
  | .fieldDeclaration => seq (seq head type) (seq declarators (opt (mark .semicolon)))
  | .propertyDeclaration =>
    seq (seq head type) (seq name (alt arrow
      (seq (braces (opt (mark .openBrace))
        (alt (node .accessor (· == .accessorDeclaration)) (many (leaf .loose TokenKind.isModifier))))
        (opt (seq initializer (opt (mark .semicolon)))))))
  | .accessorDeclaration =>
    seq (seq (modifiers TokenKind.isModifier) (leaf .keyword Grammar.isAccessorKeyword)) body
  | .incompleteMember => nonempty (seq head (opt type))
  | .parameterList =>
    seq (seq (mark .openParen) (separated (node .item (· == .parameter)))) (opt (mark .closeParen))
  | .parameter =>
    nonempty (seq (seq (seq attributes (modifiers TokenKind.isParameterModifier))
      (opt (seq type (opt name)))) (opt initializer))
  | .attributeList =>
    seq (seq (mark .openBracket) (separated (node .item (· == .attribute))))
      (opt (mark .closeBracket))
  | .attribute => seq (qualified .expression) arguments
  | .argumentList =>
    seq (seq (mark .openParen)
      (separated (seq (opt (leaf .loose Grammar.isArgumentModifier)) (expression .item))))
      (opt (mark .closeParen))
  | .typeReference =>
    seq (alt (leaf .name TokenKind.isPredefinedType) (qualified .name))
      (opt (seq (mark .openBracket) (mark .closeBracket)))
  | .variableDeclarator => seq (opt name) (opt initializer)
  | .arrowExpressionClause => seq (mark .equalsGreater) (expression .expression)
  | .block => braces (mark .openBrace) (declarations .item isStatement Grammar.continuesBlock)
  | .localDeclarationStatement => seq (seq type declarators) (opt (mark .semicolon))
  | .expressionStatement =>
    seq (node .expression isExpression) (opt (mark .semicolon))
  | .returnStatement =>
    seq (seq (mark .returnKeyword) (expression .expression)) (opt (mark .semicolon))
  | .ifStatement =>
    seq (seq (seq (mark .ifKeyword) condition) (statement .loose))
      (opt (node .loose (· == .elseClause)))
  | .elseClause => seq (mark .elseKeyword) (statement .loose)
  | .whileStatement => seq (seq (mark .whileKeyword) condition) (statement .loose)
  | .emptyStatement => mark .semicolon
  | .identifierName => leaf .loose Grammar.startsType
  | .thisExpression => mark .thisKeyword
  | .baseExpression => mark .baseKeyword
  | .literalExpression => leaf .loose TokenKind.isLiteral
  | .objectCreationExpression =>
    seq (seq (mark .newKeyword) (opt (node .expression (· == .typeReference)))) arguments
  | .invocationExpression =>
    seq (node .expression isExpression) (node .arguments (· == .argumentList))
  | .memberAccessExpression =>
    seq (node .left isExpression)
      (seq (leaf .operator (· == .dot)) (opt (node .right (· == .identifierName))))
  | .binaryExpression => operation (·.precedence?.isSome)
  | .assignmentExpression => operation TokenKind.isAssignment
  | .parenthesizedExpression =>
    seq (seq (mark .openParen) (expression .expression)) (opt (mark .closeParen))
  | .prefixUnaryExpression =>
    seq (leaf .operator TokenKind.isSign) (expression .right)

namespace Tree

/-- All nodes of the tree have the children that their kinds say. -/
inductive WellFormed : Tree → Prop
  | leaf (s t) : WellFormed (leaf s t)
  | node {s k span children} (covers : k.pattern.Covers children)
      (inside : ∀ t ∈ children, WellFormed t) : WellFormed (node s k span children)

theorem WellFormed.withSlot {t : Tree} (h : t.WellFormed) (s : Slot) : (t.withSlot s).WellFormed := by
  cases h with
  | leaf => exact .leaf _ _
  | node covers inside => exact .node covers inside

theorem tokensAll_ne_nil {ts : List Tree} {t : Tree} (ht : t ∈ ts) (h : t.tokens ≠ []) :
    tokensAll ts ≠ [] := by
  obtain ⟨us, vs, rfl⟩ := List.append_of_mem ht
  simp [tokensAll_append, tokensAll, h]

/-- Every kind but that of declared names asks for a child that is no declared name. -/
theorem beyond_pattern {k : NodeKind} (h : k ≠ .variableDeclarator) :
    k.pattern.beyond (.node .variableDeclarator) := by
  cases k <;> first | rfl | exact absurd rfl h

theorem WellFormed.tokens_ne_nil {t : Tree} (h : t.WellFormed)
    (hk : t.kind ≠ .node .variableDeclarator) : t.tokens ≠ [] := by
  induction h with
  | leaf => simp [tokens]
  | @node s k span children covers _ ih =>
    obtain ⟨u, hu, huk⟩ := covers.beyond (beyond_pattern fun e => hk (by simp [Tree.kind, e]))
    exact tokensAll_ne_nil hu (ih u hu huk)

/-- A forest that asks for a tree that is no declared name has a token. -/
theorem tokensAll_ne_nil_of_beyond {a : Pattern} {ts : List Tree} (h : a.Covers ts)
    (hw : ∀ t ∈ ts, t.WellFormed) (hb : a.beyond (.node .variableDeclarator)) :
    tokensAll ts ≠ [] := by
  obtain ⟨t, ht, hk⟩ := h.beyond hb
  exact tokensAll_ne_nil ht ((hw t ht).tokens_ne_nil hk)

end Tree

end Caret
