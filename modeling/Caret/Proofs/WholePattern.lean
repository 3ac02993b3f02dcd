import Caret.Proofs.Throughout
/-!
# Nodes from which nothing is missing

`NodeKind.pattern` says what the children of a node may be, whatever was missing in the text.
`NodeKind.whole` says what they are where nothing is missing. It asks for no more than the parsers
do: a list may be empty or end with a comma, there may be nothing between the parentheses of an `if`
or `while`, and a body may be missing where the braces around it end (`NodeKind.Whole`).

What a whole node holds in its slots can be told from the pattern (`Covers.demands`).
-/

namespace Caret

namespace Pattern

/-! ## Common parts -/

/-- A pattern of no forest. -/
def never : Pattern := nonempty empty

/-- Items with commas between. -/
def items (a : Pattern) : Pattern := seq a (many (seq (mark .comma) a))

/-- Items with commas between, or none; a comma may stand behind the last. -/
def list (a : Pattern) : Pattern := opt (seq (items a) (opt (mark .comma)))

/-- What stands between braces. -/
def inBraces (a : Pattern) : Pattern := seq (seq (mark .openBrace) a) (mark .closeBrace)

/-- What stands between parentheses. -/
def inParens (a : Pattern) : Pattern := seq (seq (mark .openParen) a) (mark .closeParen)

/-- An expression that is not missing. -/
def operand (s : Slot) : Pattern := node s NodeKind.isExpression

/-- A sign and the value that it introduces. -/
def wholeInitializer : Pattern := seq (mark .equals) (operand .initializer)

/-- An arrow clause as a body. -/
def wholeArrow : Pattern := seq (node .body (· == .arrowExpressionClause)) (mark .semicolon)

/-- The body of a method, constructor or accessor. -/
def wholeBody : Pattern := alt (node .body (· == .block)) (alt wholeArrow (mark .semicolon))

def parameters : Pattern := node .parameters (· == .parameterList)

def wholeDeclarators : Pattern := items (node .declarator (· == .variableDeclarator))

/-- An operator with both operands. -/
def wholeOperation (p : TokenKind → Bool) : Pattern :=
  seq (operand .left) (seq (leaf .operator p) (operand .right))

theorem not_covers_never {ts : List Tree} : ¬ Covers never ts := by
  intro h
  cases h with | nonempty h hne => exact hne (covers_empty.1 h)

variable {a b : Pattern} {ts us : List Tree}

/-- Where an optional part is left out. -/
theorem Covers.seq_none (h : Covers a ts) : Covers (.seq a (opt b)) ts := by
  simpa using Covers.seq h (Covers.none (a := b))

theorem Covers.items_cons (h : Covers a ts) (h' : Covers (opt (.seq (mark .comma) (items a))) us) :
    Covers (items a) (ts ++ us) := by
  refine h.seq ?_
  rcases covers_opt.1 h' with h' | rfl
  · obtain ⟨vs, ws, rfl, hc, hi⟩ := covers_seq.1 h'
    obtain ⟨xs, ys, rfl, ha, hm⟩ := covers_seq.1 hi
    rw [← List.append_assoc]
    exact .cons (hc.seq ha) hm
  · exact .nil

/-- A list goes on behind a comma, or ends with it. -/
theorem Covers.list_cons (h : Covers a ts) (h' : Covers (opt (.seq (mark .comma) (list a))) us) :
    Covers (list a) (ts ++ us) := by
  rcases covers_opt.1 h' with h' | rfl
  · obtain ⟨vs, ws, rfl, hc, hl⟩ := covers_seq.1 h'
    rcases covers_opt.1 hl with hl | rfl
    · obtain ⟨xs, ys, rfl, hi, ht⟩ := covers_seq.1 hl
      have hitems : Covers (items a) (ts ++ (vs ++ xs)) := h.items_cons (hc.seq hi).some
      rw [← List.append_assoc vs, ← List.append_assoc ts]
      exact (hitems.seq ht).some
    · have hitem : Covers (items a) (ts ++ []) := h.items_cons .none
      rw [List.append_nil] at hitem ⊢
      exact (hitem.seq hc.some).some
  · exact (h.items_cons .none).seq_none.some

end Pattern

open Pattern in
/-- What the children of a node look like where nothing is missing. -/
def NodeKind.whole : NodeKind → Pattern
  | .compilationUnit => seq (many (node .item isOuter)) (mark .endOfFile)
  | .namespaceDeclaration =>
    seq (seq (mark .namespaceKeyword) (qualified .name))
      (alt (mark .semicolon) (inBraces (many (node .member isOuter))))
  | .classDeclaration | .structDeclaration | .interfaceDeclaration =>
    seq (seq head (leaf .loose TokenKind.isTypeKeyword))
      (seq (seq name (opt (node .bases (· == .baseList)))) (inBraces (many (node .member isInner))))
  | .baseList => seq (mark .colon) (items (node .item (· == .typeReference)))
  | .methodDeclaration => seq (seq head type) (seq (seq name parameters) wholeBody)
  | .constructorDeclaration =>
    seq head (seq (seq (seq name parameters)
      (opt (node .initializer (· == .constructorInitializer)))) wholeBody)
  | .constructorInitializer =>
    seq (seq (leaf .colon (· == .colon)) (leaf .keyword TokenKind.isConstructorTarget)) arguments
  | .fieldDeclaration => seq (seq head type) (seq wholeDeclarators (mark .semicolon))
  | .propertyDeclaration =>
    seq (seq head type) (seq name (alt wholeArrow
      (seq (inBraces (many (node .accessor (· == .accessorDeclaration))))
        (opt (seq wholeInitializer (mark .semicolon))))))
  | .accessorDeclaration =>
    seq (seq (modifiers TokenKind.isModifier) (leaf .keyword Grammar.isAccessorKeyword)) wholeBody
  | .incompleteMember => never
  | .parameterList => inParens (list (node .item (· == .parameter)))
  | .parameter =>
    seq (seq (seq attributes (modifiers TokenKind.isParameterModifier)) (seq type name))
      (opt wholeInitializer)
  | .attributeList =>
    seq (seq (mark .openBracket) (list (node .item (· == .attribute)))) (mark .closeBracket)
  | .argumentList =>
    inParens (list (seq (opt (leaf .loose Grammar.isArgumentModifier)) (operand .item)))
  | .variableDeclarator => seq name (opt wholeInitializer)
  | .arrowExpressionClause => seq (mark .equalsGreater) (operand .expression)
  | .block => inBraces (many (node .item isStatement))
  | .localDeclarationStatement => seq (seq type wholeDeclarators) (mark .semicolon)
  | .expressionStatement => seq (operand .expression) (mark .semicolon)
  | .returnStatement =>
    seq (seq (mark .returnKeyword) (Pattern.expression .expression)) (mark .semicolon)
  | .ifStatement =>
    seq (seq (mark .ifKeyword) (inParens (Pattern.expression .loose)))
      (opt (seq (node .loose isStatement) (opt (node .loose (· == .elseClause)))))
  | .elseClause => seq (mark .elseKeyword) (statement .loose)
  | .whileStatement =>
    seq (seq (mark .whileKeyword) (inParens (Pattern.expression .loose))) (statement .loose)
  | .objectCreationExpression =>
    seq (seq (mark .newKeyword) (node .expression (· == .typeReference))) arguments
  | .memberAccessExpression =>
    seq (operand .left) (seq (leaf .operator (· == .dot)) (node .right (· == .identifierName)))
  | .binaryExpression => wholeOperation (·.precedence?.isSome)
  | .assignmentExpression => wholeOperation TokenKind.isAssignment
  | .parenthesizedExpression => inParens (operand .expression)
  | .prefixUnaryExpression => seq (leaf .operator TokenKind.isSign) (operand .right)
  | k => k.pattern

/-! ## Bodies -/

/-- A statement or clause with a statement for its body. -/
def NodeKind.takesBody : NodeKind → Bool
  | .ifStatement | .elseClause | .whileStatement => true
  | _ => false

/-- The children are all that the kind of the node asks for; a body may be missing if the kind of the
token behind the node passes the test. -/
structure NodeKind.Whole (ends : TokenKind → Bool) (k : NodeKind) (ts : List Tree)
    (next : TokenKind) : Prop where
  covers : k.whole.Covers ts
  body : k.takesBody → (∃ t ∈ ts, t.kind.isNode isStatement) ∨ ends next

theorem NodeKind.Whole.of_covers {ends : TokenKind → Bool} {k : NodeKind} {ts : List Tree}
    {next : TokenKind} (h : k.whole.Covers ts) (hk : k.takesBody = false) : k.Whole ends ts next :=
  ⟨h, fun hb => absurd hb (by simp [hk])⟩

/-! ## Slots that are filled -/

namespace Pattern

/-- Some tree stands in the slot. -/
def demands : Pattern → Slot → Bool
  | empty, _ | many _, _ => false
  | one s' _, s => s' == s
  | seq a b, s => a.demands s || b.demands s
  | alt a b, s => a.demands s && b.demands s
  | nonempty a, s => a.demands s

theorem Covers.demands {a : Pattern} {ts : List Tree} {s : Slot} (h : Covers a ts)
    (hd : a.demands s) : ∃ t ∈ ts, t.slot = s := by
  induction h with
  | empty | nil | cons => cases hd
  | @one _ _ t hs _ => exact ⟨t, by simp, hs.trans (eq_of_beq hd)⟩
  | seq _ _ iha ihb =>
    rcases Bool.or_eq_true_iff.1 hd with hd | hd
    · obtain ⟨t, ht, hs⟩ := iha hd; exact ⟨t, by simp [ht], hs⟩
    · obtain ⟨t, ht, hs⟩ := ihb hd; exact ⟨t, by simp [ht], hs⟩
  | left _ ih => exact ih (Bool.and_eq_true_iff.1 hd).1
  | right _ ih => exact ih (Bool.and_eq_true_iff.1 hd).2
  | nonempty _ _ ih => exact ih hd

end Pattern

/-- The slots of a kind of node that are filled where nothing is missing. -/
def NodeKind.required : NodeKind → List Slot
  | .namespaceDeclaration | .classDeclaration | .structDeclaration | .interfaceDeclaration
  | .variableDeclarator | .typeReference => [.name]
  | .baseList => [.item]
  | .methodDeclaration => [.type, .name, .parameters]
  | .constructorDeclaration => [.name, .parameters]
  | .constructorInitializer => [.colon, .keyword]
  | .fieldDeclaration | .localDeclarationStatement => [.type, .declarator]
  | .propertyDeclaration | .parameter => [.type, .name]
  | .accessorDeclaration => [.keyword]
  | .attribute | .arrowExpressionClause | .expressionStatement | .objectCreationExpression
  | .parenthesizedExpression => [.expression]
  | .invocationExpression => [.expression, .arguments]
  | .memberAccessExpression | .binaryExpression | .assignmentExpression =>
    [.left, .operator, .right]
  | .prefixUnaryExpression => [.operator, .right]
  | _ => []

theorem NodeKind.demands_required (k : NodeKind) : ∀ s ∈ k.required, k.whole.demands s := by
  cases k <;> decide

end Caret
