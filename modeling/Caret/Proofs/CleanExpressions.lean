import Caret.Proofs.CleanReading
import Caret.Proofs.ExpressionPatterns
/-!
# Names, expressions and statements without reports

One lemma for each parser, as in the lemmas on what it consists of: the pattern of what it yields
if it reports nothing. A parser for an expression yields one, and so does a parser for a statement
unless it stands where the braces around it end.
-/

namespace Caret.Grammar

open Parser Pattern

variable {P : Cursor → Prop} {e s : Parser} {slot : Slot}

/-! ## Names -/

theorem clean_qualifiedName : YieldsClean P qualifiedName (qualified .name) := by
  refine YieldsClean.into_last (s := .loose) ?_
  have hdotted : YieldsClean Any dotted (many (seq (mark .dot) (mark .identifier))) :=
    .ofTokens yields_dotted rfl
  refine ((YieldsClean.expect (by decide)).append hdotted).weaken fun ts h => ?_
  cases h with | seq hi hd => exact hi.dottedName hd

theorem clean_typeReference : YieldsClean P typeReference (node .loose (· == .typeReference)) := by
  refine YieldsClean.look fun c _ => ?_
  split
  · rename_i h
    exact (YieldsClean.nodeOfTokens yields_predefinedType rfl rfl rfl).mono (by rintro _ rfl; exact h)
  · split
    · rename_i h
      exact (YieldsClean.nodeOfTokens yields_namedType rfl rfl rfl).mono (by rintro _ rfl; exact h)
    · exact .report _

/-! ## Expressions -/

/-- The parser yields an expression or nothing, and an expression if it reports nothing. -/
structure CleanExpression (e : Parser) : Prop where
  reads : ReadsExpression e
  clean : YieldsClean Any e (operand .loose)

theorem CleanExpression.into (h : CleanExpression e) : YieldsClean P (e.into slot) (operand slot) :=
  h.clean.into_one.whenever

theorem clean_identifierName :
    YieldsClean (At startsType) identifierName (node .loose (· == .identifierName)) :=
  .nodeOfTokens yields_identifierName rfl rfl rfl

theorem clean_argumentList (he : CleanExpression e) :
    YieldsClean (At (· == .openParen)) (argumentList e) (node .loose (· == .argumentList)) := by
  have hmodifier : YieldsClean Any (ifNext isArgumentModifier take nothing)
      (opt (leaf .loose isArgumentModifier)) := .optional (.takeAt rfl)
  exact .node (yields_argumentList he.reads) (((YieldsClean.expect (by decide)).append
    (.separated (hmodifier.append he.into).whenever)).append (.expect (by decide))) rfl

theorem clean_optionalArguments (he : CleanExpression e) :
    YieldsClean P (optionalArguments e) arguments := .optional (clean_argumentList he).into_one

theorem clean_objectCreation (he : CleanExpression e) :
    YieldsClean (At (· == .newKeyword)) (objectCreation e)
      (node .loose (· == .objectCreationExpression)) :=
  .node (yields_objectCreation he.reads) (((YieldsClean.expect (by decide)).append
    (.orReport clean_typeReference.into_one _)).append (clean_optionalArguments he)) rfl

theorem clean_parenthesized (he : CleanExpression e) :
    YieldsClean (At (· == .openParen)) (parenthesized e)
      (node .loose (· == .parenthesizedExpression)) :=
  .node (yields_parenthesized he.reads)
    (((YieldsClean.takeAt rfl).append he.into).append (.expect (by decide))) rfl

theorem clean_primary (he : CleanExpression e) : CleanExpression (primary e) := by
  refine ⟨yields_primary he.reads, YieldsClean.look fun c _ => ?_⟩
  have at_kind {test : TokenKind → Bool} {p : Parser} {k : NodeKind} (hk : k.isExpression)
      (ht : test c.kind) (h : YieldsClean (At test) p (node .loose (· == k))) :
      YieldsClean (· = c) p (operand .loose) :=
    (h.mono (by rintro _ rfl; exact ht)).weaken fun _ h => h.ofKind hk
  split <;> rename_i h
  case h_1 | h_2 | h_3 | h_4 | h_5 | h_6 =>
    exact at_kind rfl (by rw [h]; rfl) clean_identifierName
  case h_7 | h_8 | h_9 | h_10 | h_11 | h_12 | h_13 =>
    exact at_kind rfl (by rw [h]; rfl)
      (.nodeOfTokens (Yields.node rfl (Yields.takeAt rfl)) rfl rfl rfl)
  case h_14 => exact at_kind rfl (by rw [h]; rfl) (clean_parenthesized he)
  case h_15 => exact at_kind rfl (by rw [h]; rfl) (clean_objectCreation he)
  case h_16 => exact .report _

/-! ## Operators -/

theorem extendsClean_suffix (he : CleanExpression e) : ExtendsClean (suffix e) := by
  intro d ext h
  unfold suffix at h
  split at h <;> rename_i hk <;> simp only [Option.some.injEq, reduceCtorEq] at h
  · subst h
    have hdot : YieldsClean (· = d) (take.into .operator) (leaf .operator (· == .dot)) :=
      (YieldsClean.takeAt rfl).into_one.mono (by rintro _ rfl; simp [At, hk])
    have hname : YieldsClean Any (ifNext (· == .identifier) (identifierName.into .right)
        (report .expectedMemberName)) (node .right (· == .identifierName)) :=
      .orReport (clean_identifierName.mono fun c hc => by rw [At, eq_of_beq hc]; rfl).into_one _
    exact ⟨rfl, _, hdot.append hname, fun _ _ => .seq⟩
  · subst h
    have harguments : YieldsClean (· = d) ((argumentList e).into .arguments)
        (node .arguments (· == .argumentList)) :=
      (clean_argumentList he).into_one.mono (by rintro _ rfl; simp [At, hk])
    exact ⟨rfl, _, harguments, fun _ _ => .seq⟩

theorem clean_suffixed (he : CleanExpression e) : CleanExpression (suffixed e) :=
  ⟨yields_suffixed he.reads, .read (yields_suffixed he.reads) (clean_primary he).clean
    fun _ _ d _ _ hf => .look (hf.unlessEmpty (hf.extend (extendsClean_suffix he) d.rest))⟩

/-- An operator that is next, with the operand behind it. -/
theorem clean_operator {test : TokenKind → Bool} {c : Cursor} (he : CleanExpression e)
    (ht : test c.kind) (hf : test .endOfFile = false) :
    YieldsClean (· = c) (take.into .operator ++ e.into .right)
      (seq (leaf .operator test) (operand .right)) :=
  ((YieldsClean.takeAt hf).into_one.append he.into).mono (by rintro _ rfl; exact ht)

theorem extendsClean_operation (n : Nat) (he : CleanExpression e) :
    ExtendsClean (operation n e) := by
  intro d ext h
  unfold operation at h
  split at h
  · rename_i hk
    obtain rfl := Option.some.inj h
    have hoperator : YieldsClean (· = d) (take.into .operator ++ e.into .right)
        (seq (leaf .operator (·.precedence?.isSome)) (operand .right)) :=
      clean_operator he (by simp [eq_of_beq hk]) rfl
    exact ⟨rfl, _, hoperator, fun _ _ => .seq⟩
  · cases h

theorem clean_level (n : Nat) (he : CleanExpression e) : CleanExpression (level n e) :=
  ⟨yields_level n he.reads, .read (yields_level n he.reads) he.clean
    fun _ _ d _ _ hf => .look (hf.extend (extendsClean_operation n he) d.rest)⟩

theorem clean_binary (he : CleanExpression e) : CleanExpression (binary e) :=
  clean_level 1 <| clean_level 2 <| clean_level 3 <| clean_level 4 <| clean_level 5 <|
    clean_level 6 he

theorem clean_assignment {value : Parser} (he : CleanExpression e) (hv : CleanExpression value) :
    CleanExpression (assignment e value) :=
  ⟨yields_assignment he.reads hv.reads, .read (yields_assignment he.reads hv.reads)
    (clean_binary he).clean fun _ _ _ _ _ hf => .ifNext
      (fun ht => hf.enlarge rfl (clean_operator hv ht rfl) fun _ _ => .seq) fun _ => hf⟩

theorem clean_signed (he : CleanExpression e) : YieldsClean (At TokenKind.isSign) (signed e)
    (node .loose (· == .prefixUnaryExpression)) :=
  .node (yields_signed he.reads) ((YieldsClean.takeAt rfl).into_one.append he.into) rfl

/-! ## Nesting -/

theorem clean_operand {p q : Parser} (hp : YieldsClean (At TokenKind.isSign) p (operand .loose))
    (hr : ReadsExpression (ifNext TokenKind.isSign p q)) (hq : CleanExpression q) :
    CleanExpression (ifNext TokenKind.isSign p q) :=
  ⟨hr, (YieldsClean.ifNext (hp.mono fun _ h => h.2) hq.clean.whenever).weaken fun _ h =>
    (covers_alt.1 h).elim id id⟩

theorem clean_nesting (depth : Nat) :
    CleanExpression (Nesting.of depth).expression ∧ CleanExpression (Nesting.of depth).operand := by
  induction depth with
  | zero =>
    have hdeepest : CleanExpression (Nesting.of 0).expression := ⟨(yields_nesting 0).1, .report _⟩
    have hreads := (yields_nesting 0).2
    rw [Nesting.of_zero_operand] at hreads ⊢
    exact ⟨hdeepest, clean_operand (.report _) hreads (clean_suffixed hdeepest)⟩
  | succ depth ih =>
    have hx : CleanExpression (Nesting.of (depth + 1)).expression := by
      rw [Nesting.of_succ_expression]
      exact clean_assignment ih.2 ih.1
    have hreads := (yields_nesting (depth + 1)).2
    rw [Nesting.of_succ_operand] at hreads ⊢
    refine ⟨hx, clean_operand ?_ hreads (clean_suffixed hx)⟩
    exact (clean_signed ih.2).weaken fun _ h => h.ofKind rfl

theorem clean_expression (depth : Nat) : CleanExpression (expression depth) := (clean_nesting depth).1

theorem clean_arrowClause (he : CleanExpression e) :
    YieldsClean (At (· == .equalsGreater)) (arrowClause e)
      (node .loose (· == .arrowExpressionClause)) :=
  .node (yields_arrowClause he.reads) ((YieldsClean.expect (by decide)).append he.into) rfl

/-! ## Statements -/

/-- If nothing is reported, the parser yields a statement from the cursor, or nothing where a body
may be missing. -/
def CleanBody (c : Cursor) (s : Parser) : Prop :=
  Clean c s (Pattern.statement .loose) ∧ HasBody c s

/-- The parser yields a statement or nothing; if it reports nothing, a statement is missing only
where the braces around it or the file end. -/
structure CleanStatement (s : Parser) : Prop where
  reads : ReadsStatement s
  body : ∀ c, CleanBody c s

theorem CleanStatement.clean (hs : CleanStatement s) :
    YieldsClean Any s (Pattern.statement .loose) :=
  fun c _ => ⟨(hs.reads c trivial).1, (hs.body c).1⟩

theorem clean_declarator (he : CleanExpression e) :
    YieldsClean P (declarator e) (node .loose (· == .variableDeclarator)) :=
  .node (yields_declarator he.reads) ((YieldsClean.expect (by decide)).into_one.append
    (.optional ((YieldsClean.takeAt rfl).append he.into))) rfl

theorem clean_declarators (he : CleanExpression e) :
    YieldsClean P (Grammar.declarators e) wholeDeclarators :=
  .separatedAll (clean_declarator he).into_one

theorem clean_block (hs : CleanStatement s) :
    YieldsClean (At (· == .openBrace)) (block s) (node .loose (· == .block)) :=
  .node (yields_block hs.reads) (((YieldsClean.expect (by decide)).append
    (.many (.orSkip (yields_blockPart hs.reads) hs.clean.into_opt.whenever))).append
    (.expect (by decide))) rfl

theorem clean_condition (he : CleanExpression e) :
    YieldsClean P (Grammar.condition e) (inParens (Pattern.expression .loose)) :=
  ((YieldsClean.expect (by decide)).append (.unlessNext he.clean)).append (.expect (by decide))

theorem clean_localDeclaration (he : CleanExpression e) :
    YieldsClean (At startsType) (localDeclaration e)
      (node .loose (· == .localDeclarationStatement)) :=
  .node (yields_localDeclaration he.reads) ((clean_typeReference.into_one.append
    (clean_declarators he)).append (.expect (by decide))) rfl

theorem clean_returnStatement (he : CleanExpression e) :
    YieldsClean (At (· == .returnKeyword)) (returnStatement e)
      (node .loose (· == .returnStatement)) :=
  .node (yields_returnStatement he.reads) (((YieldsClean.expect (by decide)).append
    (.unlessNext he.into)).append (.expect (by decide))) rfl

theorem clean_elseClause (hs : CleanStatement s) : YieldsClean (At (· == .elseKeyword))
    (Parser.node .elseClause (take ++ s)) (node .loose (· == .elseClause)) :=
  .nodeBody (Yields.node rfl ((Yields.takeAt rfl).append hs.reads))
    ((YieldsClean.takeAt rfl).append hs.clean) fun _ => (hs.body _).2.behind

theorem clean_whileStatement (he : CleanExpression e) (hs : CleanStatement s) :
    YieldsClean (At (· == .whileKeyword)) (whileStatement e s)
      (node .loose (· == .whileStatement)) :=
  .nodeBody (yields_whileStatement he.reads hs.reads) (((YieldsClean.expect (by decide)).append
    (clean_condition he)).append hs.clean) fun _ => (hs.body _).2.behind

theorem clean_expressionStatement (he : CleanExpression e) :
    YieldsClean P (expressionStatement e) (node .loose (· == .expressionStatement)) :=
  .read (yields_expressionStatement he.reads) he.into fun _ _ _ _ _ hf =>
    hf.unlessEmpty ((hf.emitAppend (.expect (by decide))).close rfl)

/-! ## Branches -/

/-- An `else` and what follows it, if it is there. -/
def elseBranch (s : Parser) : Parser :=
  ifNext (· == .elseKeyword) (Parser.node .elseClause (take ++ s)) nothing

theorem clean_elseBranch (hs : CleanStatement s) :
    YieldsClean P (elseBranch s) (opt (node .loose (· == .elseClause))) :=
  .optional (clean_elseClause hs)

section Branches

variable {c : Cursor} (hs : CleanStatement s) (hc : (s c).2.diagnostics = [])

include hs hc

/-- A statement is there, or a body is missing and no `else` follows. -/
theorem branches_cases : (node .loose NodeKind.isStatement).Covers (s c).1 ∨
    (s ++ elseBranch s) c = ([], (s c).2) ∧ continuesBraces (s c).2.kind = false := by
  refine (covers_opt.1 ((hs.body c).1 hc).2).imp_right fun hnil => ?_
  have hends : continuesBraces (s c).2.kind = false := by
    obtain ⟨t, ht, -⟩ | hk := (hs.body c).2 hc
    · rw [hnil] at ht
      cases ht
    · simpa using hk
  have helse : ((s c).2.kind == .elseKeyword) = false := by
    rw [beq_eq_false_iff_ne]
    intro hk
    rw [hk] at hends
    cases hends
  refine ⟨?_, hends⟩
  rw [append_apply, hnil, elseBranch, ifNext_neg helse]
  rfl

end Branches

theorem clean_branches (hs : CleanStatement s) : YieldsClean P (s ++ elseBranch s)
    (opt (seq (node .loose NodeKind.isStatement) (opt (node .loose (· == .elseClause))))) := by
  intro c _
  obtain ⟨hr, hclean⟩ := (hs.clean.append (clean_elseBranch hs)) c trivial
  refine ⟨hr, fun hd => ⟨(hclean hd).1, ?_⟩⟩
  have helse := clean_elseBranch hs (P := Any) (s c).2 trivial
  rcases branches_cases hs (helse.1.diagnostics_eq_nil hd) with h | ⟨h, -⟩
  · exact (h.seq (helse.2 hd).2).some
  · rw [h]
    exact .none

theorem hasBody_branches (hs : CleanStatement s) (c : Cursor) : HasBody c (s ++ elseBranch s) := by
  intro hd
  have helse := clean_elseBranch hs (P := Any) (s c).2 trivial
  rcases branches_cases hs (helse.1.diagnostics_eq_nil hd) with h | ⟨h, hends⟩
  · obtain ⟨t, hnode, -, hk⟩ := covers_one.1 h
    exact .inl ⟨t, List.mem_append_left _ (hnode ▸ List.mem_singleton_self t), hk⟩
  · rw [h]
    exact .inr (by simp [hends])

theorem clean_ifStatement (he : CleanExpression e) (hs : CleanStatement s) :
    YieldsClean (At (· == .ifKeyword)) (ifStatement e s) (node .loose (· == .ifStatement)) := by
  have hnode := yields_ifStatement he.reads hs.reads
  have heq : ifStatement e s = Parser.node .ifStatement
      (expect .ifKeyword ++ Grammar.condition e ++ (s ++ elseBranch s)) := by
    rw [← append_assoc]
    rfl
  rw [heq] at hnode ⊢
  exact .nodeBody hnode (((YieldsClean.expect (by decide)).append (clean_condition he)).append
    (clean_branches hs)) fun _ => (hasBody_branches hs _).behind

/-! ## Statements of any depth -/

theorem CleanBody.look {c : Cursor} {choose : Cursor → Parser} (h : CleanBody c (choose c)) :
    CleanBody c (Parser.look choose) := h

theorem CleanBody.of_statement {c : Cursor} {p : Parser}
    (h : Clean c p (node .loose NodeKind.isStatement)) : CleanBody c p := by
  refine ⟨h.weaken fun _ h => h.some, fun hc => ?_⟩
  obtain ⟨t, hnode, -, hk⟩ := covers_one.1 (h hc).2
  exact .inl ⟨t, hnode ▸ List.mem_singleton_self t, hk⟩

theorem CleanBody.nothing {c : Cursor} (h : continuesBraces c.kind = false) :
    CleanBody c Parser.nothing := by
  have hends : (!continuesBraces c.kind) = true := by rw [h]; rfl
  exact ⟨fun _ => ⟨.nil, .none⟩, fun _ => .inr hends⟩

theorem clean_statement (depth : Nat) : CleanStatement (statement depth) := by
  refine ⟨yields_statement depth, ?_⟩
  induction depth with
  | zero =>
    have hreport (c : Cursor) : (statement 0 c).2.diagnostics ≠ [] := c.report_diagnostics _
    exact fun c => ⟨fun hc => absurd hc (hreport c), fun hc => absurd hc (hreport c)⟩
  | succ depth ih =>
    have he := clean_expression depth
    have hs : CleanStatement (statement depth) := ⟨yields_statement depth, ih⟩
    refine fun c => CleanBody.look ?_
    have at_kind {test : TokenKind → Bool} {p : Parser} {k : NodeKind} (hk : k.isStatement)
        (ht : test c.kind) (h : YieldsClean (At test) p (node .loose (· == k))) : CleanBody c p :=
      .of_statement ((h c ht).2.weaken fun _ h => h.ofKind hk)
    split <;> rename_i h
    case h_1 => exact at_kind rfl (by rw [h]; rfl) (clean_block hs)
    case h_2 => exact at_kind rfl (by rw [h]; rfl) (clean_returnStatement he)
    case h_3 => exact at_kind rfl (by rw [h]; rfl) (clean_ifStatement he hs)
    case h_4 => exact at_kind rfl (by rw [h]; rfl) (clean_whileStatement he hs)
    case h_5 =>
      exact at_kind rfl (by rw [h]; rfl)
        (.nodeOfTokens (Yields.node rfl (Yields.takeAt rfl)) rfl rfl rfl)
    case h_6 | h_7 => exact .nothing (by rw [h]; rfl)
    case h_8 =>
      split
      · rename_i hl
        exact at_kind rfl (startsType_of_startsLocal hl) (clean_localDeclaration he)
      · have hclean := (clean_expressionStatement (P := Any) he c trivial).2
        exact .of_statement (hclean.weaken fun _ h => h.ofKind rfl)

end Caret.Grammar
