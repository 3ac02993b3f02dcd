import Caret.Proofs.Reading
/-!
# What names, expressions and statements consist of

One lemma for each parser: the pattern of the trees that it yields. A node has the pattern of its
kind, so the lemmas say in passing that `NodeKind.pattern` describes the nodes rightly.
-/

namespace Caret.Grammar

open Parser Pattern

variable {P : Cursor → Prop} {e s : Parser} {slot : Slot}

/-! ## Names -/

theorem yields_dotted : Yields P dotted (many (seq (mark .dot) (mark .identifier))) := by
  suffices h : ∀ unread, Yields Any (dottedAtMost unread)
      (many (seq (mark .dot) (mark .identifier))) from Yields.look fun c _ => (h c.rest).whenever
  intro unread
  induction unread with
  | nil => exact fun c _ => ⟨.refl c, .nil⟩
  | cons t unread ih =>
    refine Yields.look fun c _ => ?_
    split
    · rename_i h
      have htwo : Yields (· = c) (take ++ take) (seq (mark .dot) (mark .identifier)) :=
        Yields.takeTwo (by decide) (by decide) (by rintro _ rfl; simpa [dotNameAt] using h)
      refine (htwo.append ih).weaken fun ts h => ?_
      cases h with | seq h hm => exact .cons h hm
    · exact fun c _ => ⟨.refl c, .nil⟩

theorem yields_dottedName :
    Yields P (expect .identifier ++ dotted) (opt (qualified .loose)) := by
  refine ((Yields.expect (by decide)).append yields_dotted).weaken fun ts h => ?_
  obtain ⟨us, vs, rfl, hi, hd⟩ := covers_seq.1 h
  rcases covers_opt.1 hi with hi | rfl
  · exact (hi.dottedName hd).some
  · rcases hd.dotted with rfl | hd
    · exact .none
    · exact hd.some

theorem yields_qualifiedName : Yields P qualifiedName (opt (qualified .name)) :=
  Yields.into_optLast (s := .loose) yields_dottedName

theorem yields_qualifiedName_at :
    Yields (At (· == .identifier)) qualifiedName (qualified .name) := by
  refine Yields.into_last (s := .loose) ?_
  refine ((Yields.expectAt (by decide)).append yields_dotted).weaken fun ts h => ?_
  cases h with | seq hi hd => exact hi.dottedName hd

theorem yields_arrayBrackets :
    Yields P arrayBrackets (opt (seq (mark .openBracket) (mark .closeBracket))) := by
  refine Yields.look fun c _ => ?_
  split
  · rename_i h
    refine (Yields.takeTwo (by decide) (by decide) ?_).weaken fun _ h => h.some
    rintro _ rfl
    simpa using h
  · exact fun c _ => ⟨.refl c, .none⟩

/-- A type reference at a built-in type. -/
theorem yields_predefinedType : Yields (At TokenKind.isPredefinedType)
    (node .typeReference (take.into .name ++ arrayBrackets)) (node .loose (· == .typeReference)) :=
  Yields.node rfl <| ((Yields.takeAt rfl).into_one.append yields_arrayBrackets).weaken fun _ h => by
    cases h with | seq hn hb => exact .seq (.left hn) hb

theorem yields_takenName :
    Yields (At (· == .identifier)) (take ++ dotted) (qualified .loose) :=
  ((Yields.takeAt rfl).append yields_dotted).weaken fun ts h => by
    cases h with | seq hi hd => exact Covers.dottedName hi hd

/-- A type reference at a name. -/
theorem yields_namedType : Yields (At (· == .identifier))
    (node .typeReference ((take ++ dotted).into .name ++ arrayBrackets))
    (node .loose (· == .typeReference)) := by
  refine Yields.node rfl ?_
  have hname : Yields (At (· == .identifier)) ((take ++ dotted).into .name) (qualified .name) :=
    Yields.into_last (s := .loose) yields_takenName
  refine (hname.append yields_arrayBrackets).weaken fun ts h => ?_
  cases h with | seq hn hb => exact .seq (.right hn) hb

theorem yields_typeReference_at :
    Yields (At startsType) typeReference (node .loose (· == .typeReference)) := by
  refine Yields.look fun c hc => ?_
  split
  · rename_i h
    exact yields_predefinedType.mono (by rintro _ rfl; exact h)
  · split
    · rename_i h
      exact yields_namedType.mono (by rintro _ rfl; exact h)
    · simp_all [At, startsType]

theorem yields_typeReference : Yields P typeReference (opt (node .loose (· == .typeReference))) := by
  refine Yields.look fun c _ => ?_
  split
  · rename_i h
    exact (yields_predefinedType.mono (by rintro _ rfl; exact h)).weaken fun _ h => h.some
  · split
    · rename_i h
      exact (yields_namedType.mono (by rintro _ rfl; exact h)).weaken fun _ h => h.some
    · exact (Yields.report _).weaken fun _ h => h.right

/-! ## Expressions -/

/-- The parser yields an expression or nothing. -/
def ReadsExpression (e : Parser) : Prop := Yields Any e (Pattern.expression .loose)

theorem ReadsExpression.into (h : ReadsExpression e) :
    Yields P (e.into slot) (Pattern.expression slot) := (Yields.into_opt h).whenever

theorem yields_identifierName :
    Yields (At startsType) identifierName (node .loose (· == .identifierName)) :=
  Yields.node rfl (Yields.takeAt rfl)

theorem yields_argumentList (he : ReadsExpression e) :
    Yields (At (· == .openParen)) (argumentList e) (node .loose (· == .argumentList)) := by
  have hmodifier : Yields Any (ifNext isArgumentModifier take nothing)
      (opt (leaf .loose isArgumentModifier)) := Yields.optional (Yields.takeAt rfl)
  exact Yields.node rfl (((Yields.expectAt (by decide)).append
    (Yields.separated (hmodifier.append he.into).whenever)).append (Yields.expect (by decide)))

theorem yields_optionalArguments (he : ReadsExpression e) :
    Yields P (optionalArguments e) arguments :=
  Yields.optional (yields_argumentList he).into_one

theorem yields_objectCreation (he : ReadsExpression e) :
    Yields (At (· == .newKeyword)) (objectCreation e)
      (node .loose (· == .objectCreationExpression)) :=
  Yields.node rfl (((Yields.expectAt (by decide)).append
    (Yields.orReport yields_typeReference_at.into_one _)).append (yields_optionalArguments he))

theorem yields_parenthesized (he : ReadsExpression e) :
    Yields (At (· == .openParen)) (parenthesized e) (node .loose (· == .parenthesizedExpression)) :=
  Yields.node rfl (((Yields.takeAt rfl).append he.into).append (Yields.expect (by decide)))

theorem yields_primary (he : ReadsExpression e) : ReadsExpression (primary e) := by
  refine Yields.look fun c _ => ?_
  have at_kind {test : TokenKind → Bool} {p : Parser} {k : NodeKind} (hk : k.isExpression)
      (ht : test c.kind) (h : Yields (At test) p (node .loose (· == k))) :
      Yields (· = c) p (Pattern.expression .loose) :=
    (h.mono (by rintro _ rfl; exact ht)).weaken fun _ h => (h.ofKind hk).some
  split <;> rename_i h
  case h_1 | h_2 | h_3 | h_4 | h_5 | h_6 =>
    exact at_kind rfl (by rw [h]; rfl) yields_identifierName
  case h_7 => exact at_kind rfl (by rw [h]; rfl) (Yields.node rfl (Yields.takeAt rfl))
  case h_8 => exact at_kind rfl (by rw [h]; rfl) (Yields.node rfl (Yields.takeAt rfl))
  case h_9 | h_10 | h_11 | h_12 | h_13 =>
    exact at_kind rfl (by rw [h]; rfl) (Yields.node rfl (Yields.takeAt rfl))
  case h_14 => exact at_kind rfl (by rw [h]; rfl) (yields_parenthesized he)
  case h_15 => exact at_kind rfl (by rw [h]; rfl) (yields_objectCreation he)
  case h_16 => exact (Yields.report _).weaken fun _ h => h.right

/-! ## Operators -/

/-- What an extension adds to an expression makes an expression. -/
theorem extends_of {rule : Cursor → Option Extension}
    (h : ∀ d ext, rule d = some ext → ext.kind.isExpression ∧ ∃ a,
      Yields (· = d) ext.rest a ∧ a.beyond (.node .variableDeclarator) ∧
        ∀ us vs, (node ext.slot NodeKind.isExpression).Covers us →
          a.Covers vs → ext.kind.pattern.Covers (us ++ vs)) :
    Extends (node .loose NodeKind.isExpression) rule := by
  intro d ext left hext hl
  obtain ⟨hk, a, hrest, hbeyond, hcovers⟩ := h d ext hext
  obtain ⟨hr, ha⟩ := hrest d rfl
  exact ⟨hk, hr, hr.rest_lt ha hbeyond, hcovers _ _ hl.map_withSlot ha⟩

theorem extends_suffix (he : ReadsExpression e) :
    Extends (node .loose NodeKind.isExpression) (suffix e) := by
  refine extends_of fun d ext h => ?_
  unfold suffix at h
  split at h <;> rename_i hk <;> simp only [Option.some.injEq, reduceCtorEq] at h
  · subst h
    have hdot : Yields (· = d) (take.into .operator) (leaf .operator (· == .dot)) :=
      (Yields.takeAt rfl).into_one.mono (by rintro _ rfl; simp [At, hk])
    have hname : Yields Any (ifNext (· == .identifier) (identifierName.into .right)
        (report .expectedMemberName)) (opt (node .right (· == .identifierName))) :=
      Yields.orReport (yields_identifierName.mono fun c hc => by
        rw [At, eq_of_beq hc]; rfl).into_one _
    exact ⟨rfl, _, hdot.append hname, rfl, fun _ _ => .seq⟩
  · subst h
    have harguments : Yields (· = d) ((argumentList e).into .arguments)
        (node .arguments (· == .argumentList)) :=
      (yields_argumentList he).into_one.mono (by rintro _ rfl; simp [At, hk])
    exact ⟨rfl, _, harguments, rfl, fun us vs hu hv => .seq (by simpa using hu) hv⟩

theorem yields_suffixed (he : ReadsExpression e) : ReadsExpression (suffixed e) := by
  refine Yields.read (yields_primary he) fun c found d _ hr ha => ?_
  refine .look ?_
  split
  · rename_i hf
    rw [List.isEmpty_iff.1 hf] at hr
    exact .emit hr .none
  · rename_i hf
    have hnode : (node .loose NodeKind.isExpression).Covers found := by
      rcases covers_opt.1 ha with ha | rfl
      · exact ha
      · simp at hf
    exact (completes_extend (extends_suffix he)
      (fun k span ts hk => covers_node.2 ⟨k, span, ts, rfl, hk⟩) d.rest hr hnode).weaken
      fun _ h => h.some

theorem extends_operation (n : Nat) (he : ReadsExpression e) :
    Extends (Pattern.expression .loose) (operation n e) := by
  intro d ext left h hl
  unfold operation at h
  split at h
  · rename_i hk
    obtain rfl := Option.some.inj h
    have hoperator : Yields (· = d) (take.into .operator)
        (leaf .operator (·.precedence?.isSome)) :=
      (Yields.takeAt rfl).into_one.mono (by rintro _ rfl; simp [At, eq_of_beq hk])
    obtain ⟨hr, hc⟩ := (hoperator.append he.into) d rfl
    exact ⟨rfl, hr, hr.rest_lt hc rfl, .seq hl.map_withSlot_opt hc⟩
  · cases h

theorem yields_level (n : Nat) (he : ReadsExpression e) : ReadsExpression (level n e) :=
  Yields.read he fun _ _ d _ hr ha => completes_extend (extends_operation n he)
    (fun k span ts hk => (covers_node.2 ⟨k, span, ts, rfl, hk⟩).some) d.rest hr ha

theorem yields_binary (he : ReadsExpression e) : ReadsExpression (binary e) :=
  yields_level 1 <| yields_level 2 <| yields_level 3 <| yields_level 4 <| yields_level 5 <|
    yields_level 6 he

theorem yields_assignment {value : Parser} (he : ReadsExpression e) (hv : ReadsExpression value) :
    ReadsExpression (assignment e value) := by
  refine Yields.read (yields_binary he) fun c found d _ hr ha => ?_
  refine .ifNext (fun ht => ?_) fun _ => .emit hr ha
  · have hoperator : Yields (· = d) (take.into .operator) (leaf .operator TokenKind.isAssignment) :=
      (Yields.takeAt rfl).into_one.mono (by rintro _ rfl; exact ht)
    obtain ⟨hr', hc⟩ := (hoperator.append hv.into) d rfl
    have hk : (NodeKind.pattern .assignmentExpression).Covers _ :=
      .seq ha.map_withSlot_opt hc
    exact ⟨reads_enlarge hr rfl hr' hk, (covers_node.2 ⟨_, _, _, rfl, rfl⟩).some⟩

theorem yields_signed (he : ReadsExpression e) : Yields (At TokenKind.isSign) (signed e)
    (node .loose (· == .prefixUnaryExpression)) :=
  Yields.node rfl ((Yields.takeAt rfl).into_one.append he.into)

/-! ## Nesting -/

/-- An operand is what follows its signs. -/
theorem yields_operand {p q : Parser}
    (hp : Yields (At TokenKind.isSign) p (Pattern.expression .loose)) (hq : ReadsExpression q) :
    ReadsExpression (ifNext TokenKind.isSign p q) :=
  (Yields.ifNext (hp.mono fun _ h => h.2) hq.whenever).weaken fun _ h =>
    (covers_alt.1 h).elim id id

theorem yields_nesting (depth : Nat) :
    ReadsExpression (Nesting.of depth).expression ∧ ReadsExpression (Nesting.of depth).operand := by
  have hdeepest : ∀ {P}, Yields P (report .nestingTooDeep) (Pattern.expression .loose) :=
    (Yields.report _).weaken fun _ h => h.right
  induction depth with
  | zero =>
    rw [Nesting.of_zero_operand]
    exact ⟨hdeepest, yields_operand hdeepest (yields_suffixed hdeepest)⟩
  | succ depth ih =>
    have hx : ReadsExpression (Nesting.of (depth + 1)).expression := by
      rw [Nesting.of_succ_expression]
      exact yields_assignment ih.2 ih.1
    rw [Nesting.of_succ_operand]
    refine ⟨hx, yields_operand ?_ (yields_suffixed hx)⟩
    exact (yields_signed ih.2).weaken fun _ h => (h.ofKind rfl).some

theorem yields_expression (depth : Nat) : ReadsExpression (expression depth) :=
  (yields_nesting depth).1

theorem yields_arrowClause (he : ReadsExpression e) :
    Yields (At (· == .equalsGreater)) (arrowClause e) (node .loose (· == .arrowExpressionClause)) :=
  Yields.node rfl ((Yields.expectAt (by decide)).append he.into)

/-! ## Statements -/

/-- The parser yields a statement or nothing. -/
def ReadsStatement (s : Parser) : Prop := Yields Any s (Pattern.statement .loose)

theorem yields_declarator (he : ReadsExpression e) :
    Yields P (declarator e) (node .loose (· == .variableDeclarator)) :=
  Yields.node rfl (((Yields.expect (by decide)).into_opt).append
    (Yields.optional ((Yields.takeAt rfl).append he.into)))

theorem yields_declarators (he : ReadsExpression e) :
    Yields P (Grammar.declarators e) Pattern.declarators :=
  Yields.separated (yields_declarator he).into_one

theorem yields_blockPart (hs : ReadsStatement s) :
    Yields (At continuesBlock) ((s.into .item).orSkip .expectedStatement)
      (Pattern.declarations .item NodeKind.isStatement continuesBlock) :=
  Yields.orSkip (Yields.into_opt hs).whenever rfl (fun _ hc => hc)
    (by rintro c hc h; simp [continuesBlock, startsDeclaration, h] at hc) _

theorem yields_block (hs : ReadsStatement s) :
    Yields (At (· == .openBrace)) (block s) (node .loose (· == .block)) :=
  Yields.node rfl (((Yields.expectAt (by decide)).append (Yields.many (yields_blockPart hs))).append
    (Yields.expect (by decide)))

theorem yields_condition (he : ReadsExpression e) :
    Yields P (Grammar.condition e) Pattern.condition :=
  ((Yields.expect (by decide)).append (Yields.unlessNext he)).append (Yields.expect (by decide))

theorem startsType_of_startsLocal {c : Cursor} (h : startsLocal c) : startsType c.kind := by
  unfold startsLocal at h
  split at h <;> simp_all [startsType]

theorem yields_localDeclaration (he : ReadsExpression e) :
    Yields (At startsType) (localDeclaration e) (node .loose (· == .localDeclarationStatement)) :=
  Yields.node rfl ((yields_typeReference_at.into_one.append (yields_declarators he)).append
    (Yields.expect (by decide)))

theorem yields_returnStatement (he : ReadsExpression e) :
    Yields (At (· == .returnKeyword)) (returnStatement e) (node .loose (· == .returnStatement)) :=
  Yields.node rfl (((Yields.expectAt (by decide)).append (Yields.unlessNext he.into)).append
    (Yields.expect (by decide)))

theorem yields_ifStatement (he : ReadsExpression e) (hs : ReadsStatement s) :
    Yields (At (· == .ifKeyword)) (ifStatement e s) (node .loose (· == .ifStatement)) := by
  have helse : Yields (At (· == .elseKeyword)) (Parser.node .elseClause (take ++ s))
      (node .loose (· == .elseClause)) := Yields.node rfl ((Yields.takeAt rfl).append hs)
  exact Yields.node rfl ((((Yields.expectAt (by decide)).append (yields_condition he)).append hs).append
    (Yields.optional helse))

theorem yields_whileStatement (he : ReadsExpression e) (hs : ReadsStatement s) :
    Yields (At (· == .whileKeyword)) (whileStatement e s) (node .loose (· == .whileStatement)) :=
  Yields.node rfl (((Yields.expectAt (by decide)).append (yields_condition he)).append hs)

theorem yields_expressionStatement (he : ReadsExpression e) :
    Yields P (expressionStatement e) (opt (node .loose (· == .expressionStatement))) := by
  refine Yields.read he.into fun c found d _ hr ha => ?_
  rcases covers_opt.1 ha with ha | rfl
  · obtain ⟨k, span, children, rfl, _⟩ := covers_node.1 ha
    obtain ⟨hs, hc⟩ := Yields.expect (k := .semicolon) (P := Any) (by decide) d trivial
    exact ⟨(hr.append hs).close _ (ha.seq hc) (NodeKind.endsBefore _ _ _ rfl),
      (covers_node.2 ⟨_, _, _, rfl, rfl⟩).some⟩
  · exact ⟨hr, .none⟩

theorem yields_statement (depth : Nat) : ReadsStatement (statement depth) := by
  induction depth with
  | zero => exact (Yields.report _).weaken fun _ h => h.right
  | succ depth ih =>
    have he := yields_expression depth
    refine Yields.look fun c _ => ?_
    have at_kind {test : TokenKind → Bool} {p : Parser} {k : NodeKind} (hk : k.isStatement)
        (ht : test c.kind) (h : Yields (At test) p (node .loose (· == k))) :
        Yields (· = c) p (Pattern.statement .loose) :=
      (h.mono (by rintro _ rfl; exact ht)).weaken fun _ h =>
        (h.ofKind hk).some
    split <;> rename_i h
    case h_1 => exact at_kind rfl (by rw [h]; rfl) (yields_block ih)
    case h_2 => exact at_kind rfl (by rw [h]; rfl) (yields_returnStatement he)
    case h_3 => exact at_kind rfl (by rw [h]; rfl) (yields_ifStatement he ih)
    case h_4 => exact at_kind rfl (by rw [h]; rfl) (yields_whileStatement he ih)
    case h_5 => exact at_kind rfl (by rw [h]; rfl) (Yields.node rfl (Yields.takeAt rfl))
    case h_6 | h_7 => exact Yields.nothing.weaken fun _ h => h.right
    case h_8 =>
      split
      · rename_i hl
        exact at_kind rfl (startsType_of_startsLocal hl) (yields_localDeclaration he)
      · exact (yields_expressionStatement he).weaken fun _ h =>
          (covers_opt.1 h).elim (fun h => (h.ofKind rfl).some)
            fun h => h ▸ .none

end Caret.Grammar
