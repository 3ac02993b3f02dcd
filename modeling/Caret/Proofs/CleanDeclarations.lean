import Caret.Proofs.CleanExpressions
import Caret.Proofs.DeclarationPatterns
/-!
# Declarations without reports

One lemma for each parser, as for expressions and statements, and from them that the tree of a text
without diagnostics is whole. Attributes and modifiers without a declaration, and declarations that
break off, are reported.
-/

namespace Caret.Grammar

open Parser Pattern

variable {P : Cursor → Prop} {c d : Cursor} {found : List Tree} {start : Nat}

theorem clean_outerExpression : CleanExpression outerExpression := clean_expression _

/-! ## Attributes and modifiers -/

theorem clean_singleAttribute :
    YieldsClean (At (· == .identifier)) singleAttribute (node .loose (· == .attribute)) :=
  .node yields_singleAttribute (clean_qualifiedName.into_last.append
    (clean_optionalArguments clean_outerExpression)) rfl

theorem clean_attributeList :
    YieldsClean (At (· == .openBracket)) attributeList (node .loose (· == .attributeList)) :=
  .node yields_attributeList (((YieldsClean.expect (by decide)).append
    (.separated clean_singleAttribute.into_one)).append (.expect (by decide))) rfl

theorem clean_attributeLists : YieldsClean P attributeLists attributes :=
  .many clean_attributeList.into_one

theorem clean_modifiers : YieldsClean P modifiers (Pattern.modifiers TokenKind.isModifier) :=
  .ofTokens yields_modifiers rfl

theorem clean_declarationHead : YieldsClean P declarationHead head :=
  clean_attributeLists.append clean_modifiers

/-! ## Parameters -/

theorem clean_parameterName : YieldsClean P parameterName (seq type name) :=
  .orReport (clean_typeReference.into_one.append (YieldsClean.expect (by decide)).into_one) _

theorem clean_parameter :
    YieldsClean (At startsParameter) parameter (node .loose (· == .parameter)) :=
  .node yields_parameter (((clean_attributeLists.append (.ofTokens yields_parameterModifiers rfl)).append
    clean_parameterName).append
    (.optional ((YieldsClean.takeAt rfl).append clean_outerExpression.into))) rfl

theorem clean_parameterList :
    YieldsClean (At (· == .openParen)) parameterList (node .loose (· == .parameterList)) :=
  .node yields_parameterList (((YieldsClean.expect (by decide)).append
    (.separated clean_parameter.into_one)).append (.expect (by decide))) rfl

/-! ## Bodies -/

theorem clean_arrowBody : YieldsClean (At (· == .equalsGreater))
    ((arrowClause outerExpression).into .body ++ expect .semicolon) wholeArrow :=
  (clean_arrowClause clean_outerExpression).into_one.append (.expect (by decide))

theorem clean_memberBody : YieldsClean P memberBody wholeBody := by
  refine YieldsClean.look fun c _ => ?_
  split <;> rename_i h
  · exact ((clean_block (clean_statement _)).into_one.mono
      (by rintro _ rfl; simp [At, h])).weaken fun _ h => h.left
  · exact (clean_arrowBody.mono (by rintro _ rfl; simp [At, h])).weaken fun _ h => h.left.right
  · exact ((YieldsClean.takeAt rfl).mono (by rintro _ rfl; simp [At, h])).weaken
      fun _ h => h.right.right
  · exact .report _

theorem clean_accessor :
    YieldsClean P accessor (opt (node .accessor (· == .accessorDeclaration))) := by
  refine .read yields_accessor clean_modifiers fun c found d _ _ hf => .look ?_
  split
  · rename_i hk
    have hkeyword : YieldsClean (· = d) (take.into .keyword) (leaf .keyword isAccessorKeyword) :=
      (YieldsClean.takeAt rfl).into_one.mono (by rintro _ rfl; exact hk)
    have hall : Clean d _ (NodeKind.whole .accessorDeclaration) :=
      (hf.emitAppend hkeyword).append clean_memberBody
    exact (hall.close rfl).into fun _ h => h.lastInto.some
  · split
    · exact fun _ => ⟨.nil, .none⟩
    · exact .of_report _ fun _ => rfl

theorem clean_accessorPart : YieldsClean (At fun k => k.isModifier || isAccessorKeyword k) accessor
    (node .accessor (· == .accessorDeclaration)) := by
  intro c hc
  obtain ⟨hr, hclean⟩ := clean_accessor (P := Any) c trivial
  exact ⟨hr, fun hd =>
    ⟨(hclean hd).1, (covers_opt.1 (hclean hd).2).resolve_right (accessor_ne_nil hc)⟩⟩

theorem clean_accessorList : YieldsClean P accessorList
    (seq (inBraces (many (node .accessor (· == .accessorDeclaration))))
      (opt (seq wholeInitializer (mark .semicolon)))) :=
  (((YieldsClean.expect (by decide)).append (.many clean_accessorPart)).append
    (.expect (by decide))).append
    (.optional (((YieldsClean.takeAt rfl).append clean_outerExpression.into).append
      (.expect (by decide))))

/-! ## Members -/

theorem clean_constructorInitializer : YieldsClean (At (· == .colon)) constructorInitializer
    (node .loose (· == .constructorInitializer)) :=
  .node yields_constructorInitializer (((YieldsClean.expect (by decide)).into_one.append
    (.orReport (YieldsClean.takeAt rfl).into_one _)).append
    (clean_optionalArguments clean_outerExpression)) rfl

theorem clean_nameAndParameters : YieldsClean AtCall
    ((expect .identifier).into .name ++ parameterList.into .parameters) (seq name parameters) :=
  (YieldsClean.expect (by decide)).into_one.appendWhen clean_parameterList.into_one
    fun _ h => at_parameters h

theorem clean_constructorRest : YieldsClean AtCall constructorRest
    (seq (seq (seq name parameters) (opt (node .initializer (· == .constructorInitializer))))
      wholeBody) :=
  (clean_nameAndParameters.append
    (.optional clean_constructorInitializer.into_one)).append clean_memberBody

theorem clean_methodRest :
    YieldsClean AtCall methodRest (seq (seq name parameters) wholeBody) :=
  clean_nameAndParameters.append clean_memberBody

theorem clean_propertyRest : YieldsClean P propertyRest
    (seq name (alt wholeArrow (seq (inBraces (many (node .accessor (· == .accessorDeclaration))))
      (opt (seq wholeInitializer (mark .semicolon)))))) :=
  (YieldsClean.expect (by decide)).into_one.append
    (.ifNext (clean_arrowBody.mono fun _ h => h.2) clean_accessorList)

theorem clean_fieldRest : YieldsClean P fieldRest (seq wholeDeclarators (mark .semicolon)) :=
  (clean_declarators clean_outerExpression).append (.expect (by decide))

theorem clean_namedMember (hf : Clean d (emit found) (seq head type)) :
    Clean d (namedMember start found) (node .loose NodeKind.isInner) := by
  refine .look ?_
  split
  · exact .of_report _ fun _ => rfl
  · rename_i hi
    have hi : d.kind = .identifier := by simpa using hi
    split
    · rename_i hp
      exact ((hf.emitAppend (clean_methodRest.mono
        (by rintro _ rfl; exact ⟨hi, hp⟩))).close rfl).weaken fun _ h => h.ofKind rfl
    · exact ((hf.emitAppend clean_propertyRest).close rfl).weaken fun _ h => h.ofKind rfl
    · exact ((hf.emitAppend clean_propertyRest).close rfl).weaken fun _ h => h.ofKind rfl
    · exact ((hf.emitAppend clean_fieldRest).close rfl).weaken fun _ h => h.ofKind rfl

/-- What `nested` reads from the keyword of a type on is a whole type if nothing is reported, where
no more than `n` tokens are left. -/
def CleanType (n : Nat) (nested : Nat → List Tree → Parser) : Prop :=
  ∀ start found d, Within n d → d.kind.isTypeKeyword → Clean d (emit found) head →
    Clean d (nested start found) (node .loose NodeKind.isTypeDeclaration)

/-- A head alone is reported. -/
theorem clean_head (problem : Problem) {a : Pattern} :
    Clean d (if found.isEmpty then nothing else report problem ++ incomplete start found) (opt a) := by
  split
  · exact fun _ => ⟨.nil, .none⟩
  · exact .of_report _ fun _ => rfl

theorem clean_member {n : Nat} {nested : Nat → List Tree → Parser} (hr : ReadsType n nested)
    (hn : CleanType n nested) (typeName : Option (List Char)) :
    YieldsClean (Within n) (member nested typeName) (opt (node .loose NodeKind.isInner)) := by
  refine .read (declares_member hr typeName).yields clean_declarationHead fun c found d hc hr hf => .look ?_
  split
  · rename_i hk
    exact (hn _ found d (kept_within n hc hr) hk hf).weaken fun _ h =>
      (h.nodeMono fun k hk => by simp [NodeKind.isInner, hk]).some
  · split
    · rename_i hs
      have hs : AtCall d := by
        simp only [startsConstructor, Bool.and_eq_true, beq_iff_eq] at hs
        exact hs.1
      exact ((hf.emitAppend (clean_constructorRest.mono
        (by rintro _ rfl; exact hs))).close rfl).weaken fun _ h => (h.ofKind rfl).some
    · split
      · have htype : YieldsClean (· = d) (typeReference.into .type) type :=
          clean_typeReference.into_one
        exact .read ((clean_namedMember (hf.emitAppend htype).emitted).weaken fun _ h => h.some)
      · exact clean_head .expectedMember

/-! ## Types -/

theorem clean_baseList : YieldsClean (At (· == .colon)) baseList (node .loose (· == .baseList)) :=
  .node yields_baseList ((YieldsClean.expect (by decide)).append
    (.separatedAll clean_typeReference.into_one)) rfl

/-- Declarations up to the end of the braces, or of the file. -/
theorem clean_parts {n : Nat} {p : Parser} {test : TokenKind → Bool} {s : Slot}
    {k : NodeKind → Bool} (hy : Declares (Within n) p k)
    (hp : YieldsClean (Within n) p (opt (node .loose k))) (problem : Problem)
    (he : test .endOfFile = false) :
    YieldsClean (Within n) (Parser.many test ((p.into s).orSkip problem)) (many (node s k)) :=
  .manyKept (kept_within n) (.orSkip (yields_part hy problem he) (hp.into_opt.mono fun _ h => h.1))

theorem clean_typeRest {n : Nat} {memberOf : Option (List Char) → Parser}
    (hy : ∀ typeName, Declares (Within n) (memberOf typeName) NodeKind.isInner)
    (hm : ∀ typeName,
      YieldsClean (Within n) (memberOf typeName) (opt (node .loose NodeKind.isInner))) :
    YieldsClean (Within n) (typeRest memberOf)
      (seq (seq name (opt (node .bases (· == .baseList))))
        (inBraces (many (node .member NodeKind.isInner)))) := by
  refine YieldsClean.look fun c hc => ?_
  refine YieldsClean.mono (P := Within n) ?_ (by rintro _ rfl; exact hc)
  refine YieldsClean.appendKept ((YieldsClean.expect (by decide)).into_one.append
    (.optional clean_baseList.into_one)) (kept_within n) ?_
  refine (YieldsClean.ifNext ?_ (.report _)).weaken fun _ h => (covers_alt.1 h).elim id id
  refine YieldsClean.append ?_ (.expect (by decide))
  refine YieldsClean.appendWhen (Q := Within n) ((YieldsClean.takeAt rfl).mono fun _ h => h.2)
    (clean_parts (hy _) (hm _) _ rfl) fun d hd => ?_
  exact kept_within n hd.1 (Yields.takeAt rfl d hd.2).1

theorem clean_typeDeclaration (unread : List Token) :
    CleanType unread.length (typeDeclaration unread) := by
  induction unread with
  | nil =>
    intro start found d hd hk _
    have : d.rest = [] := List.length_eq_zero_iff.1 (Nat.le_zero.1 hd)
    simp [Cursor.kind, Cursor.next, this, Token.endOfFile, TokenKind.isTypeKeyword] at hk
  | cons t unread ih =>
    intro start found d hd hk hf
    have hkeyword : YieldsClean (· = d) take (leaf .loose TokenKind.isTypeKeyword) :=
      (YieldsClean.takeAt rfl).mono (by rintro _ rfl; exact hk)
    have hleft : Within unread.length (take d).2 :=
      within_take hd fun he => by rw [he] at hk; cases hk
    have hr := reads_typeDeclaration unread
    have hrest := (hf.emitAppend hkeyword).appendWhen
      (clean_typeRest (declares_member hr) (clean_member hr ih)) hleft
    have hkind : (declarationKind d.kind).isTypeDeclaration ∧
        (declarationKind d.kind).takesBody = false ∧
        (declarationKind d.kind).whole = NodeKind.whole .classDeclaration := by
      unfold declarationKind
      split <;> exact ⟨rfl, rfl, rfl⟩
    have hall : Clean d (emit found ++ take ++ typeRest (member (typeDeclaration unread)))
        (declarationKind d.kind).whole := hkind.2.2 ▸ hrest
    exact (Clean.look (hall.close hkind.2.1)).weaken fun _ h => h.ofKind hkind.1

/-! ## Namespaces -/

theorem clean_namespaceDeclaration {n : Nat} {inner : Parser}
    (hy : Declares (Within n) inner NodeKind.isOuter)
    (hi : YieldsClean (Within n) inner (opt (node .loose NodeKind.isOuter))) :
    YieldsClean (fun c => Within (n + 1) c ∧ At (· == .namespaceKeyword) c)
      (namespaceDeclaration inner) (node .loose (· == .namespaceDeclaration)) := by
  refine .node (yields_namespaceDeclaration hy) ?_ rfl
  have hname : YieldsClean Any qualifiedName (qualified .name) := clean_qualifiedName
  refine ((YieldsClean.expect (by decide)).append hname).appendWhen (Q := Within n) ?_ ?_
  · refine .ifNext ((YieldsClean.takeAt (by decide)).mono fun _ h => h.2) ?_
    refine YieldsClean.append (YieldsClean.mono ?_ fun _ h => h.1) (.expect (by decide))
    exact (YieldsClean.expect (by decide)).appendKept (kept_within n) (clean_parts hy hi _ rfl)
  · intro c hc
    have hkeyword : Within n (expect .namespaceKeyword c).2 := by
      have hk : (c.kind == .namespaceKeyword) = true := hc.2
      rw [expect, ifNext_pos hk]
      exact within_take hc.1 (by simp [eq_of_beq hk])
    exact kept_within n hkeyword (hname _ trivial).1

theorem clean_outerType : YieldsClean P outerType (opt (node .loose NodeKind.isOuter)) := by
  refine .read declares_outerType.yields clean_declarationHead fun c found d _ _ hf => .look ?_
  split
  · rename_i hk
    exact (clean_typeDeclaration d.rest _ found d (Nat.le_refl _) hk hf).weaken fun _ h =>
      (h.nodeMono fun k hk => by simp [NodeKind.isOuter, hk]).some
  · exact clean_head .expectedTypeDeclaration

theorem clean_namespaceMember (unread : List Token) : YieldsClean (Within unread.length)
    (namespaceMember unread) (opt (node .loose NodeKind.isOuter)) := by
  induction unread with
  | nil => exact YieldsClean.nothing.weaken fun _ h => h.right
  | cons t unread ih =>
    refine (YieldsClean.ifNext (clean_namespaceDeclaration (declares_namespaceMember unread) ih)
      clean_outerType).weaken fun _ h => ?_
    exact (covers_alt.1 h).elim (fun h => (h.ofKind rfl).some) id

theorem clean_declarations :
    YieldsClean P declarations (many (node .item NodeKind.isOuter)) := by
  refine YieldsClean.look fun c _ => YieldsClean.mono (P := Within c.rest.length) ?_ ?_
  · exact clean_parts (declares_namespaceMember c.rest) (clean_namespaceMember c.rest) _ rfl
  · rintro _ rfl
    exact Nat.le_refl _

end Caret.Grammar
