import Caret.Proofs.ExpressionPatterns
import Caret.Proofs.Scanning
import Caret.Grammar.SourceFile
/-!
# What declarations consist of

One lemma for each parser, as for expressions and statements, and from them that the tree of a text
is well formed and has all the tokens of the text for its leaves.
-/

namespace Caret.Grammar

open Parser Pattern

variable {P : Cursor → Prop}

theorem readsExpression_outer : ReadsExpression outerExpression := yields_expression _

/-! ## Attributes and modifiers -/

theorem yields_singleAttribute :
    Yields (At (· == .identifier)) singleAttribute (node .loose (· == .attribute)) :=
  Yields.node rfl (yields_qualifiedName_at.into_last.append
    (yields_optionalArguments readsExpression_outer))

theorem yields_attributeList :
    Yields (At (· == .openBracket)) attributeList (node .loose (· == .attributeList)) :=
  Yields.node rfl (((Yields.expectAt (by decide)).append
    (Yields.separated yields_singleAttribute.into_one)).append (Yields.expect (by decide)))

theorem yields_attributeLists : Yields P attributeLists attributes :=
  Yields.many yields_attributeList.into_one

theorem yields_modifiers : Yields P modifiers (Pattern.modifiers TokenKind.isModifier) :=
  Yields.many (Yields.takeAt rfl).into_one

theorem yields_declarationHead : Yields P declarationHead head :=
  yields_attributeLists.append yields_modifiers

/-! ## Parameters -/

theorem yields_parameterName : Yields P parameterName (opt (seq type (opt name))) :=
  Yields.orReport (yields_typeReference_at.into_one.append (Yields.expect (by decide)).into_opt) _

theorem yields_parameterModifiers :
    Yields P (Parser.many TokenKind.isParameterModifier (take.into .modifier))
      (Pattern.modifiers TokenKind.isParameterModifier) :=
  Yields.many (Yields.takeAt rfl).into_one

theorem not_nil_of_leaf {s : Slot} {p : TokenKind → Bool} {ts : List Tree}
    (h : (leaf s p).Covers ts) : ts ≠ [] := by
  obtain ⟨t, rfl, -⟩ := covers_leaf.1 h; simp

theorem not_nil_of_node {s : Slot} {p : NodeKind → Bool} {ts : List Tree}
    (h : (node s p).Covers ts) : ts ≠ [] := by
  obtain ⟨k, span, us, rfl, -⟩ := covers_node.1 h; simp

/-- A parser that yields nothing leaves the next token what it is. -/
theorem kind_of_nil {p : Parser} {c : Cursor} {a : Pattern} (hp : Yields Any p a)
    (h : (p c).1 = []) : (p c).2.kind = c.kind := by
  have hr := (hp c trivial).1
  rw [h] at hr
  exact Cursor.kind_congr hr.tokens

/-- Where a parameter goes on behind its attributes, some part of it is read. -/
theorem parameterRest_ne_nil (q : Parser) {c : Cursor}
    (h : c.kind.isParameterModifier || startsType c.kind) :
    ((Parser.many TokenKind.isParameterModifier (take.into .modifier) ++
      (parameterName ++ q)) c).1 ≠ [] := by
  intro hnil
  simp only [append_apply, List.append_eq_nil_iff] at hnil
  obtain ⟨hm, hn, -⟩ := hnil
  have hkind := kind_of_nil yields_parameterModifiers hm
  rcases Bool.or_eq_true_iff.1 h with h | h
  · exact Yields.many_ne_nil (Yields.takeAt rfl).into_one (fun _ => not_nil_of_leaf) rfl h hm
  · rw [← hkind] at h
    rw [parameterName, ifNext_pos h, append_apply] at hn
    have ht : (node .type (· == .typeReference)).Covers _ :=
      (yields_typeReference_at.into_one _ h).2
    exact not_nil_of_node ht (List.append_eq_nil_iff.1 hn).1

/-- Where a parameter may start, some part of it is read. -/
theorem parameter_ne_nil (q : Parser) {c : Cursor} (h : startsParameter c.kind) :
    ((attributeLists ++ (Parser.many TokenKind.isParameterModifier (take.into .modifier) ++
      (parameterName ++ q))) c).1 ≠ [] := by
  intro hnil
  rw [append_apply, List.append_eq_nil_iff] at hnil
  obtain ⟨ha, hrest⟩ := hnil
  rw [startsParameter, Bool.or_assoc] at h
  rcases Bool.or_eq_true_iff.1 h with h | h
  · exact Yields.many_ne_nil yields_attributeList.into_one (fun _ => not_nil_of_node) rfl h ha
  · rw [← kind_of_nil yields_attributeLists ha] at h
    exact parameterRest_ne_nil q h hrest

/-- If the last tree is of a kind that does not occur behind some place, nothing is there. -/
theorem nil_of_last {a : Pattern} {ts us : List Tree} {t : Tree} (h : a.Covers us)
    (ht : (ts ++ us).getLast? = some t) (he : a.excludes t.kind) : us = [] := by
  rcases List.eq_nil_or_concat us with rfl | ⟨vs, v, rfl⟩
  · rfl
  · rw [List.concat_eq_append] at h ht
    rw [← List.append_assoc, List.getLast?_concat] at ht
    obtain rfl := Option.some.inj ht
    exact absurd rfl (h.excludes he v (by simp))

/-- A parameter does not end behind its attributes where it may go on. -/
theorem parameter_ends {q : Parser} {a : Pattern} (hq : Yields Any q a)
    (ha : a.excludes (.node .attributeList)) (c : Cursor) : NodeKind.EndsBefore .parameter
      ((attributeLists ++ (Parser.many TokenKind.isParameterModifier (take.into .modifier) ++
        (parameterName ++ q))) c).1
      ((attributeLists ++ (Parser.many TokenKind.isParameterModifier (take.into .modifier) ++
        (parameterName ++ q))) c).2.kind := by
  refine fun t ht => ⟨fun ho => ?_, nofun⟩
  have hrest := yields_parameterModifiers (P := Any).append (yields_parameterName.append hq)
  have hkind : t.kind = .node .attributeList := by simpa [NodeKind.opensParameter] using ho
  rw [append_apply] at ht ⊢
  have hnil := nil_of_last (hrest _ trivial).2 ht (by rw [hkind]; simp [excludes, ha]; decide)
  show startsParameter _ = false
  rw [kind_of_nil hrest hnil, startsParameter, Bool.or_assoc, Bool.or_eq_false_iff]
  refine ⟨?_, ?_⟩
  · exact Yields.many_stops kept_any (yields_attributeList.into_one.mono fun _ h => h.2) rfl rfl
      trivial
  · exact Bool.eq_false_iff.2 fun hstarts => parameterRest_ne_nil q hstarts hnil

theorem yields_parameter :
    Yields (At startsParameter) parameter (node .loose (· == .parameter)) := by
  have hdefault : Yields Any (ifNext (· == .equals) (take ++ outerExpression.into .initializer)
      nothing) (opt initializer) :=
    Yields.optional ((Yields.takeAt rfl).append readsExpression_outer.into)
  refine Yields.nodeEnding (fun c hc => ?_) fun c _ => ?_
  · obtain ⟨hr, hk⟩ := ((yields_attributeLists.append yields_parameterModifiers).append
      yields_parameterName).append hdefault c hc
    refine ⟨hr, hk.nonempty ?_⟩
    rw [append_assoc, append_assoc]
    exact parameter_ne_nil _ hc
  · rw [append_assoc, append_assoc]
    exact parameter_ends hdefault rfl c

theorem yields_parameterList :
    Yields (At (· == .openParen)) parameterList (node .loose (· == .parameterList)) := by
  refine Yields.nodeEnding (((Yields.expectAt (by decide)).append
    (Yields.separated yields_parameter.into_one)).append (Yields.expect (by decide))) ?_
  refine fun c hc t ht => ⟨fun ho => ?_, nofun⟩
  have hrest : Yields Any (Parser.separated startsParameter (parameter.into .item) ++
      expect .closeParen) _ :=
    (Yields.separated yields_parameter.into_one).append (Yields.expect (by decide))
  have hkind : t.kind = .token .openParen := by simpa [NodeKind.opensParameter] using ho
  rw [append_assoc, append_apply] at ht ⊢
  have hnil := nil_of_last (hrest _ trivial).2 ht (by rw [hkind]; rfl)
  show startsParameter _ = false
  rw [kind_of_nil hrest hnil]
  exact Bool.eq_false_iff.2 fun hstarts => Yields.separated_ne_nil yields_parameter.into_one
    (fun _ => not_nil_of_node) hstarts (List.append_eq_nil_iff.1 hnil).1

/-! ## Bodies -/

theorem yields_memberBody : Yields P memberBody body := by
  refine Yields.look fun c _ => ?_
  split <;> rename_i h
  · exact ((yields_block (yields_statement _)).into_one.mono
      (by rintro _ rfl; simp [At, h])).weaken fun _ h => h.left.some
  · exact (((yields_arrowClause readsExpression_outer).into_one.append
      (Yields.expect (by decide))).mono (by rintro _ rfl; simp [At, h])).weaken
      fun _ h => h.left.right.some
  · exact ((Yields.takeAt rfl).mono (by rintro _ rfl; simp [At, h])).weaken
      fun _ h => h.right.right.some
  · exact (Yields.report _).weaken fun _ h => h.right

/-- Trees that are yielded without a slot. -/
theorem covers_loose {s : Slot} {p : TokenKind → Bool} {ts : List Tree}
    (h : (many (leaf s p)).Covers ts) :
    (many (leaf .loose p)).Covers (ts.map (Tree.withSlot .loose)) := by
  generalize hs : many (leaf s p) = a at h
  induction h with
  | nil => exact .nil
  | cons ha _ _ ih =>
    cases hs
    rw [List.map_append]
    exact .cons ha.map_withSlot (ih rfl)
  | _ => cases hs

theorem yields_accessor : Yields P accessor
    (alt (node .accessor (· == .accessorDeclaration)) (many (leaf .loose TokenKind.isModifier))) := by
  refine Yields.read yields_modifiers fun c found d _ hr hm => .look ?_
  split
  · rename_i hk
    have hkeyword : Yields (· = d) (take.into .keyword) (leaf .keyword isAccessorKeyword) :=
      (Yields.takeAt rfl).into_one.mono (by rintro _ rfl; exact hk)
    have h := ((Completes.emitAppend hr hm hkeyword).append yields_memberBody).close
      (k := .accessorDeclaration) rfl
    exact h.into_one.weaken fun _ h => h.left
  · split
    · rename_i hf
      rw [List.isEmpty_iff.1 hf] at hr
      exact .emit hr (Covers.right .nil)
    · have hl : Reads c (found.map (Tree.withSlot .loose)) d := hr.relabel (by simp)
      have h := hl.append (.report d .expectedAccessor)
      rw [List.append_nil] at h
      exact ⟨h, (covers_loose hm).right⟩

/-- A token that may start an accessor is read. -/
theorem accessor_ne_nil {c : Cursor} (h : c.kind.isModifier || isAccessorKeyword c.kind) :
    (accessor c).1 ≠ [] := by
  unfold accessor Parser.read look
  simp only
  by_cases hk : isAccessorKeyword (Grammar.modifiers c).2.kind = true
  · rw [if_pos hk]
    simp [into, close]
  · rw [if_neg hk]
    have hne : (Grammar.modifiers c).1 ≠ [] := by
      rcases Bool.or_eq_true_iff.1 h with h | h
      · exact Yields.many_ne_nil (Yields.takeAt rfl).into_one (fun _ => not_nil_of_leaf) rfl h
      · intro hnil
        rw [kind_of_nil yields_modifiers hnil] at hk
        exact hk h
    rw [if_neg (by simpa using hne)]
    simp only [append_apply, emit, ne_eq, List.append_eq_nil_iff, List.map_eq_nil_iff]
    exact fun h => hne h.right

theorem yields_accessorPart : Yields (At fun k => k.isModifier || isAccessorKeyword k) accessor
    (nonempty (alt (node .accessor (· == .accessorDeclaration))
      (many (leaf .loose TokenKind.isModifier)))) := by
  intro c hc
  obtain ⟨hr, hk⟩ := yields_accessor (P := Any) c trivial
  exact ⟨hr, hk.nonempty (accessor_ne_nil hc)⟩

theorem yields_accessorList : Yields P accessorList
    (seq (braces (opt (mark .openBrace))
      (alt (node .accessor (· == .accessorDeclaration)) (many (leaf .loose TokenKind.isModifier))))
      (opt (seq initializer (opt (mark .semicolon))))) :=
  (((Yields.expect (by decide)).append (Yields.many yields_accessor)).append
    (Yields.expect (by decide))).append
    (Yields.optional (((Yields.takeAt rfl).append readsExpression_outer.into).append
      (Yields.expect (by decide))))

/-! ## Members -/

theorem yields_constructorInitializer : Yields (At (· == .colon)) constructorInitializer
    (node .loose (· == .constructorInitializer)) :=
  Yields.node rfl (((Yields.expectAt (by decide)).into_one.append
    (Yields.orReport (Yields.takeAt rfl).into_one _)).append
    (yields_optionalArguments readsExpression_outer))

/-- Two tokens that start a method or constructor. -/
def AtCall (c : Cursor) : Prop := c.kind = .identifier ∧ c.peek 1 = .openParen

theorem at_parameters {c : Cursor} (h : AtCall c) :
    At (· == .openParen) ((expect .identifier).into .name c).2 := by
  have ht : (expect .identifier).into .name c = (take.into .name) c := by
    unfold Parser.into
    rw [expect, ifNext_pos (by simp [h.1])]
  rw [ht]
  show ((take c).2.kind == .openParen) = true
  rw [kind_take, h.2]
  rfl

theorem yields_nameAndParameters : Yields AtCall
    ((expect .identifier).into .name ++ parameterList.into .parameters)
    (seq name (node .parameters (· == .parameterList))) := by
  refine ((Yields.expectAt (k := .identifier) (by decide)).into_one.mono fun c hc => ?_).appendWhen
    yields_parameterList.into_one fun c hc => at_parameters hc
  simp [At, hc.1]

theorem yields_constructorRest : Yields AtCall constructorRest
    (seq (seq (seq name (node .parameters (· == .parameterList)))
      (opt (node .initializer (· == .constructorInitializer)))) body) :=
  (yields_nameAndParameters.append
    (Yields.optional yields_constructorInitializer.into_one)).append yields_memberBody

theorem yields_methodRest : Yields AtCall methodRest
    (seq (seq name (node .parameters (· == .parameterList))) body) :=
  yields_nameAndParameters.append yields_memberBody

theorem yields_propertyRest : Yields (At (· == .identifier)) propertyRest
    (seq name (alt arrow (seq (braces (opt (mark .openBrace))
      (alt (node .accessor (· == .accessorDeclaration)) (many (leaf .loose TokenKind.isModifier))))
      (opt (seq initializer (opt (mark .semicolon))))))) :=
  (Yields.expectAt (by decide)).into_one.append <| Yields.ifNext
    (((yields_arrowClause readsExpression_outer).into_one.append
      (Yields.expect (by decide))).mono fun _ h => h.2) yields_accessorList

theorem yields_fieldRest :
    Yields P fieldRest (seq Pattern.declarators (opt (mark .semicolon))) :=
  (yields_declarators readsExpression_outer).append (Yields.expect (by decide))

section Members

variable {c d : Cursor} {found : List Tree} (hr : Reads c found d)

include hr

/-- A declaration that breaks off, where some of it was read. -/
theorem completes_incomplete (problem : Problem) (hk : (seq head (opt type)).Covers found)
    (hne : found ≠ []) : Completes c d (report problem ++ incomplete c.next.start found)
      (node .loose (· == .incompleteMember)) := by
  have h : Reads c found (d.report problem) := by simpa using hr.append (.report d problem)
  exact ⟨h.close .incompleteMember (hk.nonempty hne) (NodeKind.endsBefore _ _ _ rfl),
    covers_node.2 ⟨_, _, _, rfl, rfl⟩⟩

theorem completes_namedMember (hk : (seq head type).Covers found) :
    Completes c d (namedMember c.next.start found) (node .loose NodeKind.isInner) := by
  refine .look ?_
  split
  · have hk' : (seq head (opt type)).Covers found := by
      cases hk with | seq hh ht => exact .seq hh ht.some
    have hne : found ≠ [] := by
      cases hk with
      | seq hh ht => exact List.append_ne_nil_of_right_ne_nil _ (not_nil_of_node ht)
    exact (completes_incomplete hr _ hk' hne).weaken fun _ h => h.ofKind rfl
  · rename_i hi
    have hi : d.kind = .identifier := by simpa using hi
    split
    · rename_i hp
      exact ((Completes.emitAppend hr hk (yields_methodRest.mono
        (by rintro _ rfl; exact ⟨hi, hp⟩))).close rfl).weaken fun _ h => h.ofKind rfl
    · exact ((Completes.emitAppend hr hk (yields_propertyRest.mono
        (by rintro _ rfl; simp [At, hi]))).close rfl).weaken fun _ h => h.ofKind rfl
    · exact ((Completes.emitAppend hr hk (yields_propertyRest.mono
        (by rintro _ rfl; simp [At, hi]))).close rfl).weaken fun _ h => h.ofKind rfl
    · exact ((Completes.emitAppend hr hk yields_fieldRest).close rfl).weaken fun _ h => h.ofKind rfl

end Members

/-- What `nested` reads from the keyword of a type on, where no more than `n` tokens are left. -/
def ReadsType (n : Nat) (nested : Nat → List Tree → Parser) : Prop :=
  ∀ c found d, Within n d → Reads c found d → head.Covers found → d.kind.isTypeKeyword →
    Completes c d (nested c.next.start found) (node .loose NodeKind.isTypeDeclaration)

/-- A head without a type. -/
theorem covers_bareHead {ts : List Tree} (h : head.Covers ts) : (seq head (opt type)).Covers ts := by
  simpa using Covers.seq h (Covers.none (a := type))

/-- From every cursor with the property the parser yields a declaration or nothing, and a declaration
where a modifier is next. -/
structure Declares (P : Cursor → Prop) (p : Parser) (k : NodeKind → Bool) : Prop where
  yields : Yields P p (opt (node .loose k))
  starts : ∀ c, P c → c.kind.isModifier → (p c).1 ≠ []

theorem Declares.mono {Q : Cursor → Prop} {p : Parser} {k : NodeKind → Bool} (h : Declares P p k)
    (hQ : ∀ c, Q c → P c) : Declares Q p k :=
  ⟨h.yields.mono hQ, fun c hc => h.starts c (hQ c hc)⟩

/-- What is read from the second cursor on completes the head to a declaration, or to nothing where
the head is empty. -/
def CompletesHead (c d : Cursor) (found : List Tree) (p : Parser) (k : NodeKind → Bool) : Prop :=
  Completes c d p (opt (node .loose k)) ∧ (found ≠ [] → (p d).1 ≠ [])

section Heads

variable {c d : Cursor} {found : List Tree} {p : Parser} {k : NodeKind → Bool}

theorem CompletesHead.look {choose : Cursor → Parser} (h : CompletesHead c d found (choose d) k) :
    CompletesHead c d found (Parser.look choose) k := h

theorem CompletesHead.of_node (h : Completes c d p (node .loose k)) : CompletesHead c d found p k :=
  ⟨h.weaken fun _ h => h.some, fun _ => not_nil_of_node h.2⟩

/-- A head alone is not a whole declaration. -/
theorem completes_head (hr : Reads c found d) (hh : head.Covers found) (hk : k .incompleteMember)
    (problem : Problem) : CompletesHead c d found (if found.isEmpty then nothing
      else report problem ++ incomplete c.next.start found) k := by
  split
  · rename_i hf
    rw [List.isEmpty_iff.1 hf] at hr ⊢
    exact ⟨.emit hr .none, fun h => absurd rfl h⟩
  · rename_i hf
    exact .of_node ((completes_incomplete hr problem (covers_bareHead hh) (by simpa using hf)).weaken
      fun _ h => h.ofKind hk)

theorem declarationHead_ne_nil (h : c.kind.isModifier) : (declarationHead c).1 ≠ [] := by
  intro hnil
  rw [declarationHead, append_apply, List.append_eq_nil_iff] at hnil
  rw [← kind_of_nil yields_attributeLists hnil.1] at h
  exact Yields.many_ne_nil (Yields.takeAt rfl).into_one (fun _ => not_nil_of_leaf) rfl h hnil.2

theorem Declares.of_head {rest : Nat → List Tree → Parser}
    (h : ∀ c found d, P c → Reads c found d → head.Covers found →
      CompletesHead c d found (rest c.next.start found) k) :
    Declares P (declarationHead.read rest) k := by
  refine ⟨.read yields_declarationHead fun c found d hc hr hh => (h c found d hc hr hh).1,
    fun c hc hm => ?_⟩
  obtain ⟨hr, hh⟩ := yields_declarationHead (P := Any) c trivial
  exact (h c _ _ hc hr hh).2 (declarationHead_ne_nil hm)

end Heads

theorem declares_member {n : Nat} {nested : Nat → List Tree → Parser} (hn : ReadsType n nested)
    (typeName : Option (List Char)) :
    Declares (Within n) (member nested typeName) NodeKind.isInner := by
  refine .of_head fun c found d hc hr hh => .look ?_
  split
  · rename_i hk
    exact .of_node ((hn c found d (kept_within n hc hr) hr hh hk).weaken fun _ h =>
      h.nodeMono fun k hk => by simp [NodeKind.isInner, hk])
  · split
    · rename_i hs
      have hs : AtCall d := by
        simp only [startsConstructor, Bool.and_eq_true, beq_iff_eq] at hs
        exact hs.1
      exact .of_node (((Completes.emitAppend hr hh (yields_constructorRest.mono
        (by rintro _ rfl; exact hs))).close rfl).weaken fun _ h => h.ofKind rfl)
    · split
      · rename_i ht
        have htype : Yields (· = d) (typeReference.into .type) type :=
          yields_typeReference_at.into_one.mono (by rintro _ rfl; exact ht)
        obtain ⟨hr', hk⟩ := Completes.emitAppend hr hh htype
        exact .of_node (completes_namedMember hr' hk)
      · exact completes_head hr hh rfl .expectedMember

/-! ## Types -/

theorem yields_baseList :
    Yields (At (· == .colon)) baseList (node .loose (· == .baseList)) :=
  Yields.node rfl ((Yields.expectAt (by decide)).append (Yields.separated yields_typeReference.into_opt))

/-- A declaration, or a token that is passed over in its place. -/
theorem yields_part {n : Nat} {p : Parser} {test : TokenKind → Bool} {s : Slot}
    {k : NodeKind → Bool} (hp : Declares (Within n) p k) (problem : Problem)
    (he : test .endOfFile = false) :
    Yields (fun c => Within n c ∧ At test c) ((p.into s).orSkip problem)
      (Pattern.declarations s k test) := by
  refine Yields.orSkip (hp.yields.into_opt.mono fun c h => h.1) he (fun c hc => hc.2)
    (fun c hc h hnil => hp.starts c hc.1 h ?_) _
  have hbare := Tree.map_bare_lastInto s (p c).1
  rw [show Tree.lastInto s (p c).1 = [] from hnil] at hbare
  exact List.map_eq_nil_iff.1 hbare.symm

/-- Declarations up to the end of the braces, or of the file. -/
theorem yields_parts {n : Nat} {p : Parser} {test : TokenKind → Bool} {s : Slot}
    {k : NodeKind → Bool} (hp : Declares (Within n) p k) (problem : Problem)
    (he : test .endOfFile = false) :
    Yields (Within n) (Parser.many test ((p.into s).orSkip problem))
      (many (Pattern.declarations s k test)) :=
  Yields.manyKept (kept_within n) (yields_part hp problem he)

theorem yields_typeRest {n : Nat} {memberOf : Option (List Char) → Parser}
    (hm : ∀ typeName, Declares (Within n) (memberOf typeName) NodeKind.isInner) :
    Yields (Within n) (typeRest memberOf)
      (seq (seq (opt name) (opt (node .bases (· == .baseList))))
        (opt (braces (mark .openBrace)
          (Pattern.declarations .member NodeKind.isInner continuesBraces)))) := by
  refine Yields.look fun c hc => ?_
  refine Yields.mono (P := Within n) ?_ (by rintro _ rfl; exact hc)
  refine Yields.appendKept ((Yields.expect (by decide)).into_opt.append
    (Yields.optional yields_baseList.into_one)) (kept_within n) ?_
  refine (Yields.ifNext ?_ (Yields.report _)).weaken fun _ h => h
  refine Yields.append ?_ (Yields.expect (by decide))
  refine Yields.appendWhen (Q := Within n) ((Yields.takeAt rfl).mono fun _ h => h.2)
    (yields_parts (hm _) _ rfl) fun d hd => ?_
  exact kept_within n hd.1 (Yields.takeAt rfl d hd.2).1

/-- Where no part in braces starts, the last tree is the closing brace, or the file ends. -/
theorem closing_ends {c : Cursor} (hc : continuesBraces c.kind = false) {ts : List Tree} {t : Tree}
    (ht : (ts ++ (expect .closeBrace c).1).getLast? = some t) {p : NodeKind → Bool}
    (hk : t.kind.isNode p) : (expect .closeBrace c).2.kind = .endOfFile := by
  by_cases hclose : (c.kind == .closeBrace) = true
  · have hbrace : Yields (At (· == .closeBrace)) (expect .closeBrace) (mark .closeBrace) :=
      .expectAt (by decide)
    obtain ⟨x, hx, -⟩ := covers_leaf.1 (hbrace c hclose).2
    rw [hx, List.getLast?_concat] at ht
    obtain rfl := Option.some.inj ht
    cases hk
  · have hend : c.kind = .endOfFile := by
      simpa [continuesBraces, bne, hclose] using hc
    rw [expect, ifNext_neg (by simpa using hclose)]
    exact (Cursor.kind_congr (Reads.rest_report c _)).trans hend

/-- Behind a node other than its bases a type ends only with the file. -/
theorem typeRest_ends {n : Nat} {memberOf : Option (List Char) → Parser}
    (hm : ∀ typeName, Declares (Within n) (memberOf typeName) NodeKind.isInner) {c : Cursor}
    (hc : Within n c) {t : Tree} (ht : (typeRest memberOf c).1.getLast? = some t)
    (hk : t.kind.isNode (· != .baseList)) : (typeRest memberOf c).2.kind = .endOfFile := by
  have hstart : Yields Any ((expect .identifier).into .name ++
      ifNext (· == .colon) (baseList.into .bases) nothing)
      (seq (opt name) (opt (node .bases (· == .baseList)))) :=
    (Yields.expect (by decide)).into_opt.append (Yields.optional yields_baseList.into_one)
  obtain ⟨hr, hcovers⟩ := hstart c trivial
  simp only [typeRest, look, append_apply (_ ++ _)] at ht ⊢
  generalize ((expect .identifier).into .name ++
    ifNext (· == .colon) (baseList.into .bases) nothing) c = start at hr hcovers ht ⊢
  obtain ⟨ts, d⟩ := start
  by_cases hb : (d.kind == .openBrace) = true
  · have hopen : Yields (At (· == .openBrace)) take (mark .openBrace) := .takeAt rfl
    have hleft : Within n (take d).2 := kept_within n (kept_within n hc hr) (hopen d hb).1
    rw [ifNext_pos hb, append_apply, ← List.append_assoc] at ht
    rw [ifNext_pos hb]
    exact closing_ends (Yields.many_stops (kept_within n) (yields_part (hm _) _ rfl) rfl rfl hleft)
      ht hk
  · rw [ifNext_neg (by simpa using hb)] at ht
    have hmem : t ∈ ts := List.mem_of_getLast? (by simpa [report] using ht)
    have honly : (seq (opt name) (opt (node .bases (· == .baseList)))).onlyNodes (· == .baseList) :=
      rfl
    have hallows := hcovers.allows t hmem
    cases t with
    | leaf s x => cases hk
    | node s k span us =>
      have hbases := of_allows_node (p := (· == .baseList)) honly hallows
      simp [Tree.kind, Kind.isNode, Kind.node?, hbases, bne] at hk

/-- A type as a whole ends like what follows its keyword. -/
theorem typeDeclaration_ends {n : Nat} {memberOf : Option (List Char) → Parser}
    (hm : ∀ typeName, Declares (Within n) (memberOf typeName) NodeKind.isInner) {c : Cursor}
    {found : List Tree} {k : NodeKind} (hk : k.isParameters = false)
    (hkeyword : Yields (· = c) take (leaf .loose TokenKind.isTypeKeyword))
    (hleft : Within n ((emit found ++ take) c).2) :
    k.EndsBefore ((emit found ++ take ++ typeRest memberOf) c).1
      ((emit found ++ take ++ typeRest memberOf) c).2.kind := by
  intro t ht
  refine ⟨fun ho => ?_, fun _ hnode => ?_⟩
  · rw [NodeKind.isParameters_of_opensParameter ho] at hk
    cases hk
  rw [append_apply] at ht ⊢
  by_cases hrest : (typeRest memberOf ((emit found ++ take) c).2).1 = []
  · obtain ⟨x, hx, -⟩ := covers_leaf.1 (hkeyword c rfl).2
    rw [hrest, List.append_nil, append_apply, show (emit found c).2 = c from rfl, hx,
      List.getLast?_concat] at ht
    obtain rfl := Option.some.inj ht
    cases hnode
  · rw [List.getLast?_append, Option.or_of_isSome (List.getLast?_isSome.2 hrest)] at ht
    exact typeRest_ends hm hleft ht hnode

theorem reads_typeDeclaration (unread : List Token) :
    ReadsType unread.length (typeDeclaration unread) := by
  induction unread with
  | nil =>
    intro c found d hd _ _ hk
    have : d.rest = [] := List.length_eq_zero_iff.1 (Nat.le_zero.1 hd)
    simp [Cursor.kind, Cursor.next, this, Token.endOfFile, TokenKind.isTypeKeyword] at hk
  | cons t unread ih =>
    intro c found d hd hr hh hk
    have hkeyword : Yields (· = d) take (leaf .loose TokenKind.isTypeKeyword) :=
      (Yields.takeAt rfl).mono (by rintro _ rfl; exact hk)
    have htake := Completes.emitAppend hr hh hkeyword
    have hleft : Within unread.length ((emit found ++ take) d).2 := by
      have ht := (hkeyword d rfl).1.rest_lt (hkeyword d rfl).2 rfl
      change (take d).2.rest.length ≤ unread.length
      simp only [Within, List.length_cons] at hd
      omega
    have hrest := htake.appendWhen (yields_typeRest (declares_member ih)) hleft
    have hkind : (declarationKind d.kind).isTypeDeclaration ∧
        (declarationKind d.kind).isParameters = false ∧
        (declarationKind d.kind).pattern = NodeKind.pattern .classDeclaration := by
      unfold declarationKind
      split <;> exact ⟨rfl, rfl, rfl⟩
    have hall : Completes c d (emit found ++ take ++ typeRest (member (typeDeclaration unread)))
        (declarationKind d.kind).pattern := hkind.2.2 ▸ hrest
    have hends := typeDeclaration_ends (declares_member ih) hkind.2.1 hkeyword hleft
    exact (Completes.look (hall.closeEnding hends)).weaken fun _ h => h.ofKind hkind.1

/-! ## Namespaces -/

theorem yields_namespaceDeclaration {n : Nat} {inner : Parser}
    (hi : Declares (Within n) inner NodeKind.isOuter) :
    Yields (fun c => Within (n + 1) c ∧ At (· == .namespaceKeyword) c)
      (namespaceDeclaration inner) (node .loose (· == .namespaceDeclaration)) := by
  refine Yields.node rfl ?_
  have hkeyword : Yields (fun c => Within (n + 1) c ∧ At (· == .namespaceKeyword) c)
      (expect .namespaceKeyword) (mark .namespaceKeyword) :=
    (Yields.expectAt (by decide)).mono fun _ h => h.2
  have hname := hkeyword.append yields_qualifiedName
  refine hname.appendWhen (Q := Within n) ?_ fun c hc => ?_
  · refine Yields.ifNext ((Yields.takeAt (by decide)).mono fun _ h => h.2) ?_
    refine Yields.append (Yields.mono ?_ fun _ h => h.1) (Yields.expect (by decide))
    exact (Yields.expect (by decide)).appendKept (kept_within n) (yields_parts hi _ rfl)
  · have := (hname c hc).1.rest_lt (hname c hc).2 rfl
    have := hc.1
    unfold Within at *
    omega

theorem declares_outerType : Declares P outerType NodeKind.isOuter := by
  refine .of_head fun c found d _ hr hh => .look ?_
  split
  · rename_i hk
    exact .of_node ((reads_typeDeclaration d.rest c found d (Nat.le_refl _) hr hh hk).weaken
      fun _ h => h.nodeMono fun k hk => by simp [NodeKind.isOuter, hk])
  · exact completes_head hr hh rfl .expectedTypeDeclaration

theorem declares_namespaceMember (unread : List Token) :
    Declares (Within unread.length) (namespaceMember unread) NodeKind.isOuter := by
  induction unread with
  | nil =>
    refine ⟨Yields.nothing.weaken fun _ h => h.right, fun c hc hm => ?_⟩
    have hr : c.rest = [] := List.length_eq_zero_iff.1 (Nat.le_zero.1 hc)
    simp [Cursor.kind, Cursor.next, hr, Token.endOfFile, TokenKind.isModifier] at hm
  | cons t unread ih =>
    refine ⟨(Yields.ifNext (yields_namespaceDeclaration ih) declares_outerType.yields).weaken
      fun _ h => (covers_alt.1 h).elim (fun h => (h.ofKind rfl).some) id, fun c _ hm => ?_⟩
    have hk : (c.kind == .namespaceKeyword) = false := by
      rw [beq_eq_false_iff_ne]
      rintro hk
      rw [hk] at hm
      cases hm
    rw [namespaceMember, ifNext_neg hk]
    exact declares_outerType.starts c (P := Any) trivial hm

theorem declares_namespaceMember_of_le {n : Nat} {unread : List Token} (h : n ≤ unread.length) :
    Declares (Within n) (namespaceMember unread) NodeKind.isOuter :=
  (declares_namespaceMember unread).mono fun _ hc => Nat.le_trans hc h

theorem yields_declarations :
    Yields P declarations (many (Pattern.declarations .item NodeKind.isOuter (· != .endOfFile))) := by
  refine Yields.look fun c _ => Yields.mono (P := Within c.rest.length) ?_ ?_
  · exact yields_parts (declares_namespaceMember c.rest) _ rfl
  · rintro _ rfl
    exact Nat.le_refl _

/-- The declarations of a file end with the file. -/
theorem kind_declarations (c : Cursor) : (declarations c).2.kind = .endOfFile := by
  have hpart : Yields (fun d => Within c.rest.length d ∧ At (· != .endOfFile) d) _
      (Pattern.declarations .item NodeKind.isOuter (· != .endOfFile)) :=
    yields_part (declares_namespaceMember c.rest) .expectedDeclaration rfl
  have h := Yields.many_stops (kept_within _) hpart rfl rfl (c := c) (Nat.le_refl _)
  rw [bne_eq_false_iff_eq] at h
  exact h

end Caret.Grammar

namespace Caret.SourceFile

open Grammar Pattern

variable (text : List Char)

theorem reads_declarations :
    Reads (startOf text) (declarations (startOf text)).1 (declarations (startOf text)).2 :=
  (yields_declarations (P := Parser.Any) _ trivial).1

/-- All tokens are read. -/
theorem rest_declarations : (declarations (startOf text)).2.rest = [] := by
  have htokens := (reads_declarations text).tokens
  have hkind := kind_declarations (startOf text)
  cases hr : (declarations (startOf text)).2.rest with
  | nil => rfl
  | cons t ts =>
    have ht : t ∈ (scan text).dropLast := by
      change t ∈ (startOf text).rest
      rw [← htokens, hr]
      simp
    rw [Cursor.kind, Cursor.next, hr] at hkind
    exact absurd hkind (scan_dropLast_kind text t ht)

theorem root_wellFormed : (ofText text).root.WellFormed := by
  refine .node (.seq (yields_declarations (P := Parser.Any) _ trivial).2
    (covers_leaf.2 ⟨_, rfl, rfl⟩)) fun t ht => ?_
  rcases List.mem_append.1 ht with ht | ht
  · exact (reads_declarations text).wellFormed t ht
  · rw [List.mem_singleton.1 ht]
    exact .leaf _ _

/-- The leaves of the tree are the tokens of the text. -/
theorem root_tokens : (ofText text).root.tokens = scan text := by
  have htokens := (reads_declarations text).tokens
  rw [rest_declarations, List.append_nil] at htokens
  rw [scan_eq_concat]
  simp only [ofText, Tree.tokens, Tree.tokensAll_append, htokens]
  rfl

end Caret.SourceFile
