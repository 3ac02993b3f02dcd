import Caret.Proofs.DeclarationPatterns
import Caret.Proofs.ExpressionLockstep
/-!
# Declarations before two texts

One lemma for each parser, as for expressions and statements. What kind of declaration some
attributes and a type belong to may be decided behind the last token that both texts have; then this
token stands in attributes or in a type, where nothing is suggested.
-/

namespace Caret.Grammar

open Caret.Parser Pattern

variable {x : Token} {r r' : List Token} {n : Nat}

/-! ## Attributes and modifiers -/

theorem lockstep_modifiers : Lockstep x r r' n Grammar.modifiers Grammar.modifiers :=
  .many (lockstep_takeInto _) ((Yields.takeAt rfl).into_one.mono fun _ h => h.2) rfl

section Parameters

variable (hx : x.kind.isAnchor)

include hx

theorem steady_outer : SteadyExpression x r r' n outerExpression := steady_expression hx _

theorem lockstep_attributeList : Lockstep x r r' n attributeList attributeList := by
  have hattribute : Lockstep x r r' n singleAttribute singleAttribute :=
    ((lockstep_qualifiedName_into hx _).append (lockstep_optionalArguments (steady_outer hx))).node _
  exact (((Lockstep.expect _).append (.separated
    (hattribute.into (length_node_le _ _) (length_node_le _ _) _))).append (.expect _)).node _

theorem lockstep_attributeLists : Lockstep x r r' n attributeLists attributeLists :=
  .many ((lockstep_attributeList hx).into (length_node_le _ _) (length_node_le _ _) _)
    (yields_attributeList.into_one.mono fun _ h => h.2) rfl

theorem lockstep_declarationHead : Lockstep x r r' n declarationHead declarationHead :=
  (lockstep_attributeLists hx).append lockstep_modifiers

/-! ## Parameters -/

theorem lockstep_parameter : Lockstep x r r' n parameter parameter := by
  have hmodifiers : Lockstep x r r' n
      (Parser.many TokenKind.isParameterModifier (take.into .modifier))
      (Parser.many TokenKind.isParameterModifier (take.into .modifier)) :=
    .many (lockstep_takeInto _) ((Yields.takeAt rfl).into_one.mono fun _ h => h.2) rfl
  have hname : Lockstep x r r' n parameterName parameterName :=
    .orReport ((lockstep_typeInto hx _).append (lockstep_expectInto _ _)) _
  exact ((((lockstep_attributeLists hx).append hmodifiers).append hname).append
    (.optional (Lockstep.take.append ((steady_outer hx).into _)))).node _

theorem lockstep_parameterList : Lockstep x r r' n parameterList parameterList :=
  (((Lockstep.expect _).append (.separated
    ((lockstep_parameter hx).into (length_node_le _ _) (length_node_le _ _) _))).append
    (.expect _)).node _

/-! ## Bodies -/

theorem lockstep_arrow : Lockstep x r r' n
    ((arrowClause outerExpression).into .body ++ expect .semicolon)
    ((arrowClause outerExpression).into .body ++ expect .semicolon) :=
  ((lockstep_arrowClause (steady_outer hx)).into (length_node_le _ _) (length_node_le _ _) _).append
    (.expect _)

theorem lockstep_memberBody : Lockstep x r r' n memberBody memberBody := by
  refine .look fun init c c' _ ha => ?_
  rw [← ha.kind]
  split
  case h_1 =>
    exact (lockstep_block (steady_statement hx _)).into (length_node_le _ _) (length_node_le _ _) _
  case h_2 => exact lockstep_arrow hx
  case h_3 => exact .take
  case h_4 => exact .report _ _

theorem lockstep_accessor : Lockstep x r r' n accessor accessor := by
  have hmakes : ∀ {P}, Makes P Grammar.modifiers (Pattern.modifiers TokenKind.isModifier) :=
    yields_modifiers.makes
  refine lockstep_modifiers.read hmakes hmakes (fun start ts _ _ => ?_)
    fun {start start' ts ts'} d d' ha _ _ _ ht => ?_
  · refine .look fun init c c' _ h => ?_
    rw [← h.kind]
    split
    · have hbody : Lockstep x r r' init.length (emit ts ++ take.into .keyword ++ memberBody)
          (emit ts ++ take.into .keyword ++ memberBody) :=
        ((Lockstep.emit ts).append (lockstep_takeInto _)).append (lockstep_memberBody hx)
      exact (hbody.close _ _).into (fun _ => Nat.le_refl 1) (fun _ => Nat.le_refl 1) _
    · split
      · exact .nothing
      · exact (Lockstep.report _ _).append (.emit _)
  -- the token would be a modifier
  · obtain ⟨u, hu, fs, hf⟩ := ht.holds.1
    have hallows := ha.allows u hu
    obtain ⟨-, -, -, -, hm⟩ := TokenKind.isAnchor_iff.1 hx
    cases hf with
    | leaf s => simp [Pattern.modifiers, leaf, allows, Tree.kind, hm] at hallows
    | node f =>
      simp [Pattern.modifiers, leaf, allows, Tree.kind, Kind.isToken, Kind.token?] at hallows

theorem lockstep_accessorList : Lockstep x r r' n accessorList accessorList := by
  have haccessors : Lockstep x r r' n
      (Parser.many (fun k => k.isModifier || isAccessorKeyword k) accessor)
      (Parser.many (fun k => k.isModifier || isAccessorKeyword k) accessor) :=
    .many (lockstep_accessor hx) (yields_accessorPart.mono fun _ h => h.2) rfl
  exact (((Lockstep.expect _).append haccessors).append (.expect _)).append
    (.optional ((Lockstep.take.append ((steady_outer hx).into _)).append (.expect _)))

/-! ## The rests of members -/

theorem lockstep_constructorInitializer :
    Lockstep x r r' n constructorInitializer constructorInitializer :=
  (((lockstep_expectInto _ _).append (.orReport (lockstep_takeInto _) _)).append
    (lockstep_optionalArguments (steady_outer hx))).node _

theorem lockstep_nameAndParameters : Lockstep x r r' n
    ((expect .identifier).into .name ++ parameterList.into .parameters)
    ((expect .identifier).into .name ++ parameterList.into .parameters) :=
  (lockstep_expectInto _ _).append
    ((lockstep_parameterList hx).into (length_node_le _ _) (length_node_le _ _) _)

theorem lockstep_constructorRest : Lockstep x r r' n constructorRest constructorRest :=
  ((lockstep_nameAndParameters hx).append (.optional ((lockstep_constructorInitializer hx).into
    (length_node_le _ _) (length_node_le _ _) _))).append (lockstep_memberBody hx)

theorem lockstep_methodRest : Lockstep x r r' n methodRest methodRest :=
  (lockstep_nameAndParameters hx).append (lockstep_memberBody hx)

theorem lockstep_propertyRest : Lockstep x r r' n propertyRest propertyRest :=
  (lockstep_expectInto _ _).append (.ifNext (lockstep_arrow hx) (lockstep_accessorList hx))

theorem lockstep_fieldRest : Lockstep x r r' n fieldRest fieldRest :=
  (lockstep_declarators (steady_outer hx)).append (.expect _)

end Parameters

/-! ## Declarations around what is read -/

/-- The parser makes one declaration that begins with the trees that are read. -/
def Wraps (found : List Tree) (p : Parser) : Prop :=
  ∀ d, ∃ k span more, (k ≠ .parameter ∧ k ≠ .block) ∧
    (p d).1 = [.node .loose k span (found ++ more)]

namespace Wraps

variable {found more : List Tree} {p q : Parser} {start : Nat}

theorem close {k : NodeKind} (hk : k ≠ .parameter ∧ k ≠ .block) :
    Wraps found (Parser.close k start (emit found ++ q)) :=
  fun _ => ⟨k, _, _, hk, rfl⟩

theorem incomplete (problem : Problem) :
    Wraps found (Parser.report problem ++ Grammar.incomplete start found) :=
  fun _ => ⟨.incompleteMember, _, [], by decide, by rw [List.append_nil]; rfl⟩

theorem look {choose : Cursor → Parser} (h : ∀ d, Wraps found (choose d)) :
    Wraps found (Parser.look choose) := fun d => h d d

theorem ofMore (h : Wraps (found ++ more) p) : Wraps found p := fun d => by
  obtain ⟨k, span, others, hk, hp⟩ := h d
  exact ⟨k, span, more ++ others, hk, by rw [hp, List.append_assoc]⟩

theorem namedMember : Wraps found (Grammar.namedMember start found) := by
  refine look fun d => ?_
  split
  · exact incomplete _
  · split
    · exact close (by decide)
    · exact close (by decide)
    · exact close (by decide)
    · exact close (by decide)

theorem typeDeclaration {unread : List Token} (h : unread ≠ []) :
    Wraps found (Grammar.typeDeclaration unread start found) := by
  obtain ⟨t, unread, rfl⟩ := List.exists_cons_of_ne_nil h
  refine look fun d => ?_
  rw [append_assoc]
  refine close ?_
  unfold declarationKind
  split <;> decide

end Wraps

section Heads

variable {found found' : List Tree}

/-- In the head of a declaration, and in its type, nothing may be suggested. -/
theorem quiet_of_head (hx : x.kind.isAnchor) (hc : (seq head (opt type)).Covers found) {u : Tree}
    (hu : u ∈ found) (hw : u.WellFormed) {fs : List Frame} (h : u.Holds x fs) {g : Frame}
    (hg : g.kind ≠ .parameter) : Quiet (g :: fs) := by
  have hallows := hc.allows u hu
  cases h with
  | leaf s =>
    obtain ⟨-, -, -, -, hm⟩ := TokenKind.isAnchor_iff.1 hx
    simp [head, attributes, Pattern.modifiers, type, opt, leaf, Pattern.node, allows, Tree.kind, hm,
      Kind.isNode, Kind.node?] at hallows
  | node f hf =>
    simp [head, attributes, Pattern.modifiers, type, opt, leaf, Pattern.node, allows, Tree.kind,
      Kind.isToken, Kind.token?] at hallows
    rcases hallows with ⟨-, hk⟩ | ⟨-, hk⟩
    · exact .of_attributes (.node f hf) hw (congrArg Kind.node hk) hg
    · exact (Quiet.of_type (.node f hf) hw (congrArg Kind.node hk)).append [g]

/-- What is decided behind the head of a declaration and its type does not matter to a token in
them. -/
theorem twin_wrapped (hx : x.kind.isAnchor) (hc : (seq head (opt type)).Covers found)
    (hc' : (seq head (opt type)).Covers found') (hw : ∀ t ∈ found, t.WellFormed)
    (hw' : ∀ t ∈ found', t.WellFormed) (ht : Twin x found found') {p p' : Parser}
    (hp : Wraps found p) (hp' : Wraps found' p') (d d' : Cursor) :
    Twin x (p d).1 (p' d').1 := by
  obtain ⟨k, span, more, hk, he⟩ := hp d
  obtain ⟨k', span', more', hk', he'⟩ := hp' d'
  rw [he, he']
  cases ht with
  | @mk u u' before after after' hu =>
    obtain ⟨fs, gs, hf, hg, -⟩ := hu.frames
    rw [List.append_assoc, List.append_assoc]
    refine .single ⟨rfl, _, _, hf.child .loose k span before (after ++ more),
      hg.child .loose k' span' before (after' ++ more'), .inr ⟨?_, ?_⟩⟩
    · exact quiet_of_head hx hc (by simp) (hw u (by simp)) hf hk.1
    · exact quiet_of_head hx hc' (by simp) (hw' u' (by simp)) hg hk'.1

end Heads

/-! ## Members -/

/-- A member from behind its head on. -/
def memberRest (nested : Nat → List Tree → Parser) (typeName : Option (List Char)) (start : Nat)
    (head : List Tree) : Parser := look fun c =>
  if c.kind.isTypeKeyword then nested start head
  else if startsConstructor typeName c then
    close .constructorDeclaration start (emit head ++ constructorRest)
  else if startsType c.kind then
    (emit head ++ typeReference.into .type).read fun _ found => namedMember start found
  else if head.isEmpty then nothing
  else report .expectedMember ++ incomplete start head

theorem member_eq (nested : Nat → List Tree → Parser) (typeName : Option (List Char)) :
    member nested typeName = declarationHead.read (memberRest nested typeName) := rfl

section Lengths

theorem length_look_le {choose : Cursor → Parser} (h : ∀ c d, ((choose c) d).1.length ≤ 1)
    (c : Cursor) : ((Parser.look choose) c).1.length ≤ 1 := h c c

theorem Wraps.length_le {found : List Tree} {p : Parser} (h : Wraps found p) (d : Cursor) :
    (p d).1.length ≤ 1 := by
  obtain ⟨k, span, more, -, he⟩ := h d
  rw [he]
  exact Nat.le_refl 1

theorem length_head_le {found : List Tree} {start : Nat} (problem : Problem) (d : Cursor) :
    ((if found.isEmpty then nothing
      else report problem ++ incomplete start found : Parser) d).1.length ≤ 1 := by
  split
  · exact Nat.zero_le 1
  · exact (Wraps.incomplete problem).length_le d

theorem length_typeDeclaration_le (unread : List Token) (start : Nat) (found : List Tree)
    (d : Cursor) : (typeDeclaration unread start found d).1.length ≤ 1 := by
  cases unread with
  | nil => exact Nat.zero_le 1
  | cons t unread => exact (Wraps.typeDeclaration (List.cons_ne_nil t unread)).length_le d

theorem length_member_le {nested : Nat → List Tree → Parser}
    (hn : ∀ start found d, (nested start found d).1.length ≤ 1) (typeName : Option (List Char))
    (c : Cursor) : (member nested typeName c).1.length ≤ 1 := by
  refine length_look_le (fun d e => ?_) _
  split
  · exact hn _ _ _
  · split
    · exact (Wraps.close (by decide)).length_le e
    · split
      · exact Wraps.namedMember.length_le _
      · exact length_head_le _ e

end Lengths

/-- Behind a head that is not empty there is a declaration, if `nested` makes one. -/
theorem Wraps.memberRest {nested : Nat → List Tree → Parser} {typeName : Option (List Char)}
    {start : Nat} {found : List Tree} (hn : Wraps found (nested start found)) (hne : found ≠ []) :
    Wraps found (Grammar.memberRest nested typeName start found) := by
  refine look fun d => ?_
  split
  · exact hn
  · split
    · exact close (by decide)
    · split
      · exact fun e => namedMember.ofMore _
      · rw [if_neg (by simpa using hne)]
        exact incomplete _

section Members

variable (hx : x.kind.isAnchor)

include hx

theorem lockstep_namedMember (start : Nat) (found : List Tree) :
    Lockstep x r r' n (namedMember start found) (namedMember start found) := by
  refine .look fun init c c' _ h => ?_
  have hincomplete {m} : Lockstep x r r' m (report .expectedMemberName ++ incomplete start found)
      (report .expectedMemberName ++ incomplete start found) :=
    (Lockstep.report _ _).append ((Lockstep.emit found).close _ _)
  rw [← h.kind]
  split
  · exact hincomplete
  · rename_i hk
    cases init with
    | nil =>
      -- the name would be the last token
      obtain ⟨hi, -⟩ := TokenKind.isAnchor_iff.1 hx
      simp [bne, h.kind_nil, hi] at hk
    | cons t init =>
      rw [← h.peek (by simp)]
      split
      · exact ((Lockstep.emit found).append (lockstep_methodRest hx)).close _ _
      · exact ((Lockstep.emit found).append (lockstep_propertyRest hx)).close _ _
      · exact ((Lockstep.emit found).append (lockstep_propertyRest hx)).close _ _
      · exact ((Lockstep.emit found).append (lockstep_fieldRest hx)).close _ _

theorem startsConstructor_agree (typeName : Option (List Char)) {init : List Token}
    {c c' : Cursor} (h : Agree x r r' init c c') :
    startsConstructor typeName c = startsConstructor typeName c' := by
  unfold startsConstructor
  rw [← h.kind, ← h.next]
  cases init with
  | nil =>
    obtain ⟨hi, -⟩ := TokenKind.isAnchor_iff.1 hx
    simp [h.kind_nil, hi]
  | cons t init => rw [h.peek (by simp)]

/-- A member from its type on. -/
theorem lockstep_typedMember {start : Nat} {found : List Tree} (hc : head.Covers found)
    (hw : ∀ t ∈ found, t.WellFormed) : Lockstep x r r' n
      ((emit found ++ typeReference.into .type).read fun _ found => namedMember start found)
      ((emit found ++ typeReference.into .type).read fun _ found => namedMember start found) := by
  have hmakes {P} : Makes P (emit found ++ typeReference.into .type) (seq head (opt type)) := by
    intro c _
    have htype : Yields Any (typeReference.into .type) (opt type) := yields_typeReference.into_opt
    obtain ⟨hr, ht⟩ := htype c trivial
    refine ⟨.seq hc ht, fun t ht => ?_⟩
    exact (List.mem_append.1 ht).elim (hw t) (hr.wellFormed t)
  exact ((Lockstep.emit found).append (lockstep_typeInto hx _)).read hmakes hmakes
    (fun _ ts _ _ => lockstep_namedMember hx start ts) fun d d' hc hc' hw hw' ht =>
      twin_wrapped hx hc hc' hw hw' ht .namedMember .namedMember d d'

theorem lockstep_member {nested nested' : Nat → List Tree → Parser}
    (hn : ∀ start found, Lockstep x r r' n (nested start found) (nested' start found))
    (hw : ∀ start found, Wraps found (nested start found))
    (hw' : ∀ start found, Wraps found (nested' start found)) (typeName : Option (List Char)) :
    Lockstep x r r' n (member nested typeName) (member nested' typeName) := by
  have hhead : ∀ {P}, Makes P declarationHead head := yields_declarationHead.makes
  rw [member_eq, member_eq]
  refine (lockstep_declarationHead hx).read hhead hhead (fun start found hc hf => ?_)
    fun d d' hc hc' hf hf' ht => ?_
  · refine .look fun init c c' hi h => ?_
    rw [← h.kind, ← startsConstructor_agree hx _ h]
    split
    · exact (hn start found).mono hi
    · split
      · exact ((Lockstep.emit found).append (lockstep_constructorRest hx)).close _ _
      · split
        · exact lockstep_typedMember hx hc hf
        · split
          · exact .nothing
          · exact (Lockstep.report _ _).append ((Lockstep.emit found).close _ _)
  · exact twin_wrapped hx (covers_bareHead hc) (covers_bareHead hc') hf hf' ht
      (.memberRest (hw _ _) ht.ne_nil.1) (.memberRest (hw' _ _) ht.ne_nil.2) d d'

end Members

/-! ## Types -/

/-- Declarations up to the end of the braces, or of the file. -/
theorem lockstep_parts {p p' : Parser} {test : TokenKind → Bool} {slot : Slot} {k : NodeKind → Bool}
    (hp : Lockstep x r r' n p p')
    (hy : Declares (Within (n + 1 + r.length)) p k)
    (hl : ∀ c, (p c).1.length ≤ 1) (hl' : ∀ c, (p' c).1.length ≤ 1) (problem : Problem)
    (he : test .endOfFile = false) (hk : k .variableDeclarator = false) :
    Lockstep x r r' n (Parser.many test ((p.into slot).orSkip problem))
      (Parser.many test ((p'.into slot).orSkip problem)) := by
  refine .many ((hp.into hl hl' slot).orSkip problem) (yields_part hy problem he) ?_
  simp [Pattern.declarations, skipped, leaf, Pattern.node, beyond, hk, Kind.isToken, Kind.token?]

section Types

variable (hx : x.kind.isAnchor)

include hx

theorem lockstep_baseList : Lockstep x r r' n baseList baseList :=
  ((Lockstep.expect _).append (.separated (lockstep_typeInto hx _))).node _

theorem lockstep_typeRest {memberOf memberOf' : Option (List Char) → Parser}
    (hm : ∀ typeName, Lockstep x r r' n (memberOf typeName) (memberOf' typeName))
    (hy : ∀ typeName, Declares (Within (n + 1 + r.length)) (memberOf typeName) NodeKind.isInner)
    (hl : ∀ typeName c, (memberOf typeName c).1.length ≤ 1)
    (hl' : ∀ typeName c, (memberOf' typeName c).1.length ≤ 1) :
    Lockstep x r r' n (typeRest memberOf) (typeRest memberOf') := by
  refine .look fun init c c' hi h => ?_
  rw [← h.kind, ← h.next]
  have hbases {m} : Lockstep x r r' m (baseList.into .bases) (baseList.into .bases) :=
    (lockstep_baseList hx).into (length_node_le _ _) (length_node_le _ _) _
  have hparts (typeName : Option (List Char)) : Lockstep x r r' init.length
      (Parser.many continuesBraces (((memberOf typeName).into .member).orSkip .expectedMember))
      (Parser.many continuesBraces (((memberOf' typeName).into .member).orSkip .expectedMember)) :=
    (lockstep_parts (hm _) (hy _) (hl _) (hl' _) .expectedMember rfl rfl).mono hi
  exact ((lockstep_expectInto _ _).append (.optional hbases)).append
    (.orReport ((Lockstep.take.append (hparts _)).append (.expect _)) _)

/-- The types that nest are fewer than the tokens left in either run. -/
theorem lockstep_typeDeclaration {unread unread' : List Token}
    (hu : n + 1 + r.length ≤ unread.length) (hu' : n + 1 + r'.length ≤ unread'.length)
    (start : Nat) (found : List Tree) : Lockstep x r r' n
      (typeDeclaration unread start found) (typeDeclaration unread' start found) := by
  induction unread generalizing n unread' start found with
  | nil => simp at hu
  | cons t unread ih =>
    obtain ⟨t', unread', rfl⟩ := List.exists_cons_of_length_pos (by omega : 0 < unread'.length)
    rw [List.length_cons] at hu hu'
    refine .look fun init c c' hi h => ?_
    rw [← h.kind, append_assoc, append_assoc]
    refine ((Lockstep.emit found).append (.takeThen fun m hm => ?_)).close _ _
    have hne {us : List Token} (h : 0 < us.length) : us ≠ [] := List.length_pos_iff.1 h
    refine lockstep_typeRest hx (fun typeName => lockstep_member hx ?_ ?_ ?_ typeName)
      (fun typeName => ?_) ?_ ?_
    · exact fun start found => ih (by omega) (by omega) start found
    · exact fun start found => .typeDeclaration (hne (by omega))
    · exact fun start found => .typeDeclaration (hne (by omega))
    · refine (declares_member (reads_typeDeclaration unread) typeName).mono fun d hd => ?_
      unfold Within at *
      omega
    · exact length_member_le (length_typeDeclaration_le unread)
    · exact length_member_le (length_typeDeclaration_le unread')

end Types

/-! ## Namespaces -/

/-- A type outside of every type, from behind its head on. -/
def outerTypeRest (start : Nat) (head : List Tree) : Parser := look fun c =>
  if c.kind.isTypeKeyword then typeDeclaration c.rest start head
  else if head.isEmpty then nothing
  else report .expectedTypeDeclaration ++ incomplete start head

theorem outerType_eq : outerType = declarationHead.read outerTypeRest := rfl

theorem Wraps.outerTypeRest {start : Nat} {found : List Tree} (hne : found ≠ []) :
    Wraps found (Grammar.outerTypeRest start found) := by
  refine look fun d => ?_
  split
  · rename_i hk
    refine typeDeclaration fun hr => ?_
    simp [Cursor.kind, Cursor.next, hr, Token.endOfFile, TokenKind.isTypeKeyword] at hk
  · rw [if_neg (by simpa using hne)]
    exact incomplete _

theorem length_outerType_le (c : Cursor) : (outerType c).1.length ≤ 1 := by
  refine length_look_le (fun d e => ?_) _
  split
  · exact length_typeDeclaration_le _ _ _ e
  · exact length_head_le _ e

theorem length_namespaceMember_le (unread : List Token) (c : Cursor) :
    (namespaceMember unread c).1.length ≤ 1 := by
  cases unread with
  | nil => exact Nat.zero_le 1
  | cons t unread =>
    refine length_look_le (fun d e => ?_) c
    split
    · exact length_node_le _ _ e
    · exact length_outerType_le e

/-- A namespace from behind its keyword on. -/
def namespaceRest (inner : Parser) : Parser :=
  qualifiedName ++ ifNext (· == .semicolon) take
    (expect .openBrace ++
      Parser.many continuesBraces ((inner.into .member).orSkip .expectedDeclaration) ++
      expect .closeBrace)

theorem namespaceDeclaration_eq (inner : Parser) : namespaceDeclaration inner =
    Parser.node .namespaceDeclaration (expect .namespaceKeyword ++ namespaceRest inner) := by
  rw [namespaceDeclaration, append_assoc]
  rfl

section Namespaces

variable (hx : x.kind.isAnchor)

include hx

theorem lockstep_outerType : Lockstep x r r' n outerType outerType := by
  have hhead : ∀ {P}, Makes P declarationHead head := yields_declarationHead.makes
  rw [outerType_eq]
  refine (lockstep_declarationHead hx).read hhead hhead (fun start found hc hf => ?_)
    fun d d' hc hc' hf hf' ht => ?_
  · refine .look fun init c c' hi h => ?_
    have hc : init.length + 1 + r.length ≤ c.rest.length := by rw [h.rest]; simp; omega
    have hc' : init.length + 1 + r'.length ≤ c'.rest.length := by rw [h.rest']; simp; omega
    rw [← h.kind]
    split
    · exact lockstep_typeDeclaration hx hc hc' start found
    · split
      · exact .nothing
      · exact (Lockstep.report _ _).append ((Lockstep.emit found).close _ _)
  · exact twin_wrapped hx (covers_bareHead hc) (covers_bareHead hc') hf hf' ht
      (.outerTypeRest ht.ne_nil.1) (.outerTypeRest ht.ne_nil.2) d d'

theorem lockstep_namespaceRest {inner inner' : Parser} (hi : Lockstep x r r' n inner inner')
    (hy : Declares (Within (n + 1 + r.length)) inner NodeKind.isOuter)
    (hl : ∀ c, (inner c).1.length ≤ 1) (hl' : ∀ c, (inner' c).1.length ≤ 1) :
    Lockstep x r r' n (namespaceRest inner) (namespaceRest inner') :=
  (lockstep_qualifiedName hx).append (.ifNext .take (((Lockstep.expect _).append
    (lockstep_parts hi hy hl hl' _ rfl rfl)).append (.expect _)))

/-- The namespaces that nest are fewer than the tokens left in either run. -/
theorem lockstep_namespaceMember {unread unread' : List Token}
    (hu : n + 1 + r.length ≤ unread.length) (hu' : n + 1 + r'.length ≤ unread'.length) :
    Lockstep x r r' n (namespaceMember unread) (namespaceMember unread') := by
  induction unread generalizing n unread' with
  | nil => simp at hu
  | cons t unread ih =>
    obtain ⟨t', unread', rfl⟩ := List.exists_cons_of_length_pos (by omega : 0 < unread'.length)
    rw [List.length_cons] at hu hu'
    intro init c c' hi h
    by_cases hk : (c.kind == .namespaceKeyword) = true
    · have hrest : ∀ m < n, Lockstep x r r' m (namespaceRest (namespaceMember unread))
          (namespaceRest (namespaceMember unread')) := by
        intro m hm
        exact lockstep_namespaceRest hx (ih (by omega) (by omega))
          (declares_namespaceMember_of_le (by omega))
          (length_namespaceMember_le _) (length_namespaceMember_le _)
      rw [namespaceMember, namespaceMember, ifNext_pos hk, ifNext_pos (h.kind ▸ hk),
        namespaceDeclaration_eq, namespaceDeclaration_eq]
      exact (Lockstep.expectThen hrest hi h hk).node h.next _
    · rw [Bool.not_eq_true] at hk
      rw [namespaceMember, namespaceMember, ifNext_neg hk, ifNext_neg (h.kind ▸ hk)]
      exact lockstep_outerType hx init c c' hi h

theorem lockstep_declarations : Lockstep x r r' n declarations declarations := by
  refine .look fun init c c' hi h => ?_
  have hc : init.length + 1 + r.length ≤ c.rest.length := by rw [h.rest]; simp; omega
  have hc' : init.length + 1 + r'.length ≤ c'.rest.length := by rw [h.rest']; simp; omega
  exact lockstep_parts (lockstep_namespaceMember hx hc hc') (declares_namespaceMember_of_le hc)
    (length_namespaceMember_le _) (length_namespaceMember_le _) _ rfl rfl

end Namespaces

end Caret.Grammar

namespace Caret.SourceFile

open Grammar

/-- The trees of two texts are alike around the last token of those that both begin with. -/
theorem alike_roots {x : Token} {r r' init : List Token} {text text' : List Char}
    (hx : x.kind.isAnchor) (h : (scan text).dropLast = init ++ x :: r)
    (h' : (scan text').dropLast = init ++ x :: r') :
    Alike x (ofText text).root (ofText text').root := by
  rcases lockstep_declarations hx init (startOf text) (startOf text') (Nat.le_refl _)
    ⟨h, h', rfl⟩ with ⟨-, left, -, hleft⟩ | ht
  · -- all tokens are read, and so is `x`
    have hrest := hleft.rest
    rw [rest_declarations] at hrest
    simp at hrest
  · exact .node (ht.append _ _) _ _ _ _

end Caret.SourceFile
