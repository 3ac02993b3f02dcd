import Caret.Proofs.ExpressionPatterns
import Caret.Proofs.Lockstep
/-!
# Expressions and statements before two texts

One lemma for each parser, as for the patterns: it does the same in two runs as long as it does not
read the last token that both have.
-/

namespace Caret.Grammar

open Caret.Parser Pattern

variable {x : Token} {r r' : List Token} {n : Nat} {e s : Parser}

/-! ## Names -/

theorem length_take_le (c : Cursor) : (take c).1.length ≤ 1 := by
  unfold take
  split <;> simp

theorem lockstep_takeInto (slot : Slot) :
    Lockstep x r r' n (take.into slot) (take.into slot) :=
  Lockstep.take.into length_take_le length_take_le slot

section Names

variable (hx : x.kind.isAnchor)

include hx

theorem dotNameAt_agree {init : List Token} {c c' : Cursor} (h : Agree x r r' init c c') :
    dotNameAt c 0 = dotNameAt c' 0 := by
  unfold dotNameAt
  cases init with
  | nil =>
    obtain ⟨-, -, hdot, -, -⟩ := TokenKind.isAnchor_iff.1 hx
    rw [← h.peek (Nat.zero_le _), peek_zero, h.kind_nil]
    simp [hdot]
  | cons t init => rw [h.peek (by simp), h.peek (by simp)]

theorem lockstep_dotted : Lockstep x r r' n dotted dotted := by
  suffices h : ∀ unread unread' : List Token, ∀ m, m < unread.length → m < unread'.length →
      Lockstep x r r' m (dottedAtMost unread) (dottedAtMost unread') from
    .look fun init c c' _ hc => h c.rest c'.rest init.length
      (by rw [hc.rest]; simp) (by rw [hc.rest']; simp)
  intro unread
  induction unread with
  | nil => intro _ m hm; simp at hm
  | cons t unread ih =>
    intro unread' m hu hu'
    obtain ⟨t', unread', rfl⟩ := List.exists_cons_of_length_pos (Nat.zero_lt_of_lt hu')
    rw [List.length_cons] at hu hu'
    refine .look fun init c c' hi h => ?_
    rw [← dotNameAt_agree hx h]
    split
    · rw [append_assoc, append_assoc]
      exact .takeThen fun m' hm' => .append .take (ih unread' m' (by omega) (by omega))
    · exact .nothing

/-- A name does not end with the last token that both texts have, so its last part is the same in
both runs. -/
theorem inStep_intoName {p : Parser} {c c' : Cursor} {slot slot' : Slot}
    (h : InStep x r r' n (p c) (p c')) (hc : (opt (qualified slot)).Covers (p c).1) :
    InStep x r r' n (p.into slot' c) (p.into slot' c') := by
  rcases h with ⟨he, hagree⟩ | ht
  · exact .inl ⟨by simp only [into, he], hagree⟩
  · obtain ⟨u, hu, fs, hf⟩ := ht.holds.1
    have hallows := hc.allows u hu
    cases hf with
    | leaf s =>
      obtain ⟨hi, -, hdot, -, -⟩ := TokenKind.isAnchor_iff.1 hx
      simp [opt, qualified, leaf, allows, Tree.kind, TokenKind.isNamePart, hi, hdot] at hallows
    | node f => simp [opt, qualified, leaf, allows, Tree.kind, Kind.isToken, Kind.token?] at hallows

theorem lockstep_qualifiedName : Lockstep x r r' n qualifiedName qualifiedName :=
  fun init c c' hi h => inStep_intoName hx
    (((Lockstep.expect _).append (lockstep_dotted hx)) init c c' hi h)
    (yields_dottedName (P := Any) c trivial).2

theorem lockstep_qualifiedName_into (slot : Slot) :
    Lockstep x r r' n (qualifiedName.into slot) (qualifiedName.into slot) :=
  fun init c c' hi h => inStep_intoName hx (lockstep_qualifiedName hx init c c' hi h)
    (yields_qualifiedName (P := Any) c trivial).2

theorem lockstep_arrayBrackets : Lockstep x r r' n arrayBrackets arrayBrackets := by
  refine .look fun init c c' _ h => ?_
  have hpeek : (c.peek 0 == .openBracket && c.peek 1 == .closeBracket) =
      (c'.peek 0 == .openBracket && c'.peek 1 == .closeBracket) := by
    cases init with
    | nil =>
      obtain ⟨-, -, -, hbracket, -⟩ := TokenKind.isAnchor_iff.1 hx
      rw [← h.peek (Nat.zero_le _), peek_zero, h.kind_nil]
      simp [hbracket]
    | cons t init => rw [h.peek (by simp), h.peek (by simp)]
  rw [← hpeek]
  split
  · exact .append .take .take
  · exact .nothing

theorem lockstep_typeReference : Lockstep x r r' n typeReference typeReference := by
  intro init c c' hi h
  change InStep x r r' init.length ((if c.kind.isPredefinedType then _ else _ : Parser) c)
    ((if c'.kind.isPredefinedType then _ else _ : Parser) c')
  rw [← h.kind]
  split
  · exact (((lockstep_takeInto _).append (lockstep_arrayBrackets hx)).node _) init c c' hi h
  · split
    · rename_i hk
      have hname : InStep x r r' init.length ((take ++ dotted).into .name c)
          ((take ++ dotted).into .name c') :=
        inStep_intoName hx ((Lockstep.take.append (lockstep_dotted hx)) init c c' hi h)
          (yields_takenName c hk).2.some
      have hbrackets := hname.append fun init' hi' h' =>
        (lockstep_arrayBrackets hx init' _ _ (Nat.le_refl _) h').mono hi'
      exact hbrackets.node h.next .typeReference
    · exact Lockstep.report _ _ init c c' hi h

theorem lockstep_typeInto (slot : Slot) :
    Lockstep x r r' n (typeReference.into slot) (typeReference.into slot) := by
  have hlength (c : Cursor) : (typeReference c).1.length ≤ 1 :=
    (yields_typeReference (P := Any) c trivial).2.length_le_one
  exact (lockstep_typeReference hx).into hlength hlength slot

end Names

/-! ## Expressions -/

theorem length_node_le (k : NodeKind) (p : Parser) (c : Cursor) :
    (Parser.node k p c).1.length ≤ 1 := Nat.le_refl 1

theorem ReadsExpression.length_le (he : ReadsExpression e) (c : Cursor) : (e c).1.length ≤ 1 :=
  (he c trivial).2.length_le_one

/-- The parser yields an expression or nothing, and the same in both runs. -/
structure SteadyExpression (x : Token) (r r' : List Token) (n : Nat) (e : Parser) : Prop where
  reads : ReadsExpression e
  lockstep : Lockstep x r r' n e e

theorem SteadyExpression.into (h : SteadyExpression x r r' n e) (slot : Slot) :
    Lockstep x r r' n (e.into slot) (e.into slot) :=
  h.lockstep.into h.reads.length_le h.reads.length_le slot

theorem SteadyExpression.mono (h : SteadyExpression x r r' n e) {m : Nat} (hm : m ≤ n) :
    SteadyExpression x r r' m e := ⟨h.reads, h.lockstep.mono hm⟩

theorem lockstep_identifierName : Lockstep x r r' n identifierName identifierName :=
  Lockstep.take.node _

section Expressions

variable (hx : x.kind.isAnchor) (h : SteadyExpression x r r' n e)

include h

theorem lockstep_argumentList : Lockstep x r r' n (argumentList e) (argumentList e) :=
  ((((Lockstep.expect _).append (.separated ((Lockstep.optional .take).append
    (h.into _)))).append (.expect _)).node _)

theorem lockstep_argumentsInto (slot : Slot) :
    Lockstep x r r' n ((argumentList e).into slot) ((argumentList e).into slot) :=
  (lockstep_argumentList h).into (length_node_le _ _) (length_node_le _ _) slot

theorem lockstep_optionalArguments :
    Lockstep x r r' n (optionalArguments e) (optionalArguments e) :=
  .optional (lockstep_argumentsInto h _)

theorem lockstep_parenthesized : Lockstep x r r' n (parenthesized e) (parenthesized e) :=
  ((Lockstep.take.append (h.into _)).append (.expect _)).node _

include hx

theorem lockstep_objectCreation : Lockstep x r r' n (objectCreation e) (objectCreation e) :=
  (((Lockstep.expect _).append (.orReport (lockstep_typeInto hx _) _)).append
    (lockstep_optionalArguments h)).node _

theorem lockstep_primary : Lockstep x r r' n (primary e) (primary e) := by
  refine .look fun init c c' hi ha => ?_
  rw [← ha.kind]
  split
  case h_1 | h_2 | h_3 | h_4 | h_5 | h_6 => exact lockstep_identifierName
  case h_7 | h_8 | h_9 | h_10 | h_11 | h_12 | h_13 => exact Lockstep.take.node _
  case h_14 => exact lockstep_parenthesized (h.mono hi)
  case h_15 => exact lockstep_objectCreation hx (h.mono hi)
  case h_16 => exact .report _ _

end Expressions

/-! ## Operators -/

/-- What a rule adds to an expression takes tokens. -/
theorem progress_of_extends {a : Pattern} {rule : Cursor → Option Extension} {left : List Tree}
    (h : Extends a rule) (hl : a.Covers left) {c : Cursor} {ext : Extension}
    (hext : rule c = some ext) : (ext.rest c).2.rest.length < c.rest.length :=
  (h c ext left hext hl).2.2.1

/-- An expression that is not missing is one node. -/
theorem exists_node_of_covers {ts : List Tree} (h : (Pattern.expression .loose).Covers ts)
    (hne : ts ≠ []) : ∃ k span children, ts = [.node .loose k span children] := by
  rcases covers_opt.1 h with h | h
  · obtain ⟨k, span, children, hts, -⟩ := covers_node.1 h
    exact ⟨k, span, children, hts⟩
  · exact absurd h hne

/-- Expressions that hold the token stay alike when they go on. -/
theorem twin_extended {rule : Cursor → Option Extension} (hrule : Steady x r r' n rule)
    {ts ts' : List Tree} (ha : (Pattern.expression .loose).Covers ts)
    (ha' : (Pattern.expression .loose).Covers ts') (ht : Twin x ts ts') (start start' : Nat)
    (d d' : Cursor) :
    Twin x (extend rule start d.rest ts d).1 (extend rule start' d'.rest ts' d').1 := by
  obtain ⟨k, span, us, rfl⟩ := exists_node_of_covers ha ht.ne_nil.1
  obtain ⟨k', span', us', rfl⟩ := exists_node_of_covers ha' ht.ne_nil.2
  exact hrule.twin_extend ht rfl rfl _ _ _ _

theorem lockstep_extend {rule : Cursor → Option Extension} (hrule : Steady x r r' n rule)
    (start : Nat) (left : List Tree) :
    Lockstep x r r' n (look fun c => extend rule start c.rest left)
      (look fun c => extend rule start c.rest left) :=
  .look fun init c c' hi ha => (hrule.mono hi).extend left (by rw [ha.rest]; simp)
    (by rw [ha.rest']; simp)

section Operators

variable (hx : x.kind.isAnchor) (h : SteadyExpression x r r' n e)

include h

theorem steady_suffix : Steady x r r' n (suffix e) where
  kind hk := by unfold suffix; rw [hk]
  extension {c ext} hext := by
    unfold suffix at hext
    split at hext <;> simp only [Option.some.injEq, reduceCtorEq] at hext <;> rw [← hext] <;> rfl
  lockstep {c ext} hext := by
    unfold suffix at hext
    split at hext <;> simp only [Option.some.injEq, reduceCtorEq] at hext <;> rw [← hext]
    · have hname : Lockstep x r r' n (identifierName.into .right) (identifierName.into .right) :=
        lockstep_identifierName.into (length_node_le _ _) (length_node_le _ _) _
      exact (lockstep_takeInto _).append (.orReport hname _)
    · exact lockstep_argumentsInto h _
  progress hext := progress_of_extends (extends_suffix h.reads)
    (covers_node.2 ⟨.thisExpression, ⟨0, 0⟩, [], rfl, rfl⟩) hext

theorem steady_operation (precedence : Nat) : Steady x r r' n (operation precedence e) where
  kind hk := by unfold operation; rw [hk]
  extension {c ext} hext := by
    unfold operation at hext
    split at hext
    · rw [← Option.some.inj hext]; rfl
    · cases hext
  lockstep {c ext} hext := by
    unfold operation at hext
    split at hext
    · rw [← Option.some.inj hext]
      exact (lockstep_takeInto _).append (h.into _)
    · cases hext
  progress hext := progress_of_extends (extends_operation precedence h.reads) Covers.none hext

theorem steady_level (precedence : Nat) : SteadyExpression x r r' n (level precedence e) where
  reads := yields_level precedence h.reads
  lockstep := by
    have hrule := steady_operation h precedence
    exact h.lockstep.read h.reads.whenever.makes h.reads.whenever.makes
      (fun start ts _ _ => lockstep_extend hrule start ts)
      fun _ _ ha ha' _ _ ht => twin_extended hrule ha ha' ht _ _ _ _

theorem steady_binary : SteadyExpression x r r' n (binary e) :=
  steady_level (steady_level (steady_level (steady_level (steady_level (steady_level h 6) 5) 4) 3)
    2) 1

theorem steady_assignment {value : Parser} (hv : SteadyExpression x r r' n value) :
    SteadyExpression x r r' n (assignment e value) where
  reads := yields_assignment h.reads hv.reads
  lockstep := by
    have hb := steady_binary h
    have hrest : Lockstep x r r' n (take.into .operator ++ value.into .right)
        (take.into .operator ++ value.into .right) := (lockstep_takeInto _).append (hv.into _)
    refine hb.lockstep.read hb.reads.whenever.makes hb.reads.whenever.makes
      (fun start ts _ _ => ?_) fun {start start' ts ts'} d d' ha ha' _ _ ht => ?_
    · exact .ifNext (((Lockstep.emit _).append hrest).close _ _) (.emit ts)
    · obtain ⟨k, span, us, rfl⟩ := exists_node_of_covers ha ht.ne_nil.1
      obtain ⟨k', span', us', rfl⟩ := exists_node_of_covers ha' ht.ne_nil.2
      have hbegins (k : NodeKind) (span : Span) (us : List Tree) (start : Nat) (d : Cursor) :
          ∃ u, (ifNext TokenKind.isAssignment (enlarge ⟨.assignmentExpression, .left,
            take.into .operator ++ value.into .right⟩ start [.node .loose k span us])
            (emit [.node .loose k span us]) d).1 = [u] ∧ Tree.Begins (.node .loose k span us) u := by
        by_cases hk : d.kind.isAssignment = true
        · rw [ifNext_pos hk]
          exact ⟨_, rfl, .extend .refl rfl⟩
        · rw [ifNext_neg (by simpa using hk)]
          exact ⟨_, rfl, .refl⟩
      obtain ⟨u, hu, hbu⟩ := hbegins k span us start d
      obtain ⟨u', hu', hbu'⟩ := hbegins k' span' us' start' d'
      rw [hu, hu']
      exact .single (ht.of_single.begins hbu hbu' ((hbu.slot rfl).trans (hbu'.slot rfl).symm))

theorem lockstep_signed : Lockstep x r r' n (signed e) (signed e) :=
  ((lockstep_takeInto _).append (h.into _)).node _

include hx

theorem steady_suffixed : SteadyExpression x r r' n (suffixed e) where
  reads := yields_suffixed h.reads
  lockstep := by
    have hrule := steady_suffix h
    have hprimary := yields_primary h.reads
    refine (lockstep_primary hx h).read hprimary.whenever.makes hprimary.whenever.makes
      (fun start ts _ _ => ?_) fun _ _ ha ha' _ _ ht => ?_
    · by_cases hts : ts.isEmpty = true
      · simp only [hts, if_true]
        exact .nothing
      · simp only [hts]
        exact lockstep_extend hrule start ts
    · have hne {us : List Tree} (h : us ≠ []) : us.isEmpty = false := by
        cases us <;> simp at h ⊢
      simp only [look, hne ht.ne_nil.1, hne ht.ne_nil.2]
      exact twin_extended hrule ha ha' ht _ _ _ _

end Operators

/-! ## Nesting -/

theorem steady_nesting (hx : x.kind.isAnchor) (depth : Nat) :
    SteadyExpression x r r' n (Nesting.of depth).expression ∧
      SteadyExpression x r r' n (Nesting.of depth).operand := by
  obtain hreads := yields_nesting depth
  induction depth with
  | zero =>
    have hdeepest : SteadyExpression x r r' n (report .nestingTooDeep) :=
      ⟨(yields_nesting 0).1, .report _ _⟩
    refine ⟨hdeepest, hreads.2, ?_⟩
    rw [Nesting.of_zero_operand]
    exact .ifNext (.report _ _) (steady_suffixed hx hdeepest).lockstep
  | succ depth ih =>
    obtain ⟨hx', ho⟩ := ih (yields_nesting depth)
    have hexpression : SteadyExpression x r r' n (Nesting.of (depth + 1)).expression := by
      rw [Nesting.of_succ_expression]
      exact steady_assignment ho hx'
    refine ⟨hexpression, hreads.2, ?_⟩
    rw [Nesting.of_succ_operand]
    exact .ifNext (lockstep_signed ho) (steady_suffixed hx hexpression).lockstep

theorem steady_expression (hx : x.kind.isAnchor) (depth : Nat) :
    SteadyExpression x r r' n (expression depth) := (steady_nesting hx depth).1

theorem lockstep_arrowClause (h : SteadyExpression x r r' n e) :
    Lockstep x r r' n (arrowClause e) (arrowClause e) :=
  ((Lockstep.expect _).append (h.into _)).node _

/-! ## Statements -/

/-- The parser yields a statement or nothing, and the same in both runs. -/
structure SteadyStatement (x : Token) (r r' : List Token) (n : Nat) (s : Parser) : Prop where
  reads : ReadsStatement s
  lockstep : Lockstep x r r' n s s

section Statements

variable (hx : x.kind.isAnchor) (h : SteadyExpression x r r' n e) (hs : SteadyStatement x r r' n s)

theorem lockstep_expectInto (k : TokenKind) (slot : Slot) :
    Lockstep x r r' n ((expect k).into slot) ((expect k).into slot) := by
  have hlength (c : Cursor) : ((expect k) c).1.length ≤ 1 := by
    by_cases hk : (c.kind == k) = true
    · rw [expect, ifNext_pos hk]
      exact length_take_le c
    · rw [expect, ifNext_neg (by simpa using hk)]
      exact Nat.zero_le 1
  exact (Lockstep.expect k).into hlength hlength slot

include h in
theorem lockstep_declarator : Lockstep x r r' n (declarator e) (declarator e) :=
  ((lockstep_expectInto _ _).append (.optional (Lockstep.take.append (h.into _)))).node _

include h in
theorem lockstep_declarators : Lockstep x r r' n (Grammar.declarators e) (Grammar.declarators e) :=
  .separated ((lockstep_declarator h).into (length_node_le _ _) (length_node_le _ _) _)

include hs in
theorem lockstep_block : Lockstep x r r' n (block s) (block s) := by
  have hlength (c : Cursor) : (s c).1.length ≤ 1 := (hs.reads c trivial).2.length_le_one
  have hpart : Lockstep x r r' n ((s.into .item).orSkip .expectedStatement)
      ((s.into .item).orSkip .expectedStatement) :=
    (hs.lockstep.into hlength hlength _).orSkip _
  exact (((Lockstep.expect _).append (.many hpart
    ((yields_blockPart hs.reads).mono fun _ h => h.2) rfl)).append (.expect _)).node _

include h in
theorem lockstep_condition : Lockstep x r r' n (Grammar.condition e) (Grammar.condition e) :=
  ((Lockstep.expect _).append (.ifNext .nothing h.lockstep)).append (.expect _)

include h in
theorem lockstep_returnStatement : Lockstep x r r' n (returnStatement e) (returnStatement e) :=
  (((Lockstep.expect _).append (.ifNext .nothing (h.into _))).append (.expect _)).node _

include h hs in
theorem lockstep_ifStatement : Lockstep x r r' n (ifStatement e s) (ifStatement e s) :=
  ((((Lockstep.expect _).append (lockstep_condition h)).append hs.lockstep).append
    (.optional ((Lockstep.take.append hs.lockstep).node _))).node _

include h hs in
theorem lockstep_whileStatement : Lockstep x r r' n (whileStatement e s) (whileStatement e s) :=
  (((Lockstep.expect _).append (lockstep_condition h)).append hs.lockstep).node _

include h in
theorem lockstep_expressionStatement :
    Lockstep x r r' n (expressionStatement e) (expressionStatement e) := by
  have hreads : ∀ {P}, Makes P (e.into .expression) (Pattern.expression .expression) :=
    h.reads.into.makes
  refine (h.into _).read hreads hreads (fun start ts _ _ => ?_) fun _ _ _ _ _ _ ht => ?_
  · by_cases hts : ts.isEmpty = true
    · simp only [hts, if_true]
      exact .nothing
    · simp only [hts]
      exact ((Lockstep.emit ts).append (.expect _)).close _ _
  · have hne {us : List Tree} (h : us ≠ []) : us.isEmpty = false := by
      cases us <;> simp at h ⊢
    simp only [hne ht.ne_nil.1, hne ht.ne_nil.2]
    exact .single (.node (ht.append _ _) _ _ _ _)

include hx

theorem startsLocal_agree {init : List Token} {c c' : Cursor} (ha : Agree x r r' init c c') :
    startsLocal c = startsLocal c' := by
  obtain ⟨hi, hp, -, hb, -⟩ := TokenKind.isAnchor_iff.1 hx
  unfold startsLocal
  rw [← ha.kind]
  cases init with
  | nil => simp [ha.kind_nil, hi, hp]
  | cons t init =>
    rw [← ha.peek (by simp)]
    cases init with
    | nil =>
      have hlast : c.peek 1 = x.kind := ha.peek_last
      simp [hlast, hi, hb]
    | cons u init => rw [← ha.peek (by simp)]

include h in
theorem lockstep_localDeclaration :
    Lockstep x r r' n (localDeclaration e) (localDeclaration e) :=
  (((lockstep_typeInto hx _).append (lockstep_declarators h)).append (.expect _)).node _

theorem steady_statement (depth : Nat) : SteadyStatement x r r' n (statement depth) := by
  refine ⟨yields_statement depth, ?_⟩
  induction depth generalizing n with
  | zero => exact .report _ _
  | succ depth ih =>
    have hs {m} : SteadyStatement x r r' m (statement depth) := ⟨yields_statement depth, ih⟩
    have he {m} : SteadyExpression x r r' m (expression depth) := steady_expression hx depth
    refine .look fun init c c' _ ha => ?_
    rw [← ha.kind, ← startsLocal_agree hx ha]
    split
    case h_1 => exact lockstep_block hs
    case h_2 => exact lockstep_returnStatement he
    case h_3 => exact lockstep_ifStatement he hs
    case h_4 => exact lockstep_whileStatement he hs
    case h_5 => exact Lockstep.take.node _
    case h_6 | h_7 => exact .nothing
    case h_8 =>
      split
      · exact lockstep_localDeclaration hx he
      · exact lockstep_expressionStatement he

end Statements

end Caret.Grammar
