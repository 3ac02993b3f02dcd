import Caret.Proofs.CleanText
import Caret.Proofs.Precedence
/-!
# Grouping by precedence

Every operation in the table of a text is grouped by the precedence of its operator, to the left
where precedences are equal (`NodeTable.ofText_grouped`). No diagnostic matters for that: where an
operand is missing, its slot is empty, and nothing else is put there.

Only expressions make operations, so the parsers for statements and declarations keep what holds of
the expressions they are made from.
-/

namespace Caret.Grammar

open Caret.Parser

variable {n : Nat} {e s : Parser} {start : Nat} {found : List Tree}

/-! ## Statements -/

theorem groups_arrowClause (he : Groups 0 e) : Groups n (arrowClause e) :=
  .node rfl ((Groups.expect _).append (he.into _))

theorem groups_declarators (he : Groups 0 e) : Groups 0 (declarators e) := by
  have hinitializer : Groups 0 (ifNext (· == .equals) (take ++ e.into .initializer) nothing) :=
    .ifNext (Groups.take.append (he.into _)) .nothing
  have hdeclarator : Groups 0 (declarator e) :=
    .node rfl (((Groups.expect _).into _).append hinitializer)
  exact .separated (hdeclarator.into _)

theorem groups_block (hs : Groups 0 s) : Groups n (block s) :=
  .node rfl (((Groups.expect _).append (.many ((hs.into _).orSkip _))).append (.expect _))

theorem groups_condition (he : Groups 0 e) : Groups 0 (condition e) :=
  ((Groups.expect _).append (.ifNext .nothing he)).append (.expect _)

theorem groups_localDeclaration (he : Groups 0 e) : Groups n (localDeclaration e) :=
  .node rfl (((groups_typeReference.into _).append (groups_declarators he)).append (.expect _))

theorem groups_returnStatement (he : Groups 0 e) : Groups n (returnStatement e) :=
  .node rfl (((Groups.expect _).append (.ifNext .nothing (he.into _))).append (.expect _))

theorem groups_ifStatement (he : Groups 0 e) (hs : Groups 0 s) : Groups n (ifStatement e s) :=
  .node rfl ((((Groups.expect _).append (groups_condition he)).append hs).append
    (.ifNext (.node rfl (Groups.take.append hs)) .nothing))

theorem groups_whileStatement (he : Groups 0 e) (hs : Groups 0 s) :
    Groups n (whileStatement e s) :=
  .node rfl (((Groups.expect _).append (groups_condition he)).append hs)

theorem groups_expressionStatement (he : Groups 0 e) : Groups 0 (expressionStatement e) := by
  refine .read (he.into _) fun start found hf => ?_
  split
  · exact .nothing
  · exact .close rfl ((Groups.emit hf).append (.expect _))

theorem groups_statement (depth : Nat) : Groups 0 (statement depth) := by
  induction depth with
  | zero => exact .report _
  | succ depth ih =>
    have he := groups_expression depth
    refine .look fun c => ?_
    split
    case h_1 => exact groups_block ih
    case h_2 => exact groups_returnStatement he
    case h_3 => exact groups_ifStatement he ih
    case h_4 => exact groups_whileStatement he ih
    case h_5 => exact .node rfl .take
    case h_6 | h_7 => exact .nothing
    case h_8 =>
      split
      · exact groups_localDeclaration he
      · exact groups_expressionStatement he

/-! ## Declarations -/

theorem groups_outerExpression : Groups 0 outerExpression := groups_expression _

theorem groups_initializer : Groups 0 (take ++ outerExpression.into .initializer) :=
  Groups.take.append (groups_outerExpression.into _)

theorem groups_attributeLists : Groups 0 attributeLists := by
  have hattribute : Groups 0 singleAttribute :=
    .node rfl ((groups_qualifiedName.into _).append (groups_optionalArguments groups_outerExpression))
  have hlist : Groups 0 attributeList :=
    .node rfl (((Groups.expect _).append (.separated (hattribute.into _))).append (.expect _))
  exact .many (hlist.into _)

theorem groups_modifiers : Groups 0 modifiers := .many (Groups.take.into _)

theorem groups_declarationHead : Groups 0 declarationHead :=
  groups_attributeLists.append groups_modifiers

theorem groups_parameterList : Groups 0 parameterList := by
  have hname : Groups 0 parameterName :=
    .ifNext ((groups_typeReference.into _).append ((Groups.expect _).into _)) (.report _)
  have hparameter : Groups 0 parameter :=
    .node rfl (((groups_attributeLists.append (.many (Groups.take.into _))).append hname).append
      (.ifNext groups_initializer .nothing))
  exact .node rfl (((Groups.expect _).append (.separated (hparameter.into _))).append (.expect _))

theorem groups_arrowBody :
    Groups 0 ((arrowClause outerExpression).into .body ++ expect .semicolon) :=
  ((groups_arrowClause groups_outerExpression).into _).append (.expect _)

theorem groups_memberBody : Groups 0 memberBody := by
  refine .look fun c => ?_
  split
  · exact (groups_block (groups_statement _)).into _
  · exact groups_arrowBody
  · exact .take
  · exact .report _

theorem groups_accessor : Groups 0 accessor := by
  refine .read groups_modifiers fun start found hf => .look fun c => ?_
  split
  · exact Groups.into (.close rfl (((Groups.emit hf).append (Groups.take.into _)).append
      groups_memberBody)) _
  · split
    · exact .nothing
    · refine (Groups.report _).append (.emit fun t ht => ?_)
      obtain ⟨u, hu, rfl⟩ := List.mem_map.1 ht
      exact (hf u hu).withSlot

theorem groups_accessorList : Groups 0 accessorList :=
  (((Groups.expect _).append (.many groups_accessor)).append (.expect _)).append
    (.ifNext (groups_initializer.append (.expect _)) .nothing)

theorem groups_nameAndParameters :
    Groups 0 ((expect .identifier).into .name ++ parameterList.into .parameters) :=
  ((Groups.expect _).into _).append (groups_parameterList.into _)

theorem groups_constructorRest : Groups 0 constructorRest := by
  have hinitializer : Groups 0 constructorInitializer :=
    .node rfl ((((Groups.expect _).into _).append (.ifNext (Groups.take.into _) (.report _))).append
      (groups_optionalArguments groups_outerExpression))
  exact (groups_nameAndParameters.append (.ifNext (hinitializer.into _) .nothing)).append
    groups_memberBody

theorem groups_methodRest : Groups 0 methodRest := groups_nameAndParameters.append groups_memberBody

theorem groups_propertyRest : Groups 0 propertyRest :=
  ((Groups.expect _).into _).append (.ifNext groups_arrowBody groups_accessorList)

theorem groups_fieldRest : Groups 0 fieldRest :=
  (groups_declarators groups_outerExpression).append (.expect _)

section Found

variable (hf : ∀ t ∈ found, t.IsGrouped 0)

include hf

theorem groups_incomplete (problem : Problem) : Groups 0 (report problem ++ incomplete start found) :=
  (Groups.report _).append (.close rfl (.emit hf))

theorem groups_head (problem : Problem) : Groups 0 (if found.isEmpty then nothing
    else report problem ++ incomplete start found) := by
  split
  · exact .nothing
  · exact groups_incomplete hf _

theorem groups_namedMember : Groups 0 (namedMember start found) := by
  refine .look fun c => ?_
  split
  · exact groups_incomplete hf _
  · split
    · exact .close rfl ((Groups.emit hf).append groups_methodRest)
    · exact .close rfl ((Groups.emit hf).append groups_propertyRest)
    · exact .close rfl ((Groups.emit hf).append groups_propertyRest)
    · exact .close rfl ((Groups.emit hf).append groups_fieldRest)

end Found

/-- What is read from the keyword of a type on is grouped if its head is. -/
def GroupsType (nested : Nat → List Tree → Parser) : Prop :=
  ∀ start head, (∀ t ∈ head, t.IsGrouped 0) → Groups 0 (nested start head)

theorem groups_member {nested : Nat → List Tree → Parser} (hn : GroupsType nested)
    (typeName : Option (List Char)) : Groups 0 (member nested typeName) := by
  refine .read groups_declarationHead fun start head hh => .look fun c => ?_
  split
  · exact hn start head hh
  · split
    · exact .close rfl ((Groups.emit hh).append groups_constructorRest)
    · split
      · exact .read ((Groups.emit hh).append (groups_typeReference.into _)) fun _ _ hf =>
          groups_namedMember hf
      · exact groups_head hh _

theorem groups_typeRest {memberOf : Option (List Char) → Parser}
    (hm : ∀ typeName, Groups 0 (memberOf typeName)) : Groups 0 (typeRest memberOf) := by
  have hbases : Groups 0 baseList :=
    .node rfl ((Groups.expect _).append (.separated (groups_typeReference.into _)))
  refine .look fun c => ?_
  exact (((Groups.expect _).into _).append (.ifNext (hbases.into _) .nothing)).append
    (.ifNext ((Groups.take.append (.many (((hm _).into _).orSkip _))).append (.expect _))
      (.report _))

theorem groups_typeDeclaration (unread : List Token) : GroupsType (typeDeclaration unread) := by
  induction unread with
  | nil => exact fun _ _ _ => .nothing
  | cons _ unread ih =>
    intro start head hh
    refine .look fun c => .close ?_ (((Groups.emit hh).append .take).append
      (groups_typeRest (groups_member ih)))
    unfold declarationKind
    split <;> rfl

theorem groups_outerType : Groups 0 outerType := by
  refine .read groups_declarationHead fun start head hh => .look fun c => ?_
  split
  · exact groups_typeDeclaration _ start head hh
  · exact groups_head hh _

theorem groups_namespaceMember (unread : List Token) : Groups 0 (namespaceMember unread) := by
  induction unread with
  | nil => exact .nothing
  | cons _ unread ih =>
    refine .ifNext (.node rfl (((Groups.expect _).append groups_qualifiedName).append ?_))
      groups_outerType
    exact .ifNext .take (((Groups.expect _).append (.many ((ih.into _).orSkip _))).append
      (.expect _))

theorem groups_declarations : Groups 0 declarations :=
  .look fun _ => .many (((groups_namespaceMember _).into _).orSkip _)

end Caret.Grammar

namespace Caret

open Tree

/-- All nodes of the tree of a text are grouped. -/
theorem SourceFile.root_isGrouped (text : List Char) : (ofText text).root.IsGrouped 0 := by
  refine isGrouped_plain rfl fun t ht => ?_
  rcases List.mem_append.1 ht with ht | ht
  · exact Grammar.groups_declarations _ t ht
  · rw [List.mem_singleton.1 ht]
    exact isGrouped_leaf _

namespace NodeTable

/-- The precedence of the operator of a binary operation. -/
def precedence? (t : NodeTable) (i : Ref) : Option Nat :=
  if t.node? i = some .binaryExpression then
    ((t.operation? i).bind fun parts => t.token? parts.operator).bind TokenKind.precedence?
  else none

/-- An operand that may stand where `p` is the lowest precedence: it is missing, a binary operation
whose operator is no looser, or neither a binary operation nor an assignment. -/
def IsOperand (t : NodeTable) (p : Nat) (i : Ref) : Prop :=
  i = none ∨ (∃ q, t.precedence? i = some q ∧ p ≤ q) ∨
    ∃ k, t.node? i = some k ∧ k ≠ .binaryExpression ∧ k ≠ .assignmentExpression

/-- The operands of an entry stand for what is grouped by precedence. -/
structure Grouped (t : NodeTable) (i : Nat) : Prop where
  /-- A binary operation groups to the left. -/
  binary : t.node? (some i) = some .binaryExpression → ∃ parts p,
    t.operation? (some i) = some parts ∧ t.precedence? (some i) = some p ∧
      t.IsOperand p parts.left ∧ t.IsOperand (p + 1) parts.right
  /-- An assignment groups to the right. -/
  assignment : t.node? (some i) = some .assignmentExpression → ∃ parts,
    t.operation? (some i) = some parts ∧ t.node? parts.left ≠ some .assignmentExpression
  /-- A sign belongs to the next operand alone. -/
  sign : t.node? (some i) = some .prefixUnaryExpression → ∃ parts,
    t.operation? (some i) = some parts ∧ t.node? parts.right ≠ some .binaryExpression ∧
      t.node? parts.right ≠ some .assignmentExpression
  /-- No operator is at the top of what a member is accessed of. -/
  access : t.node? (some i) = some .memberAccessExpression → ∃ parts,
    t.operation? (some i) = some parts ∧ ¬ t.isNode NodeKind.isOperator parts.left
  /-- No operator is at the top of what is called. -/
  call : t.node? (some i) = some .invocationExpression → ∃ parts,
    t.data (some i) = .call parts ∧ ¬ t.isNode NodeKind.isOperator parts.expression

theorem precedence?_pos {t : NodeTable} {i : Ref} {p : Nat} (h : t.precedence? i = some p) :
    0 < p := by
  unfold precedence? at h
  split at h
  · obtain ⟨token, -, hp⟩ := Option.bind_eq_some_iff.1 h
    exact (TokenKind.precedence?_bounds hp).1
  · cases h

section Sites

variable {root : Tree} {u v : Site} {slot : Slot} {k : NodeKind} {span : Span} {ts : List Tree}
  {s : Slot} {p : Nat}

/-- The kind of what fills a slot is that of the first child in the slot. -/
theorem kind?_inSlot (hu : u ∈ root.sites none 0) (s : Slot) :
    (ofTree root).kind? (Child.inSlot (u.children.map Site.asChild) s) =
      (u.tree.children.find? (·.slot == s)).map Tree.kind := by
  rw [Site.inSlot_children, Site.find?_children]
  cases hf : u.children.find? (·.tree.slot == s) with
  | none => rfl
  | some v => exact kind?_ofTree (Site.mem_sites_of_mem_children hu (List.mem_of_find?_eq_some hf))

theorem data_of_node (hu : u ∈ root.sites none 0) (ht : u.tree = .node slot k span ts) :
    (ofTree root).data (some u.index) = .ofChildren k (u.children.map Site.asChild) := by
  rw [data_ofTree hu, Site.data_entry ht]

/-- An operation holds its operands in their slots. -/
theorem exists_operation (hu : u ∈ root.sites none 0) (ht : u.tree = .node slot k span ts)
    (hk : k.shape? = some .operation) : ∃ parts,
      (ofTree root).operation? (some u.index) = some parts ∧
      (Slot.left, parts.left) ∈ ((ofTree root).data (some u.index)).slots ∧
      (Slot.right, parts.right) ∈ ((ofTree root).data (some u.index)).slots := by
  simp [operation?, data_of_node hu ht, Data.ofChildren, hk, Data.slots]

theorem exists_call (hu : u ∈ root.sites none 0) (ht : u.tree = .node slot k span ts)
    (hk : k.shape? = some .call) : ∃ parts, (ofTree root).data (some u.index) = .call parts ∧
      (Slot.expression, parts.expression) ∈ ((ofTree root).data (some u.index)).slots := by
  simp [data_of_node hu ht, Data.ofChildren, hk, Data.slots]

/-- The operator of a binary operation is a child in its slot. -/
theorem find?_operator (hc : (NodeKind.pattern .binaryExpression).Covers ts) :
    ∃ operator, ts.find? (·.slot == .operator) = some (leaf .operator operator) ∧
      operator.kind.precedence? = some (operatorLevel ts) := by
  obtain ⟨us, vs, rfl, hleft, hrest⟩ := Pattern.covers_seq.1 hc
  obtain ⟨ops, ws, rfl, hop, -⟩ := Pattern.covers_seq.1 hrest
  obtain ⟨operator, rfl, hp⟩ := Pattern.covers_leaf.1 hop
  obtain ⟨p, hp⟩ := Option.isSome_iff_exists.1 hp
  have hslot : ∀ t ∈ us, t.slot = .left := by
    intro t hmem
    rcases Pattern.covers_opt.1 hleft with hleft | rfl
    · obtain ⟨_, _, _, rfl, -⟩ := Pattern.covers_node.1 hleft
      rw [List.mem_singleton.1 hmem]
      rfl
    · cases hmem
  refine ⟨operator, ?_, by rw [hp, List.singleton_append, operatorLevel_append hslot hp]⟩
  rw [List.find?_append, List.find?_eq_none.2 fun t ht => by simp [hslot t ht]]
  rfl

/-- A binary operation has a precedence. -/
theorem precedence?_ofTree (hroot : root.WellFormed) (hu : u ∈ root.sites none 0)
    (ht : u.tree = .node slot .binaryExpression span ts) :
    (ofTree root).precedence? (some u.index) = some (operatorLevel ts) := by
  have hnode : (ofTree root).node? (some u.index) = some .binaryExpression := by
    rw [node?_ofTree hu, ht]
    rfl
  have hwell := hroot.of_mem_sites hu
  rw [ht] at hwell
  cases hwell with | node hc _ =>
  obtain ⟨operator, hfind, hp⟩ := find?_operator hc
  have hoperator : (ofTree root).token? (Child.inSlot (u.children.map Site.asChild) .operator) =
      some operator.kind := by
    rw [token?, kind?_inSlot hu, ht, Tree.children, hfind]
    rfl
  rw [precedence?, if_pos hnode, operation?, data_of_node hu ht, ← hp]
  change ((ofTree root).token? (Child.inSlot _ .operator)).bind _ = _
  rw [hoperator, Option.bind_some]

/-- What is tight enough in the tree may be an operand in its table. -/
theorem isOperand_of_holdsAt (hroot : root.WellFormed) (hv : v ∈ root.sites none 0)
    (ht : v.tree = .node slot k span ts) (hp : 0 < p) (h : v.tree.HoldsAt p) :
    (ofTree root).IsOperand p (some v.index) := by
  rw [ht] at h
  by_cases hb : k = .binaryExpression
  · subst hb
    exact .inr (.inl ⟨_, precedence?_ofTree hroot hv ht, h⟩)
  · refine .inr (.inr ⟨k, by rw [node?_ofTree hv, ht]; rfl, hb, ?_⟩)
    rintro rfl
    exact absurd h (Nat.ne_of_gt hp)

section Slots

variable (hgrouped : root.IsGrouped 0) (hu : u ∈ root.sites none 0)
  (ht : u.tree = .node slot k span ts) {r : Ref}
  (hr : (s, r) ∈ ((ofTree root).data (some u.index)).slots)

include hgrouped hu ht hr

/-- A node that the data of a grouped node have in a slot is as tight as that node demands. -/
theorem exists_tight {l : NodeKind} (hl : (ofTree root).node? r = some l) :
    ∃ v ∈ root.sites none 0, r = some v.index ∧
      ∃ slot span us, v.tree = .node slot l span us ∧ v.tree.HoldsAt (k.demand ts s) := by
  cases r with
  | none => cases hl
  | some j =>
    obtain ⟨-, -, -, v, hv, rfl, rfl⟩ := exists_child_of_slots hu hr
    obtain ⟨_, _, _, _, _, hchild, -⟩ := Site.mem_children.1 hv
    obtain ⟨-, -, -, hnode⟩ := (hgrouped.1 .endOfFile).at_site hu ht
    rw [ht] at hchild
    obtain ⟨-, -, -, rfl⟩ := Tree.node.inj hchild
    have hholds := hnode v.tree (by simp)
    have hv' := Site.mem_sites_of_mem_children hu hv
    rw [node?_ofTree hv'] at hl
    refine ⟨v, hv', rfl, ?_⟩
    cases htree : v.tree with
    | leaf slot t => rw [htree] at hl; cases hl
    | node slot l' span us =>
      rw [htree] at hl hholds
      cases hl
      exact ⟨slot, span, us, rfl, hholds⟩

/-- What stands beside an operator is missing or may be an operand there. -/
theorem isOperand_of_slots (hroot : root.WellFormed) (hp : 0 < p) (hd : k.demand ts s = p)
    (hs : ∀ l, k.fits l s → l.isNode NodeKind.isExpression) : (ofTree root).IsOperand p r := by
  cases hj : r with
  | none => exact .inl rfl
  | some j =>
    subst hj
    obtain ⟨-, owner, l, howner, hl, hfits⟩ := ofTree_fits hroot _ _ _ hr
    rw [node?_ofTree hu, ht] at howner
    cases howner
    obtain ⟨n, rfl, -⟩ := Kind.isNode_iff.1 (hs l hfits)
    have hnode : (ofTree root).node? (some j) = some n := by rw [node?, hl]; rfl
    obtain ⟨v, hv, hj, _, _, _, htree, hholds⟩ := exists_tight hgrouped hu ht hr hnode
    rw [hj]
    exact isOperand_of_holdsAt hroot hv htree hp (hd ▸ hholds)

theorem node?_ne_assignment (hd : 0 < k.demand ts s) :
    (ofTree root).node? r ≠ some .assignmentExpression := by
  intro hl
  obtain ⟨v, -, -, _, _, _, htree, hholds⟩ := exists_tight hgrouped hu ht hr hl
  rw [htree] at hholds
  exact hholds.ne_assignment hd rfl

theorem node?_ne_binary (hd : k.demand ts s = 7) :
    (ofTree root).node? r ≠ some .binaryExpression := by
  intro hl
  obtain ⟨v, -, -, _, _, _, htree, hholds⟩ := exists_tight hgrouped hu ht hr hl
  rw [htree, hd] at hholds
  exact hholds.ne_binary rfl

theorem not_isOperator (hd : k.demand ts s = 8) :
    ¬ (ofTree root).isNode NodeKind.isOperator r := by
  intro h
  obtain ⟨l, hl, ho⟩ := (Option.any_eq_true _ _).1 h
  obtain ⟨v, -, -, _, _, _, htree, hholds⟩ := exists_tight hgrouped hu ht hr hl
  rw [htree, hd] at hholds
  rw [hholds.not_isOperator] at ho
  cases ho

end Slots

end Sites

/-- The operations in the table of a text are grouped by precedence. -/
theorem ofText_grouped (text : List Char) (i : Nat) : (ofText text).Grouped i := by
  have hroot := SourceFile.root_wellFormed text
  have hgrouped := SourceFile.root_isGrouped text
  rw [ofText_eq]
  generalize (SourceFile.ofText text).root = root at *
  refine ⟨fun hk => ?_, fun hk => ?_, fun hk => ?_, fun hk => ?_, fun hk => ?_⟩
  all_goals obtain ⟨u, hu, rfl, slot, span, ts, ht⟩ := exists_nodeSite hk
  · obtain ⟨parts, hparts, hleft, hright⟩ := exists_operation hu ht rfl
    have hprecedence := precedence?_ofTree hroot hu ht
    have hpos := precedence?_pos hprecedence
    exact ⟨parts, _, hparts, hprecedence,
      isOperand_of_slots hgrouped hu ht hleft hroot hpos rfl fun _ h => h,
      isOperand_of_slots hgrouped hu ht hright hroot (Nat.succ_pos _) rfl fun _ h => h⟩
  · obtain ⟨parts, hparts, hleft, -⟩ := exists_operation hu ht rfl
    exact ⟨parts, hparts, node?_ne_assignment hgrouped hu ht hleft Nat.one_pos⟩
  · obtain ⟨parts, hparts, -, hright⟩ := exists_operation hu ht rfl
    exact ⟨parts, hparts, node?_ne_binary hgrouped hu ht hright rfl,
      node?_ne_assignment hgrouped hu ht hright (Nat.succ_pos 6)⟩
  · obtain ⟨parts, hparts, hleft, -⟩ := exists_operation hu ht rfl
    exact ⟨parts, hparts, not_isOperator hgrouped hu ht hleft rfl⟩
  · obtain ⟨parts, hdata, hexpression⟩ := exists_call hu ht rfl
    exact ⟨parts, hdata, not_isOperator hgrouped hu ht hexpression rfl⟩

end NodeTable

end Caret
