import Caret.Proofs.ExpressionPatterns
import Caret.Proofs.Throughout
/-!
# How operations are grouped

What may stand beside an operator is told by a number: an operand of a binary operator is no
operation that is looser than the operator, and on its right none of the same precedence either; an
operand of a sign has no binary operator at its top; what is accessed or called is no operation at
all. `NodeKind.demand` has these numbers and `NodeKind.Grouped` says that the children of a node
are as it demands.

Parsers for expressions yield trees of a known tightness: the operands at a level hold at the next
level (`groups_level`), whatever is missing. So each node is grouped when it is made, and stays so
as the left operand of a larger one.
-/

namespace Caret

theorem TokenKind.precedence?_bounds {k : TokenKind} {p : Nat} (h : k.precedence? = some p) :
    0 < p ∧ p ≤ 6 := by
  unfold precedence? at h
  split at h <;> simp at h <;> omega

namespace Tree

/-- The precedence of the operator among the children of a binary operation. -/
def operatorLevel (ts : List Tree) : Nat :=
  (((ts.find? (·.slot == .operator)).bind (·.kind.token?)).bind TokenKind.precedence?).getD 0

/-- The tree is no operation that is looser than `n`. Assignments are the loosest, and signs are
tighter than all binary operators. -/
def HoldsAt (n : Nat) : Tree → Prop
  | node _ .assignmentExpression _ _ => n = 0
  | node _ .binaryExpression _ ts => n ≤ operatorLevel ts
  | node _ .prefixUnaryExpression _ _ => n ≤ 7
  | _ => True

end Tree

namespace NodeKind

/-- How tight a child in some slot of an operation has to be. -/
def demand (k : NodeKind) (ts : List Tree) (s : Slot) : Nat :=
  match k, s with
  | .binaryExpression, .left => Tree.operatorLevel ts
  | .binaryExpression, .right => Tree.operatorLevel ts + 1
  | .assignmentExpression, .left => 1
  | .prefixUnaryExpression, .right => 7
  | .memberAccessExpression, .left => 8
  | .invocationExpression, .expression => 8
  | _, _ => 0

/-- The children of a node are as tight as it demands. -/
def Grouped (k : NodeKind) (ts : List Tree) : Prop := ∀ t ∈ ts, t.HoldsAt (k.demand ts t.slot)

/-- A node with operands that are to be of some tightness. -/
def isOperation : NodeKind → Bool
  | .binaryExpression | .assignmentExpression | .prefixUnaryExpression | .memberAccessExpression
  | .invocationExpression => true
  | _ => false

/-- A node with an operator at its top: what is neither accessed nor called without parentheses. -/
def isOperator : NodeKind → Bool
  | .binaryExpression | .assignmentExpression | .prefixUnaryExpression => true
  | _ => false

end NodeKind

namespace Tree

variable {m n : Nat} {t : Tree} {s : Slot} {k : NodeKind} {span : Span} {ts us vs : List Tree}

theorem holdsAt_zero (t : Tree) : t.HoldsAt 0 := by
  unfold HoldsAt
  split <;> first | rfl | exact Nat.zero_le _ | trivial

theorem HoldsAt.mono (h : t.HoldsAt n) (hm : m ≤ n) : t.HoldsAt m := by
  unfold HoldsAt at h ⊢
  split
  · omega
  · exact Nat.le_trans hm h
  · exact Nat.le_trans hm h
  · trivial

theorem holdsAt_withSlot : (t.withSlot s).HoldsAt n ↔ t.HoldsAt n := by
  cases t with
  | leaf => rfl
  | node _ k => cases k <;> rfl

theorem operatorLevel_le (ts : List Tree) : operatorLevel ts ≤ 6 := by
  unfold operatorLevel
  cases h : ((ts.find? (·.slot == .operator)).bind (·.kind.token?)).bind TokenKind.precedence? with
  | none => exact Nat.zero_le _
  | some p =>
    obtain ⟨token, -, hp⟩ := Option.bind_eq_some_iff.1 h
    exact (TokenKind.precedence?_bounds hp).2

/-- No binary operator is as tight as a sign. -/
theorem HoldsAt.ne_binary (h : (node s k span ts).HoldsAt 7) : k ≠ .binaryExpression := by
  rintro rfl
  exact absurd (Nat.le_trans h (operatorLevel_le ts)) (by decide)

theorem HoldsAt.ne_assignment (h : (node s k span ts).HoldsAt n) (hn : 0 < n) :
    k ≠ .assignmentExpression := by
  rintro rfl
  exact absurd h (Nat.ne_of_gt hn)

theorem HoldsAt.not_isOperator (h : (node s k span ts).HoldsAt 8) : k.isOperator = false := by
  have hbinary := (h.mono (by decide : 7 ≤ 8)).ne_binary
  have hassignment := h.ne_assignment (by decide)
  cases k <;> first | rfl | exact absurd rfl hbinary | exact absurd rfl hassignment | skip
  exact absurd h (by decide : ¬ 8 ≤ 7)

theorem operatorLevel_append {p : Nat} (hu : ∀ t ∈ us, t.slot = .left) {operator : Token}
    (hp : operator.kind.precedence? = some p) :
    operatorLevel (us ++ leaf .operator operator :: vs) = p := by
  have hnone : us.find? (·.slot == .operator) = none :=
    List.find?_eq_none.2 fun t ht => by simp [hu t ht]
  rw [operatorLevel, List.find?_append, hnone]
  simp only [slot, List.find?_cons, beq_self_eq_true, Option.none_or, Option.bind_some, kind,
    Kind.token?, hp, Option.getD_some]

theorem grouped_of_plain (h : k.isOperation = false) : k.Grouped ts := by
  intro t _
  have hdemand : k.demand ts t.slot = 0 := by
    cases k <;> first | rfl | cases h
  rw [hdemand]
  exact t.holdsAt_zero

/-- Whatever the slots of the children are, they are tight enough. -/
theorem grouped_of_demand_le (hd : ∀ s, k.demand ts s ≤ n) (h : ∀ t ∈ ts, t.HoldsAt n) :
    k.Grouped ts := fun t ht => (h t ht).mono (hd t.slot)

/-- All nodes of the tree are grouped, and the tree itself is no operation looser than `n`. -/
def IsGrouped (n : Nat) (t : Tree) : Prop :=
  (∀ next, Throughout (fun k ts _ => k.Grouped ts) next t) ∧ t.HoldsAt n

theorem IsGrouped.mono (h : t.IsGrouped n) (hm : m ≤ n) : t.IsGrouped m := ⟨h.1, h.2.mono hm⟩

theorem IsGrouped.withSlot (h : t.IsGrouped n) : (t.withSlot s).IsGrouped n :=
  ⟨fun next => (h.1 next).withSlot s, holdsAt_withSlot.2 h.2⟩

theorem isGrouped_leaf (token : Token) : (leaf s token).IsGrouped n := ⟨fun _ => .leaf _ _, trivial⟩

theorem isGrouped_node (hk : k.Grouped ts) (hts : ∀ t ∈ ts, t.IsGrouped 0)
    (hn : (node s k span ts).HoldsAt n) : (node s k span ts).IsGrouped n := by
  refine ⟨fun next => .node hk ?_, hn⟩
  rintro before u after rfl
  exact (hts u (by simp)).1 _

theorem isGrouped_plain (hk : k.isOperation = false) (hts : ∀ t ∈ ts, t.IsGrouped 0) :
    (node s k span ts).IsGrouped n := by
  refine isGrouped_node (grouped_of_plain hk) hts ?_
  cases k <;> first | trivial | cases hk

end Tree

/-! ## Parsers -/

namespace Parser

open Tree

/-- The trees that the parser yields are grouped and no operations looser than `n`. -/
def Groups (n : Nat) (p : Parser) : Prop := ∀ c, ∀ t ∈ (p c).1, t.IsGrouped n

variable {m n : Nat} {p q : Parser} {ts : List Tree} {k : NodeKind} {start : Nat}
  {test : TokenKind → Bool}

namespace Groups

theorem mono (h : Groups n p) (hm : m ≤ n) : Groups m p := fun c t ht => (h c t ht).mono hm

theorem emit (h : ∀ t ∈ ts, t.IsGrouped n) : Groups n (emit ts) := fun _ => h

theorem nothing : Groups n nothing := emit (by simp)

theorem report (problem : Problem) : Groups n (report problem) := fun _ => by simp [Parser.report]

theorem take : Groups n take := by
  intro c t ht
  unfold Parser.take at ht
  split at ht
  · cases ht
  · rw [List.mem_singleton.1 ht]
    exact isGrouped_leaf _

theorem append (hp : Groups n p) (hq : Groups n q) : Groups n (p ++ q) := fun c t ht =>
  (List.mem_append.1 ht).elim (hp c t) (hq _ t)

theorem look {choose : Cursor → Parser} (h : ∀ c, Groups n (choose c)) : Groups n (look choose) :=
  fun c => h c c

theorem ifNext (hp : Groups n p) (hq : Groups n q) : Groups n (ifNext test p q) :=
  look fun _ => by split <;> assumption

theorem expect (k : TokenKind) : Groups n (expect k) := ifNext take (report _)

theorem into (h : Groups n p) (s : Slot) : Groups n (p.into s) := by
  intro c t ht
  rcases List.mem_append.1 ht with ht | ht
  · exact h c t (List.dropLast_subset _ ht)
  · obtain ⟨u, hu, rfl⟩ := Option.map_eq_some_iff.1 (Option.mem_toList.1 ht)
    exact (h c u (List.mem_of_getLast? hu)).withSlot

theorem read {next : Nat → List Tree → Parser} (hp : Groups m p)
    (h : ∀ start ts, (∀ t ∈ ts, t.IsGrouped m) → Groups n (next start ts)) :
    Groups n (p.read next) := fun c => h _ _ (hp c) _

theorem close (hk : k.isOperation = false) (h : Groups 0 p) : Groups n (close k start p) := by
  intro c t ht
  rw [List.mem_singleton.1 ht]
  exact isGrouped_plain hk (h c)

theorem node (hk : k.isOperation = false) (h : Groups 0 p) : Groups n (node k p) :=
  look fun _ => close hk h

theorem many (h : Groups n p) : Groups n (many test p) := by
  suffices hmany : ∀ unread, Groups n (manyAtMost test p unread) from look fun c => hmany c.rest
  intro unread
  induction unread with
  | nil => exact nothing
  | cons _ _ ih => exact ifNext (h.append ih) nothing

theorem separated (h : Groups n p) : Groups n (separated test p) := by
  suffices hsep : ∀ unread, Groups n (separatedAtMost test p unread) from look fun c => hsep _
  intro unread
  induction unread with
  | nil => exact nothing
  | cons _ _ ih => exact ifNext (h.append (ifNext (take.append ih) nothing)) nothing

theorem orSkip (h : Groups n p) (problem : Problem) : Groups n (p.orSkip problem) := by
  refine read h fun _ ts hts => ?_
  split
  · exact (report problem).append take
  · exact emit hts

/-- What the rule makes of grouped trees is grouped. -/
theorem extend {rule : Cursor → Option Extension} {start : Nat}
    (hrule : ∀ c ext left, rule c = some ext → (∀ t ∈ left, t.IsGrouped n) →
      ∀ t ∈ (enlarge ext start left c).1, t.IsGrouped n)
    (unread : List Token) {left : List Tree} (hl : ∀ t ∈ left, t.IsGrouped n) :
    Groups n (extend rule start unread left) := by
  induction unread generalizing left with
  | nil => exact emit hl
  | cons token unread ih =>
    intro c
    simp only [Parser.extend, Parser.look]
    cases he : rule c with
    | none => exact hl
    | some ext => exact ih (hrule c ext left he hl) _

end Groups

/-- An enlarged tree is grouped if it is as tight as told and its children are. -/
theorem isGrouped_enlarge {ext : Extension} {start : Nat} {left : List Tree} {c : Cursor}
    (hl : ∀ t ∈ left, t.IsGrouped 0) (hr : ∀ t ∈ (ext.rest c).1, t.IsGrouped 0)
    (hk : ext.kind.Grouped (left.map (Tree.withSlot ext.slot) ++ (ext.rest c).1))
    (hn : ∀ span, (Tree.node .loose ext.kind span
      (left.map (Tree.withSlot ext.slot) ++ (ext.rest c).1)).HoldsAt n) :
    ∀ t ∈ (enlarge ext start left c).1, t.IsGrouped n := by
  intro t ht
  rw [List.mem_singleton.1 ht]
  refine isGrouped_node hk (fun u hu => ?_) (hn _)
  rcases List.mem_append.1 hu with hu | hu
  · obtain ⟨v, hv, rfl⟩ := List.mem_map.1 hu
    exact (hl v hv).withSlot
  · exact hr u hu

end Parser

/-! ## Expressions -/

namespace Grammar

open Parser Pattern Tree

variable {n : Nat} {e : Parser}

theorem groups_dotted : Groups n dotted := by
  suffices h : ∀ unread, Groups n (dottedAtMost unread) from .look fun c => h c.rest
  intro unread
  induction unread with
  | nil => exact .nothing
  | cons _ _ ih =>
    refine .look fun c => ?_
    split
    · exact (Groups.take.append .take).append ih
    · exact .nothing

theorem groups_qualifiedName : Groups n qualifiedName :=
  ((Groups.expect _).append groups_dotted).into _

theorem groups_arrayBrackets : Groups n arrayBrackets :=
  .look fun _ => by
    split
    · exact Groups.take.append .take
    · exact .nothing

theorem groups_typeReference : Groups n typeReference := by
  refine .look fun c => ?_
  split
  · exact .node rfl ((Groups.take.into _).append groups_arrayBrackets)
  · split
    · exact .node rfl (((Groups.take.append groups_dotted).into _).append groups_arrayBrackets)
    · exact .report _

theorem groups_identifierName : Groups n identifierName := .node rfl .take

theorem groups_argumentList (he : Groups 0 e) : Groups n (argumentList e) :=
  .node rfl (((Groups.expect _).append
    (.separated ((Groups.ifNext .take .nothing).append (he.into _)))).append (.expect _))

theorem groups_optionalArguments (he : Groups 0 e) : Groups n (optionalArguments e) :=
  .ifNext ((groups_argumentList he).into _) .nothing

theorem groups_objectCreation (he : Groups 0 e) : Groups n (objectCreation e) :=
  .node rfl (((Groups.expect _).append
    (.ifNext (groups_typeReference.into _) (.report _))).append (groups_optionalArguments he))

theorem groups_parenthesized (he : Groups 0 e) : Groups n (parenthesized e) :=
  .node rfl ((Groups.take.append (he.into _)).append (.expect _))

theorem groups_primary (he : Groups 0 e) : Groups n (primary e) := by
  refine .look fun c => ?_
  split
  case h_1 | h_2 | h_3 | h_4 | h_5 | h_6 => exact groups_identifierName
  case h_14 => exact groups_parenthesized he
  case h_15 => exact groups_objectCreation he
  case h_16 => exact .report _
  all_goals exact .node rfl .take

/-- Accesses and calls hold as tight as what they are made of. -/
theorem isGrouped_suffix (he : Groups 0 e) {c : Cursor} {ext : Extension} {left : List Tree}
    {start : Nat} (h : suffix e c = some ext) (hl : ∀ t ∈ left, t.IsGrouped 8) :
    ∀ t ∈ (enlarge ext start left c).1, t.IsGrouped 8 := by
  have hrest : Groups 8 ext.rest ∧ (∀ ts s, ext.kind.demand ts s ≤ 8) ∧
      ∀ span ts, (Tree.node .loose ext.kind span ts).HoldsAt 8 := by
    unfold suffix at h
    split at h <;> simp only [Option.some.injEq, reduceCtorEq] at h
    · subst h
      refine ⟨(Groups.take.into _).append (.ifNext (groups_identifierName.into _) (.report _)),
        fun ts s => ?_, fun _ _ => trivial⟩
      cases s <;> first | exact Nat.le_refl _ | exact Nat.zero_le _
    · subst h
      refine ⟨(groups_argumentList he).into _, fun ts s => ?_, fun _ _ => trivial⟩
      cases s <;> first | exact Nat.le_refl _ | exact Nat.zero_le _
  obtain ⟨hrest, hdemand, hholds⟩ := hrest
  refine isGrouped_enlarge (fun t ht => (hl t ht).mono (Nat.zero_le _))
    (fun t ht => (hrest c t ht).mono (Nat.zero_le _)) ?_ fun _ => hholds _ _
  refine grouped_of_demand_le (hdemand _) fun t ht => ?_
  rcases List.mem_append.1 ht with ht | ht
  · obtain ⟨u, hu, rfl⟩ := List.mem_map.1 ht
    exact holdsAt_withSlot.2 (hl u hu).2
  · exact (hrest c t ht).2

theorem groups_suffixed (he : Groups 0 e) : Groups 8 (suffixed e) := by
  refine .read (groups_primary he : Groups 8 (primary e)) fun start left hl => .look fun c => ?_
  split
  · exact .nothing
  · exact .extend (fun _ _ _ h hl => isGrouped_suffix he h hl) _ hl

/-- The parser yields an expression or nothing, grouped and no operation looser than `n`. -/
structure GroupsOperand (n : Nat) (e : Parser) : Prop where
  reads : ReadsExpression e
  groups : Groups n e

/-- The operator that is next, and the operand behind it. -/
theorem exists_operator (test : TokenKind → Bool) (he : ReadsExpression e) {c : Cursor}
    (ht : test c.kind) (hf : test .endOfFile = false) : ∃ operator us,
      ((take.into .operator ++ e.into .right) c).1 = Tree.leaf .operator operator :: us ∧
        test operator.kind ∧ ∀ t ∈ us, t.slot = .right := by
  have hoperator : Yields (At test) (take.into .operator ++ e.into .right)
      (seq (Pattern.leaf .operator test) (Pattern.expression .right)) :=
    (Yields.takeAt hf).into_one.append he.into
  obtain ⟨us, vs, hts, hu, hv⟩ := covers_seq.1 (hoperator c ht).2
  obtain ⟨operator, rfl, hk⟩ := covers_leaf.1 hu
  refine ⟨operator, vs, hts, hk, fun t hmem => ?_⟩
  rcases covers_opt.1 hv with hv | rfl
  · obtain ⟨k, span, ws, rfl, -⟩ := covers_node.1 hv
    rw [List.mem_singleton.1 hmem]
    rfl
  · cases hmem

/-- A binary operation holds at the level of its operator. -/
theorem isGrouped_operation (he : GroupsOperand (n + 1) e) {c : Cursor} {ext : Extension}
    {left : List Tree} {start : Nat} (h : operation n e c = some ext)
    (hl : ∀ t ∈ left, t.IsGrouped n) : ∀ t ∈ (enlarge ext start left c).1, t.IsGrouped n := by
  unfold operation at h
  split at h
  case isFalse => cases h
  rename_i hk
  obtain rfl := Option.some.inj h
  have hrest : Groups (n + 1) (take.into .operator ++ e.into .right) :=
    (Groups.take.into _).append (he.groups.into _)
  obtain ⟨operator, us, hus, hp, -⟩ :=
    exists_operator (fun k => k.precedence? == some n) he.reads hk rfl
  have hlevel : operatorLevel (left.map (Tree.withSlot .left) ++
      ((take.into .operator ++ e.into .right) c).1) = n := by
    rw [hus]
    refine operatorLevel_append (fun t ht => ?_) (eq_of_beq hp)
    obtain ⟨u, -, rfl⟩ := List.mem_map.1 ht
    exact slot_withSlot _ _
  refine isGrouped_enlarge (fun t ht => (hl t ht).mono (Nat.zero_le _))
    (fun t ht => (hrest c t ht).mono (Nat.zero_le _)) (fun t ht => ?_) fun _ => Nat.le_of_eq hlevel.symm
  rcases List.mem_append.1 ht with ht | ht
  · obtain ⟨u, hu, rfl⟩ := List.mem_map.1 ht
    rw [slot_withSlot]
    exact (holdsAt_withSlot.2 (hl u hu).2).mono (Nat.le_of_eq hlevel)
  · refine (hrest c t ht).2.mono ?_
    unfold NodeKind.demand
    cases t.slot <;> simp [hlevel]

theorem groups_level (he : GroupsOperand (n + 1) e) : GroupsOperand n (level n e) :=
  ⟨yields_level n he.reads, .read he.groups fun _ _ hl => .look fun _ =>
    .extend (fun _ _ _ h hl => isGrouped_operation he h hl) _
      fun t ht => (hl t ht).mono (Nat.le_succ n)⟩

theorem groups_binary (he : GroupsOperand 7 e) : GroupsOperand 1 (binary e) :=
  groups_level <| groups_level <| groups_level <| groups_level <| groups_level <| groups_level he

theorem groups_assignment {value : Parser} (he : GroupsOperand 7 e) (hv : GroupsOperand 0 value) :
    GroupsOperand 0 (assignment e value) := by
  refine ⟨yields_assignment he.reads hv.reads,
    .read (groups_binary he).groups fun start left hl c => ?_⟩
  have hl' : ∀ t ∈ left, t.IsGrouped 0 := fun t ht => (hl t ht).mono (Nat.zero_le _)
  by_cases ht : c.kind.isAssignment
  · rw [ifNext_pos ht]
    have hrest : Groups 0 (take.into .operator ++ value.into .right) :=
      (Groups.take.into _).append (hv.groups.into _)
    obtain ⟨operator, us, hus, -, hslot⟩ := exists_operator _ hv.reads ht rfl
    refine isGrouped_enlarge hl' (hrest c) (fun t ht => ?_) fun _ => rfl
    rcases List.mem_append.1 ht with ht | ht
    · obtain ⟨u, hu, rfl⟩ := List.mem_map.1 ht
      rw [slot_withSlot]
      exact holdsAt_withSlot.2 (hl u hu).2
    · rw [hus] at ht
      rcases List.mem_cons.1 ht with rfl | ht
      · trivial
      · rw [hslot t ht]
        exact t.holdsAt_zero
  · rw [ifNext_neg (by simpa using ht)]
    exact hl'

theorem groups_signed (he : Groups 7 e) : Groups 7 (signed e) := by
  have hrest : Groups 7 (take.into .operator ++ e.into .right) :=
    (Groups.take.into _).append (he.into _)
  intro c t ht
  rw [List.mem_singleton.1 ht]
  refine isGrouped_node (grouped_of_demand_le (n := 7) (fun s => ?_) fun t ht => (hrest c t ht).2)
    (fun t ht => (hrest c t ht).mono (Nat.zero_le _)) (Nat.le_refl 7)
  cases s <;> first | exact Nat.le_refl _ | exact Nat.zero_le _

theorem groups_nesting (depth : Nat) :
    GroupsOperand 0 (Nesting.of depth).expression ∧ GroupsOperand 7 (Nesting.of depth).operand := by
  induction depth with
  | zero =>
    have hdeepest {n : Nat} : Groups n (report .nestingTooDeep) := .report _
    refine ⟨⟨(yields_nesting 0).1, hdeepest⟩, (yields_nesting 0).2, ?_⟩
    rw [Nesting.of_zero_operand]
    exact .ifNext hdeepest ((groups_suffixed hdeepest).mono (by decide))
  | succ depth ih =>
    have hx : GroupsOperand 0 (Nesting.of (depth + 1)).expression := by
      rw [Nesting.of_succ_expression]
      exact groups_assignment ih.2 ih.1
    refine ⟨hx, (yields_nesting (depth + 1)).2, ?_⟩
    rw [Nesting.of_succ_operand]
    exact .ifNext (groups_signed ih.2.groups) ((groups_suffixed hx.groups).mono (by decide))

theorem groups_expression (depth : Nat) : Groups 0 (expression depth) :=
  (groups_nesting depth).1.groups

end Grammar

end Caret
