import Caret.Builder.Statement
import Caret.Proofs.Building
import Caret.Proofs.Climbing
/-!
# Builders of names, expressions and statements

One lemma for each builder, in the order of their definitions: it builds what the parser of the same
name reads. For nodes that says that the numbers which the builder puts into the data are those of
the children that fill the slots.

Two builders go their own way. Binary operators are read by climbing, which is the same as reading
them level by level (`climbing_eq_binary`); and an expression is found by its number, which is
there if the parser yields a tree.
-/

namespace Caret

/-! ## Names among the children -/

/-- The parts of a name: the last one is returned, none fills a slot, and none is a bracket. -/
structure Naming (cs : List Child) (r : Ref) : Prop where
  last : Last cs r
  noBracket : ∀ c ∈ cs, c.kind ≠ .token .closeBracket

theorem Naming.append {cs ds : List Child} {r r' : Ref} {k : TokenKind} (hc : Naming cs r)
    (hd : One (.token k) ds r') (hk : k ≠ .closeBracket) : Naming (cs ++ ds) r' := by
  obtain ⟨⟨hidle, -⟩, hbracket⟩ := hc
  have hd' := hd.idle
  obtain ⟨i, rfl, rfl⟩ := hd
  refine ⟨⟨hidle.append hd', by simp⟩, fun c hc => ?_⟩
  rcases List.mem_append.1 hc with hc | hc
  · exact hbracket c hc
  · rw [List.mem_singleton.1 hc]
    simpa using hk

theorem naming_nil : Naming [] none := ⟨⟨idle_nil, rfl⟩, fun _ h => nomatch h⟩

theorem One.naming {cs : List Child} {r : Ref} {k : TokenKind} (h : One (.token k) cs r)
    (hk : k ≠ .closeBracket) : Naming cs r := naming_nil.append h hk

namespace Builder

open Caret.Parser (At Any)
open Caret.Grammar (ReadsExpression)

variable {P : Cursor → Prop} {e : Parser} {x : Builder Ref} {cs ds : List Child} {r r' : Ref}
  {k : TokenKind} {test : TokenKind → Bool} {p : Parser}

/-! ## Names -/

theorem dotNameAt_withEnd (c : Cursor) (n : Nat) :
    Grammar.dotNameAt c.withEnd n = Grammar.dotNameAt c n := by
  simp only [Grammar.dotNameAt, Cursor.peek_withEnd]

theorem builds_dotted (h : Naming cs r) :
    Builds P Grammar.dotted (dotted r) fun ds r => Naming (cs ++ ds) r := by
  suffices hdotted : ∀ (unread : List Token) cs r, Naming cs r →
      Builds Any (Grammar.dottedAtMost unread) (dottedAtMost unread.length r)
        fun ds r => Naming (cs ++ ds) r by
    refine .look fun c _ => ?_
    rw [c.length_rest_withEnd]
    exact (hdotted _ _ _ h).whenever
  intro unread
  induction unread with
  | nil => exact fun cs r h => .nothing (by rwa [List.append_nil])
  | cons t unread ih =>
    refine fun cs r h => .look fun c _ => ?_
    rw [dotNameAt_withEnd]
    split
    · rename_i hnext
      simp only [Grammar.dotNameAt, Bool.and_eq_true, beq_iff_eq] at hnext
      rw [Parser.append_assoc]
      refine .takeFirst (by decide) hnext fun ds _ hdot =>
        (Builds.takeKind (by decide)).append fun es _ hname => ?_
      have hlonger := (h.append hdot (by decide)).append hname (by decide)
      exact (ih _ _ hlonger).weaken fun _ _ h => by simpa only [List.append_assoc] using h
    · exact .nothing (by rwa [List.append_nil])

theorem Builds.naming {k : TokenKind} (hk : k ≠ .endOfFile) (hb : k ≠ .closeBracket) :
    Builds P (.expect k) (Builder.expect k) Naming := by
  refine .ifNext ?_ ((report _).map fun _ _ h => h ▸ naming_nil)
  exact ((takeKind hk).mono fun _ h => h.2).weaken fun _ _ h => h.naming hb

theorem builds_qualifiedName :
    Builds P (.expect .identifier ++ Grammar.dotted) qualifiedName Last :=
  (Builds.naming (by decide) (by decide)).append fun _ _ h =>
    (builds_dotted h).weaken fun _ _ h => h.last

/-- The brackets of an array are told by the closing one. -/
def Brackets (cs : List Child) (isArray : Bool) : Prop :=
  Idle cs ∧ isArray = cs.any (·.kind == .token .closeBracket)

theorem builds_arrayBrackets : Builds P Grammar.arrayBrackets arrayBrackets Brackets := by
  refine .look fun c _ => ?_
  simp only [Cursor.peek_withEnd]
  split
  · rename_i hnext
    simp only [Bool.and_eq_true, beq_iff_eq] at hnext
    refine .takeFirst (by decide) hnext fun cs _ hopening =>
      (Builds.takeKind (by decide)).map fun ds _ hclosing => ⟨hopening.idle.append hclosing.idle, ?_⟩
    obtain ⟨i, rfl, -⟩ := hopening
    obtain ⟨j, rfl, -⟩ := hclosing
    rfl
  · exact .nothing ⟨idle_nil, rfl⟩

theorem map_kind_lastInto (base : Nat) (s : Slot) (ts : List Tree) :
    (Tree.placed base (Tree.lastInto s ts)).map (·.kind) = (Tree.placed base ts).map (·.kind) := by
  rcases List.eq_nil_or_concat ts with rfl | ⟨us, u, rfl⟩
  · rfl
  · rw [List.concat_eq_append, Tree.lastInto_concat, Tree.placed_append, Tree.placed_append]
    simp [Tree.placed]

/-- A name in a type reference, and the brackets behind it. -/
theorem builds_typeParts (h : Builds P p x Naming) :
    Builds P (p.into .name ++ Grammar.arrayBrackets) (x >>= typeParts)
      fun cs data => data = .ofChildren .typeReference cs := by
  have hname : Builds P (p.into .name) x fun cs r =>
      Into .name cs r ∧ cs.any (·.kind == .token .closeBracket) = false := by
    intro a c hc
    obtain ⟨hstate, hinto⟩ := (h.weaken fun _ _ h => h.last).into (s := .name) (by decide) a c hc
    refine ⟨hstate, hinto, ?_⟩
    have hkinds := congrArg (List.any · (· == .token .closeBracket))
      (map_kind_lastInto a.size .name (p c).1)
    simp only [List.any_map] at hkinds
    refine hkinds.trans (List.any_eq_false.2 fun c' hc' => ?_)
    simpa using (h a c hc).2.noBracket c' hc'
  refine hname.append fun cs r ⟨hr, hcs⟩ => builds_arrayBrackets.map fun ds isArray ⟨hidle, hds⟩ => ?_
  have hslots := Fills.append_idle hr hidle
  simp [Data.ofChildren, NodeKind.shape?, hslots.inSlot, Slot.only, hcs, ← hds]

theorem builds_typeReference :
    Builds P Grammar.typeReference typeReference AtMostOne := by
  refine .look fun c _ => ?_
  rw [c.kind_withEnd]
  split
  · rename_i h
    have hname : Builds (· = c) .take token Naming :=
      ((@Builds.takeAt TokenKind.isPredefinedType rfl).mono (by rintro _ rfl; exact h)).weaken
        fun _ _ ⟨k, hk, h⟩ => h.naming (by rintro rfl; cases hk)
    exact (Builds.node (builds_typeParts hname)).atMostOne
  · split
    · rename_i h
      have hfirst : Builds (· = c) .take token Naming :=
        ((Builds.takeKind (k := .identifier) (by decide)).mono (by rintro _ rfl; exact h)).weaken
          fun _ _ h => h.naming (by decide)
      have hname : Builds (· = c) (.take ++ Grammar.dotted) (token >>= dotted) Naming :=
        hfirst.append fun _ _ h => builds_dotted h
      exact (Builds.node (builds_typeParts hname)).atMostOne
    · exact .missing _

/-- Where a type starts, there is one. -/
theorem builds_typeReference_at :
    Builds (At Grammar.startsType) Grammar.typeReference typeReference (One (.node .typeReference)) := by
  intro a c hc
  obtain ⟨hstate, hr⟩ := builds_typeReference (P := Any) a c trivial
  refine ⟨hstate, ?_⟩
  obtain ⟨k, span, ts, hts, hk⟩ := Pattern.covers_node.1 (Grammar.yields_typeReference_at c hc).2
  rw [hts] at hr ⊢
  rcases hr with ⟨h, -⟩ | ⟨l, i, h, hi⟩
  · cases h
  · rw [← eq_of_beq hk]
    obtain ⟨h, -⟩ := List.cons.inj h
    cases h
    exact ⟨_, rfl, hi⟩

/-! ## Parts of expressions -/

/-- The builder builds an expression where the parser reads one. -/
structure BuildsExpression (e : Parser) (x : Builder Ref) : Prop where
  reads : ReadsExpression e
  builds : Builds Any e x AtMostOne

theorem BuildsExpression.into (h : BuildsExpression e x) {s : Slot} (hs : s ≠ .loose) :
    Builds P (e.into s) x (Into s) :=
  (h.builds.into_opt hs).whenever

theorem builds_single {n : NodeKind} (he : test .endOfFile = false) (hn : n.shape? = none) :
    Builds (At test) (.node n .take) (single n) (One (.node n)) :=
  .node ((Builds.takeAt he).map fun _ _ _ => by simp [Data.ofChildren, hn])

/-- A node that holds a list. -/
theorem list_ofChildren {n : NodeKind} {refs : List Ref} (h : Gathers .item cs refs)
    (hn : n.shape? = some .list) : .list refs = Data.ofChildren n cs := by
  simp [Data.ofChildren, hn, h.listIn]

theorem builds_argumentList (h : BuildsExpression e x) :
    Builds P (Grammar.argumentList e) (argumentList x) (One (.node .argumentList)) := by
  have hargument : Builds (At fun k => k != .closeParen && k != .endOfFile)
      (.ifNext Grammar.isArgumentModifier .take .nothing ++ e.into .item)
      (ifNext Grammar.isArgumentModifier token (pure none) >>= fun _ => kept x) (Gathers .item) :=
    (Builds.pass rfl).append fun cs _ hcs =>
      (h.builds.last.kept (by decide)).weaken fun _ _ h => .idle_append hcs h
  unfold Grammar.argumentList argumentList
  rw [Parser.append_assoc]
  refine .node <| (Builds.expect (by decide)).append fun cs _ hopening => ?_
  refine (Builds.separated hargument).append fun ds _ hitems => ?_
  refine (Builds.expect (by decide)).map fun es _ hclosing => ?_
  exact list_ofChildren (.idle_append hopening.idle (hitems.append_idle hclosing.idle)) rfl

theorem builds_optionalArguments (h : BuildsExpression e x) :
    Builds P (Grammar.optionalArguments e) (optionalArguments x) (Into .arguments) :=
  .optional ((builds_argumentList h).into_one (by decide))

theorem builds_objectCreation (h : BuildsExpression e x) :
    Builds P (Grammar.objectCreation e) (objectCreation x)
      (One (.node .objectCreationExpression)) := by
  unfold Grammar.objectCreation objectCreation
  rw [Parser.append_assoc]
  refine .node <| (Builds.expect (by decide)).append fun cs _ hnew => ?_
  refine ((builds_typeReference_at.into_one (by decide)).orMissing _).append fun ds type hds => ?_
  refine (builds_optionalArguments h).map fun es arguments hes => ?_
  have hslots := hnew.idle.fills.append (hds.append hes)
  simp [Data.ofChildren, NodeKind.shape?, hslots.inSlot, Slot.only]

theorem builds_parenthesized (h : BuildsExpression e x) :
    Builds (At (· == .openParen)) (Grammar.parenthesized e) (parenthesized x)
      (One (.node .parenthesizedExpression)) := by
  unfold Grammar.parenthesized parenthesized
  rw [Parser.append_assoc]
  refine .node <| (Builds.takeKind (by decide)).append fun cs _ hopening => ?_
  refine (h.into (by decide)).append fun ds inner hds => ?_
  refine (Builds.expect (by decide)).map fun es _ hclosing => ?_
  have hslots := hopening.idle.fills.append (Fills.append_idle hds hclosing.idle)
  simp [Data.ofChildren, NodeKind.shape?, hslots.inSlot, Slot.only]

theorem builds_primary (h : BuildsExpression e x) :
    Builds P (Grammar.primary e) (primary x) AtMostOne := by
  refine .look fun c _ => ?_
  rw [c.kind_withEnd]
  have at_kind {test : TokenKind → Bool} {p : Parser} {y : Builder Ref} {n : NodeKind}
      (ht : test c.kind) (hp : Builds (At test) p y (One (.node n))) :
      Builds (· = c) p y AtMostOne :=
    (hp.mono (by rintro _ rfl; exact ht)).atMostOne
  have hsingle {n : NodeKind} (hend : c.kind ≠ .endOfFile) (hn : n.shape? = none) :
      Builds (· = c) (.node n .take) (single n) AtMostOne :=
    @at_kind (· != .endOfFile) _ _ n (by simpa using hend) (builds_single rfl hn)
  cases hk : c.kind
  case identifier | boolKeyword | doubleKeyword | intKeyword | objectKeyword | stringKeyword
      | thisKeyword | baseKeyword | numericLiteral | stringLiteral | trueKeyword | falseKeyword
      | nullKeyword => exact hsingle (by rw [hk]; decide) rfl
  case openParen => exact at_kind (by simpa using hk) (builds_parenthesized h)
  case newKeyword => exact (builds_objectCreation h).atMostOne
  all_goals exact .missing _

/-! ## Operators -/

theorem agree_suffix (h : BuildsExpression e x) : Agree (Grammar.suffix e) (suffix x) := by
  have hname : Builds Any (.ifNext (· == .identifier) (Grammar.identifierName.into .right)
      (.report .expectedMemberName)) (ifNext (· == .identifier) (single .identifierName)
        (missing .expectedMemberName)) (Into .right) :=
    Builds.orMissing ((builds_single rfl rfl).into_one (by decide)) _
  intro d
  unfold Grammar.suffix suffix
  rw [d.kind_withEnd]
  cases hk : d.kind
  case dot =>
    refine .some (by decide) fun cs left hleft => ?_
    have hdot : Builds (· = d) (Parser.take.into .operator) token (Into .operator) :=
      (@Builds.takeInto (· == .dot) _ rfl (by decide)).mono (by rintro _ rfl; simp [At, hk])
    refine hdot.append fun ds operator hds => hname.map fun es name hes => ?_
    have hslots := hleft.append (hds.append hes)
    simp [Data.ofChildren, NodeKind.shape?, hslots.inSlot, Slot.only]
  case openParen =>
    refine .some (by decide) fun cs left hleft => ?_
    refine ((builds_argumentList h).into_one (by decide)).map fun ds arguments hds => ?_
    have hslots := hleft.append hds
    simp [Data.ofChildren, NodeKind.shape?, hslots.inSlot, Slot.only]
  all_goals exact .none

theorem builds_suffixed (h : BuildsExpression e x) :
    Builds P (Grammar.suffixed e) (suffixed x) AtMostOne := by
  refine (builds_primary h).read fun a c us d r _ _ hr => ?_
  show Makes a us d (if us.isEmpty then .nothing
    else .extend (Grammar.suffix e) c.next.start d.rest us) _ _
  rcases hr with ⟨hus, rfl⟩ | ⟨k, i, hus, rfl⟩
  · obtain rfl := Tree.placed_eq_nil.1 hus
    exact .emit (.inl ⟨rfl, rfl⟩)
  · have hne : us.isEmpty = false := by
      cases us with
      | nil => cases hus
      | cons => rfl
    rw [hne]
    show Makes a us d (.look fun _ => .extend (Grammar.suffix e) c.next.start d.rest us)
      (look fun c' => extend (suffix x) _ (c'.rest.length - 1) _) _
    refine .look ?_
    rw [d.length_rest_withEnd]
    exact .extend (agree_suffix h) d.rest (.inr ⟨k, i, hus, rfl⟩)

/-- Climbing with an operand that is built as it is read. -/
theorem builds_climbing (h : Builds Any e x AtMostOne) (levels least : Nat) :
    Builds P (Grammar.climbing e levels least) (binary x levels least) AtMostOne := by
  suffices hclimbing : ∀ levels least,
      Builds Any (Grammar.climbing e levels least) (binary x levels least) AtMostOne from
    (hclimbing _ _).whenever
  intro levels
  induction levels with
  | zero => exact fun _ => h
  | succ levels ih =>
    refine fun least => Builds.extended h fun d => ?_
    unfold Grammar.climb operation
    rw [d.kind_withEnd]
    cases hp : d.kind.precedence? with
    | none => exact .none
    | some p =>
      dsimp only
      split
      · exact .none
      · refine .some (by decide) fun cs left hleft => ?_
        have hoperator : Builds (· = d) (Parser.take.into .operator) token (Into .operator) :=
          (@Builds.takeInto (·.precedence?.isSome) _ rfl (by decide)).mono
            (by rintro _ rfl; simp [At, hp])
        refine hoperator.append fun ds operator hds => ?_
        refine ((ih p).into_opt (by decide)).map fun es right hes => ?_
        have hslots := hleft.append (hds.append hes)
        simp [Data.ofChildren, NodeKind.shape?, hslots.inSlot, Slot.only]

theorem builds_binary (h : BuildsExpression e x) :
    Builds P (Grammar.binary e) (binary x precedences 0) AtMostOne := by
  rw [← Grammar.climbing_eq_binary h.reads]
  exact builds_climbing h.builds precedences 0

theorem builds_assignment {value : Parser} {y : Builder Ref} (h : BuildsExpression e x)
    (hvalue : BuildsExpression value y) :
    BuildsExpression (Grammar.assignment e value) (assignment x y) := by
  refine ⟨Grammar.yields_assignment h.reads hvalue.reads, ?_⟩
  refine (builds_binary h).read fun a c us d r _ _ hr => .ifNext (fun hk => ?_) fun _ => .emit hr
  refine Makes.atMostOne (k := .node .assignmentExpression) ?_
  refine @Makes.enlarge a d .left .assignmentExpression _ (fun left => do
    let operator ← token
    let right ← y
    return .operation ⟨left, operator, right⟩) _ us r (by decide) (fun cs hleft => ?_) hr
  have hoperator : Builds (· = d) (Parser.take.into .operator) token (Into .operator) :=
    (Builds.takeInto rfl (by decide)).mono (by rintro _ rfl; exact hk)
  refine hoperator.append fun ds operator hds => ?_
  refine (hvalue.into (by decide)).map fun es right hes => ?_
  have hslots := hleft.append (hds.append hes)
  simp [Data.ofChildren, NodeKind.shape?, hslots.inSlot, Slot.only]

theorem builds_signed (h : BuildsExpression e x) :
    Builds (At TokenKind.isSign) (Grammar.signed e) (signed x)
      (One (.node .prefixUnaryExpression)) := by
  refine .node <| (Builds.takeInto rfl (by decide)).append fun cs operator hcs => ?_
  refine (h.into (by decide)).map fun ds right hds => ?_
  have hslots := hcs.append hds
  simp [Data.ofChildren, NodeKind.shape?, hslots.inSlot, Slot.only]

/-! ## Nesting -/

theorem builds_deepest : BuildsExpression (.report .nestingTooDeep) (missing .nestingTooDeep) :=
  ⟨(Parser.Yields.report _).weaken fun _ h => h.right, .missing _⟩

theorem builds_nesting (depth : Nat) :
    BuildsExpression (Grammar.Nesting.of depth).expression (Nesting.of depth).expression ∧
      BuildsExpression (Grammar.Nesting.of depth).operand (Nesting.of depth).operand := by
  induction depth with
  | zero =>
    refine ⟨builds_deepest, (Grammar.yields_nesting 0).2, ?_⟩
    rw [Grammar.Nesting.of_zero_operand]
    exact .ifNext builds_deepest.builds.whenever (builds_suffixed builds_deepest)
  | succ depth ih =>
    have hexpression : BuildsExpression (Grammar.Nesting.of (depth + 1)).expression
        (Nesting.of (depth + 1)).expression := by
      rw [Grammar.Nesting.of_succ_expression]
      exact builds_assignment ih.2 ih.1
    refine ⟨hexpression, (Grammar.yields_nesting (depth + 1)).2, ?_⟩
    rw [Grammar.Nesting.of_succ_operand]
    refine .ifNext ?_ (builds_suffixed hexpression)
    exact ((builds_signed ih.2).mono fun _ h => h.2).atMostOne

theorem builds_expression (depth : Nat) :
    BuildsExpression (Grammar.expression depth) (expression depth) := (builds_nesting depth).1

theorem builds_arrowClause (h : BuildsExpression e x) :
    Builds P (Grammar.arrowClause e) (arrowClause x) (One (.node .arrowExpressionClause)) := by
  refine .node <| (Builds.expect (by decide)).append fun cs _ harrow => ?_
  refine (h.into (by decide)).map fun ds inner hds => ?_
  have hslots := harrow.idle.fills.append hds
  simp [Data.ofChildren, NodeKind.shape?, hslots.inSlot, Slot.only]

/-! ## Parts of statements -/

theorem builds_declarator (h : BuildsExpression e x) :
    Builds P (Grammar.declarator e) (declarator x) (One (.node .variableDeclarator)) := by
  have hvalue : Builds (At (· == .equals)) (.take ++ e.into .initializer)
      (token >>= fun _ => x) (Into .initializer) :=
    (Builds.takeKind (by decide)).append fun _ _ hequals =>
      (h.into (by decide)).weaken fun _ _ h => .idle_append hequals.idle h
  refine .node <| ((Builds.expect (by decide)).into_opt (by decide)).append fun cs name hcs => ?_
  refine hvalue.optional.map fun ds initializer hds => ?_
  have hslots := hcs.append hds
  simp [Data.ofChildren, NodeKind.shape?, hslots.inSlot, Slot.only]

theorem builds_declarators (h : BuildsExpression e x) :
    Builds P (Grammar.declarators e) (declarators x) (Gathers .declarator) :=
  .separated ((builds_declarator h).weaken (fun _ _ h => ⟨_, h⟩) |>.listed (by decide))

/-- The builder builds a statement where the parser reads one. -/
structure BuildsStatement (e : Parser) (x : Builder Ref) : Prop where
  reads : Grammar.ReadsStatement e
  builds : Builds Any e x AtMostOne

variable {s : Parser} {y : Builder Ref}

theorem builds_block (h : BuildsStatement s y) :
    Builds P (Grammar.block s) (block y) (One (.node .block)) := by
  have hpart : Builds (At Grammar.continuesBlock) ((s.into .item).orSkip .expectedStatement)
      (orSkip y .expectedStatement) (Gathers .item) :=
    .orSkip (by decide) h.reads.whenever rfl
      (by rintro c hc h; simp [At, Grammar.continuesBlock, h] at hc)
      h.builds.whenever.last _
  unfold Grammar.block block
  rw [Parser.append_assoc]
  refine .node <| (Builds.expect (by decide)).append fun cs _ hopening => ?_
  refine (Builds.manyAt (Grammar.yields_blockPart h.reads) hpart).append fun ds _ hitems => ?_
  refine (Builds.expect (by decide)).map fun es _ hclosing => ?_
  exact list_ofChildren (.idle_append hopening.idle (hitems.append_idle hclosing.idle)) rfl

theorem builds_condition (h : BuildsExpression e x) :
    Builds P (Grammar.condition e) (condition x) fun cs _ => Idle cs := by
  unfold Grammar.condition condition
  rw [Parser.append_assoc]
  refine (Builds.expect (by decide)).append fun cs _ hopening => ?_
  refine (Builds.unlessNext h.builds (.inl ⟨rfl, rfl⟩)).append fun ds _ hds => ?_
  refine (Builds.expect (by decide)).map fun es _ hclosing => ?_
  exact hopening.idle.append (hds.idle.append hclosing.idle)

theorem builds_localDeclaration (h : BuildsExpression e x) :
    Builds P (Grammar.localDeclaration e) (localDeclaration x)
      (One (.node .localDeclarationStatement)) := by
  unfold Grammar.localDeclaration localDeclaration
  rw [Parser.append_assoc]
  refine .node <| (builds_typeReference.into_opt (by decide)).append fun cs type hcs => ?_
  refine (builds_declarators h).append fun ds _ ⟨ns, hnames, hds⟩ => ?_
  refine (Builds.expect (by decide)).map fun es _ hsemicolon => ?_
  have hslots := hcs.append (Fills.append_idle hds hsemicolon.idle)
  simp [Data.ofChildren, NodeKind.shape?, hslots.inSlot, hslots.listIn, hslots.someIn, Slot.only,
    someOf, hnames]

theorem builds_returnStatement (h : BuildsExpression e x) :
    Builds P (Grammar.returnStatement e) (returnStatement x) (One (.node .returnStatement)) := by
  unfold Grammar.returnStatement returnStatement
  rw [Parser.append_assoc]
  refine .node <| (Builds.expect (by decide)).append fun cs _ hreturn => ?_
  refine (Builds.unlessNext (h.into (by decide)) (.nil _)).append fun ds value hds => ?_
  refine (Builds.expect (by decide)).map fun es _ hsemicolon => ?_
  have hslots := hreturn.idle.fills.append (Fills.append_idle hds hsemicolon.idle)
  simp [Data.ofChildren, NodeKind.shape?, hslots.inSlot, Slot.only]

theorem builds_ifStatement (h : BuildsExpression e x) (hs : BuildsStatement s y) :
    Builds P (Grammar.ifStatement e s) (ifStatement x y) (One (.node .ifStatement)) := by
  have helse : Builds (At (· == .elseKeyword)) (.node .elseClause (.take ++ s))
      (node .elseClause (token >>= fun _ => y >>= fun _ => pure .none)) (One (.node .elseClause)) :=
    .node <| (Builds.takeKind (by decide)).append fun _ _ _ => hs.builds.map fun _ _ _ => rfl
  unfold Grammar.ifStatement ifStatement
  rw [Parser.append_assoc, Parser.append_assoc]
  refine .node <| (Builds.expect (by decide)).append fun _ _ _ => ?_
  refine (builds_condition h).append fun _ _ _ => hs.builds.append fun _ _ _ => ?_
  refine Builds.map (R := fun _ _ => True) (.ifNext ?_ (.nothing trivial)) fun _ _ _ => rfl
  exact (helse.mono fun _ h => h.2).weaken fun _ _ _ => trivial

theorem builds_whileStatement (h : BuildsExpression e x) (hs : BuildsStatement s y) :
    Builds P (Grammar.whileStatement e s) (whileStatement x y) (One (.node .whileStatement)) := by
  unfold Grammar.whileStatement whileStatement
  rw [Parser.append_assoc]
  refine .node <| (Builds.expect (by decide)).append fun _ _ _ => ?_
  exact (builds_condition h).append fun _ _ _ => hs.builds.map fun _ _ _ => rfl

/-- What follows the expression of a statement: nothing if no token was read for it. -/
def endStatement (m : Marker) (before : Nat) (found : Ref) : Builder Ref := fun s =>
  (if found.isNone && s.rest.length == before then pure none
    else close m .expressionStatement (expect .semicolon >>= fun _ => pure (.wrapped found))) s

theorem run_expressionStatement (x : Builder Ref) (c : Cursor) (a : Arena) :
    expressionStatement x (c.state a) =
      (x >>= endStatement ⟨a.size, c.next.start⟩ c.withEnd.rest.length) (c.state a) := by
  unfold expressionStatement
  rw [Builds.run_start]
  rfl

/-- An expression that is found becomes a statement. -/
theorem makes_endStatement {a : Arena} {us : List Tree} {i before : Nat}
    (hi : Into .expression (Tree.placed a.size us) (some i)) (d : Cursor) (start : Nat) :
    Makes a us d (.close .expressionStatement start (.emit us ++ .expect .semicolon))
      (endStatement ⟨a.size, start⟩ before (some i)) (One (.node .expressionStatement)) := by
  refine .of_run (congrFun (if_neg (by simp)) _) ?_
  have hend : Builds (· = d) (.expect .semicolon)
      (expect .semicolon >>= fun _ => pure (Data.wrapped (some i)))
      fun cs data => Idle cs ∧ data = Data.wrapped (some i) :=
    (Builds.expect (by decide)).map fun cs _ h => ⟨h.idle, rfl⟩
  refine .close (.emitAppend hend rfl fun cs data hidle => ?_)
  obtain ⟨hcs, hdata⟩ := hidle
  have hslots := Fills.append_idle hi hcs
  simp [Data.ofChildren, NodeKind.shape?, hslots.inSlot, Slot.only, hdata]

theorem builds_expressionStatement (h : BuildsExpression e x) :
    Builds P (Grammar.expressionStatement e) (expressionStatement x) AtMostOne := by
  intro a c _
  have hfound : Makes a [] c (e.into .expression) x fun cs r =>
      Into .expression cs r ∧ (r = none ↔ cs = []) := by
    obtain ⟨hstate, hinto⟩ := h.into (P := Any) (s := .expression) (by decide) a c trivial
    refine ⟨hstate, hinto, (h.builds a c trivial).2.eq_none_iff.trans ?_⟩
    rw [Tree.placed_eq_nil, Tree.placed_eq_nil]
    exact Tree.lastInto_eq_nil.symm
  refine .of_run (run_expressionStatement x c a)
    (hfound.read rfl fun us d r hread hboth => ?_)
  obtain ⟨hr, hnil⟩ := hboth
  obtain ⟨hus, rfl⟩ := Prod.mk.inj hread.symm
  cases r with
  | none =>
    obtain rfl := Tree.placed_eq_nil.1 (hnil.1 rfl)
    have hrest : (e c).2.rest = c.rest := by
      have htokens := (h.reads c trivial).1.tokens
      rwa [Tree.lastInto_eq_nil.1 hus.symm, Tree.tokensAll, List.nil_append] at htokens
    have hlength : ((e c).2.state (a.plantAll [])).rest.length = c.withEnd.rest.length := by
      simp [Cursor.state, Cursor.withEnd, hrest]
    refine .of_run (congrFun (if_pos (by simpa using hlength)) _) ?_
    exact .emit (.inl ⟨rfl, rfl⟩)
  | some i =>
    have hne : us.isEmpty = false := by
      cases us with
      | nil => cases hnil.2 rfl
      | cons => rfl
    rw [hne]
    exact (makes_endStatement hr _ _).atMostOne

/-! ## Statements -/

theorem builds_statement (depth : Nat) :
    BuildsStatement (Grammar.statement depth) (statement depth) := by
  refine ⟨Grammar.yields_statement depth, ?_⟩
  induction depth with
  | zero => exact .missing _
  | succ depth ih =>
    have hx := builds_expression depth
    have hs : BuildsStatement (Grammar.statement depth) (statement depth) :=
      ⟨Grammar.yields_statement depth, ih⟩
    refine .look fun c _ => ?_
    rw [c.kind_withEnd]
    have hother : Builds (· = c)
        (if Grammar.startsLocal c then Grammar.localDeclaration (Grammar.expression depth)
          else Grammar.expressionStatement (Grammar.expression depth))
        (if Grammar.startsLocal c.withEnd then localDeclaration (expression depth)
          else expressionStatement (expression depth)) AtMostOne := by
      have hlocal : Grammar.startsLocal c.withEnd = Grammar.startsLocal c := by
        simp only [Grammar.startsLocal, Cursor.kind_withEnd, Cursor.peek_withEnd]
      rw [hlocal]
      split
      · exact (builds_localDeclaration hx).atMostOne
      · exact builds_expressionStatement hx
    cases hk : c.kind
    case openBrace => exact (builds_block hs).atMostOne
    case returnKeyword => exact (builds_returnStatement hx).atMostOne
    case ifKeyword => exact (builds_ifStatement hx hs).atMostOne
    case whileKeyword => exact (builds_whileStatement hx hs).atMostOne
    case semicolon =>
      refine .atMostOne (.mono (@builds_single (· == .semicolon) _ rfl rfl) ?_)
      rintro _ rfl
      simp [At, hk]
    case closeBrace | endOfFile => exact .nothing (.inl ⟨rfl, rfl⟩)
    all_goals exact hother

end Builder

end Caret
