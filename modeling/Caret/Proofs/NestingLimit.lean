import Caret.Proofs.CountedGrammar
/-!
# The limit on nesting

Of the levels that are open on the way to a place in a text some are expressions that open no level
in the tree, but no level of the tree is opened without being counted: a sign and a statement are
guarded themselves, and what stands in parentheses is an expression, which is. So where `opened`
levels are counted and `left` more may be, an expression opens at most `left` levels, an operand one
more (its parentheses are read before what is in them is refused), and a statement at most `left`
(`counts_nesting`, `counts_statement`).

A declaration opens no level and stands in none, so the bound holds on each way down the tree of a
text, and the counter ends as it began (`ofText_nesting`).
-/

namespace Caret.Counting

open Counts
open Grammar (nestingLimit)

variable {inside : Bool} {opened more left calls : Nat} {expr operand stmt : CountingParser}
  {expr' operand' stmt' : Parser} {ts : List Tree}

/-! ## Names and type references -/

theorem counts_typeReference : Counts inside opened more typeReference Grammar.typeReference :=
  plain Grammar.yields_typeReference rfl

theorem counts_qualifiedName : Counts inside opened more qualifiedName Grammar.qualifiedName :=
  plain Grammar.yields_qualifiedName rfl

/-! ## Expressions -/

theorem counts_identifierName :
    Counts inside opened more identifierName Grammar.identifierName := token _ rfl

theorem counts_argumentList (he : Counts true opened more expr expr') :
    Counts true opened more (argumentList expr) (Grammar.argumentList expr') :=
  (((expect _).append ((take.ifNext nothing).append (he.into _)).separated).append
    (expect _)).node _ rfl rfl

theorem counts_optionalArguments (he : Counts true opened more expr expr') :
    Counts true opened more (optionalArguments expr) (Grammar.optionalArguments expr') :=
  ((counts_argumentList he).into _).optional

theorem counts_objectCreation (he : Counts true opened more expr expr') :
    Counts true opened more (objectCreation expr) (Grammar.objectCreation expr') :=
  (((expect _).append ((counts_typeReference.into _).ifNext (report _))).append
    (counts_optionalArguments he)).node _ rfl rfl

theorem counts_parenthesized (he : Counts true opened more expr expr') :
    Counts true opened (more + 1) (parenthesized expr) (Grammar.parenthesized expr') :=
  ((take.append (he.into _)).append (expect _)).level _

theorem counts_primary (he : Counts true opened more expr expr') :
    Counts true opened (more + 1) (primary expr) (Grammar.primary expr') := by
  refine look fun c => ?_
  cases c.kind with
  | openParen => exact counts_parenthesized he
  | newKeyword => exact counts_objectCreation (he.mono (Nat.le_succ _))
  | _ => first | exact token _ rfl | exact report _

theorem counts_suffix (he : Counts true opened more expr expr') (c : Cursor) :
    Extends opened more (suffix expr c) (Grammar.suffix expr' c) := by
  unfold suffix Grammar.suffix
  cases c.kind with
  | dot =>
    exact .some ((take.into _).append ((counts_identifierName.into _).ifNext (report _))) rfl
  | openParen => exact .some ((counts_argumentList he).into _) rfl
  | _ => exact .none

theorem counts_suffixed (he : Counts true opened more expr expr') :
    Counts true opened (more + 1) (suffixed expr) (Grammar.suffixed expr') := by
  refine (counts_primary he).read fun start ts hts => look fun c => ?_
  split
  · exact nothing
  · exact extend (counts_suffix (he.mono (Nat.le_succ _))) _ _ hts

theorem counts_operation (precedence : Nat) (ho : Counts true opened more operand operand')
    (c : Cursor) : Extends opened more (operation precedence operand c)
      (Grammar.operation precedence operand' c) := by
  unfold operation Grammar.operation
  split
  · exact .some ((take.into _).append (ho.into _)) rfl
  · exact .none

theorem counts_level (precedence : Nat) (ho : Counts true opened more operand operand') :
    Counts true opened more (level precedence operand) (Grammar.level precedence operand') :=
  ho.extended (counts_operation precedence ho)

theorem counts_binary (ho : Counts true opened more operand operand') :
    Counts true opened more (binary operand) (Grammar.binary operand') :=
  counts_level 1 (counts_level 2 (counts_level 3 (counts_level 4 (counts_level 5
    (counts_level 6 ho)))))

theorem counts_assignment (ho : Counts true opened more operand operand')
    (he : Counts true opened more expr expr') :
    Counts true opened more (assignment operand expr) (Grammar.assignment operand' expr') :=
  (counts_binary ho).read fun _ _ hts =>
    (enlarge ((take.into _).append (he.into _)) rfl _ _ hts).ifNext (emit hts)

theorem counts_signed (ho : Counts true opened more operand operand') :
    Counts true opened (more + 1) (signed operand) (Grammar.signed operand') :=
  ((take.into _).append (ho.into _)).level _

/-- The limit is met with as many calls as levels are left, so one call more is never made. -/
theorem counts_nesting (ho : opened + left = nestingLimit) (hc : left ≤ calls) :
    Counts true opened left (Nesting.of (calls + 1)).expression
        (Grammar.Nesting.of left).expression ∧
      Counts true opened (left + 1) (Nesting.of (calls + 1)).operand
        (Grammar.Nesting.of left).operand := by
  induction left generalizing opened calls with
  | zero =>
    have hfull : nestingLimit ≤ opened := Nat.le_of_eq ho.symm
    have hexpression : Counts true opened 0 (Nesting.of (calls + 1)).expression
        (Parser.report .nestingTooDeep) := by
      rw [Nesting.of_succ_expression]
      exact refused hfull
    refine ⟨hexpression, ?_⟩
    rw [Nesting.of_succ_operand, Grammar.Nesting.of_zero_operand]
    exact (refused hfull).ifNext (counts_suffixed hexpression)
  | succ left ih =>
    obtain ⟨calls, rfl⟩ := Nat.exists_eq_add_one_of_ne_zero (Nat.ne_of_gt (Nat.zero_lt_of_lt hc))
    have hroom : opened < nestingLimit := by omega
    have hinner : opened + 1 + left = nestingLimit := by omega
    obtain ⟨he, hoperand⟩ := ih hinner (Nat.le_of_succ_le_succ hc)
    have hexpression : Counts true opened (left + 1) (Nesting.of (calls + 1 + 1)).expression
        (Grammar.Nesting.of (left + 1)).expression := by
      rw [Nesting.of_succ_expression, Grammar.Nesting.of_succ_expression]
      exact guarded hroom (counts_assignment hoperand (he.mono (Nat.le_succ _)))
    refine ⟨hexpression, ?_⟩
    rw [Nesting.of_succ_operand, Grammar.Nesting.of_succ_operand]
    -- a sign is counted itself, parentheses with the expression in them
    exact (guarded hroom (counts_signed hoperand)).ifNext (counts_suffixed hexpression)

theorem counts_expression (ho : opened + left = nestingLimit) (hc : left ≤ calls) :
    Counts true opened left (expression (calls + 1)) (Grammar.expression left) :=
  (counts_nesting ho hc).1

theorem counts_arrowClause (he : Counts true opened more expr expr') :
    Counts inside opened more (arrowClause expr) (Grammar.arrowClause expr') :=
  ((expect _).append (he.into _)).node _ rfl rfl

/-! ## Statements -/

theorem counts_declarators (he : Counts true opened more expr expr') :
    Counts true opened more (declarators expr) (Grammar.declarators expr') :=
  (((((expect _).into _).append (take.append (he.into _)).optional).node _ rfl rfl).into
    _).separated

theorem counts_block (hs : Counts true opened more stmt stmt') :
    Counts false opened more (block stmt) (Grammar.block stmt') :=
  (((expect _).append ((hs.into _).orSkip _).many).append (expect _)).node _ rfl rfl

theorem counts_condition (he : Counts true opened more expr expr') :
    Counts true opened more (condition expr) (Grammar.condition expr') :=
  ((expect _).append (nothing.ifNext he)).append (expect _)

theorem counts_localDeclaration (he : Counts true opened more expr expr') :
    Counts false opened more (localDeclaration expr) (Grammar.localDeclaration expr') :=
  (((counts_typeReference.into _).append (counts_declarators he)).append (expect _)).node _ rfl rfl

theorem counts_returnStatement (he : Counts true opened more expr expr') :
    Counts false opened more (returnStatement expr) (Grammar.returnStatement expr') :=
  (((expect _).append (nothing.ifNext (he.into _))).append (expect _)).node _ rfl rfl

theorem counts_ifStatement (he : Counts true opened more expr expr')
    (hs : Counts true opened more stmt stmt') :
    Counts false opened more (ifStatement expr stmt) (Grammar.ifStatement expr' stmt') :=
  ((((expect _).append (counts_condition he)).append hs).append
    ((take.append hs).node _ rfl rfl).optional).node _ rfl rfl

theorem counts_whileStatement (he : Counts true opened more expr expr')
    (hs : Counts true opened more stmt stmt') :
    Counts false opened more (whileStatement expr stmt) (Grammar.whileStatement expr' stmt') :=
  (((expect _).append (counts_condition he)).append hs).node _ rfl rfl

theorem counts_expressionStatement (he : Counts true opened more expr expr') :
    Counts false opened more (expressionStatement expr) (Grammar.expressionStatement expr') := by
  refine (he.into _).read fun start ts hts => ?_
  split
  · exact nothing
  · exact ((emit hts).append (expect _)).close _ _ rfl rfl

theorem counts_statement (ho : opened + left = nestingLimit) (hc : left ≤ calls) :
    Counts true opened left (statement (calls + 1)) (Grammar.statement left) := by
  induction left generalizing opened calls with
  | zero => exact refused (Nat.le_of_eq ho.symm)
  | succ left ih =>
    obtain ⟨calls, rfl⟩ := Nat.exists_eq_add_one_of_ne_zero (Nat.ne_of_gt (Nat.zero_lt_of_lt hc))
    have hroom : opened < nestingLimit := by omega
    have hinner : opened + 1 + left = nestingLimit := by omega
    have he := counts_expression hinner (Nat.le_of_succ_le_succ hc)
    have hs := ih hinner (Nat.le_of_succ_le_succ hc)
    refine guarded hroom (raised (look fun c => ?_))
    have hother : Counts false (opened + 1) left
        (if Grammar.startsLocal c then localDeclaration (expression (calls + 1))
          else expressionStatement (expression (calls + 1)))
        (if Grammar.startsLocal c then Grammar.localDeclaration (Grammar.expression left)
          else Grammar.expressionStatement (Grammar.expression left)) := by
      split
      · exact counts_localDeclaration he
      · exact counts_expressionStatement he
    cases c.kind with
    | openBrace => exact counts_block hs
    | returnKeyword => exact counts_returnStatement he
    | ifKeyword => exact counts_ifStatement he hs
    | whileKeyword => exact counts_whileStatement he hs
    | semicolon => exact token _ rfl
    | closeBrace | endOfFile => exact nothing
    | _ => exact hother

/-! ## Attributes and parameters

Declarations are read where no level is open. -/

theorem counts_outerExpression :
    Counts true 0 nestingLimit outerExpression Grammar.outerExpression :=
  counts_expression (Nat.zero_add _) (Nat.le_refl _)

theorem counts_outerStatement :
    Counts true 0 nestingLimit outerStatement (Grammar.statement nestingLimit) :=
  counts_statement (Nat.zero_add _) (Nat.le_refl _)

theorem counts_singleAttribute :
    Counts false 0 nestingLimit singleAttribute Grammar.singleAttribute :=
  ((counts_qualifiedName.into _).append
    (counts_optionalArguments counts_outerExpression)).node _ rfl rfl

theorem counts_attributeLists :
    Counts false 0 nestingLimit attributeLists Grammar.attributeLists :=
  (((((expect _).append (counts_singleAttribute.into _).separated).append
    (expect _)).node _ rfl rfl).into _).many

theorem counts_modifiers : Counts false 0 nestingLimit modifiers Grammar.modifiers :=
  (take.into _).many

theorem counts_declarationHead :
    Counts false 0 nestingLimit declarationHead Grammar.declarationHead :=
  counts_attributeLists.append counts_modifiers

theorem counts_parameterName : Counts false 0 nestingLimit parameterName Grammar.parameterName :=
  ((counts_typeReference.into _).append ((expect _).into _)).ifNext (report _)

theorem counts_parameter : Counts false 0 nestingLimit parameter Grammar.parameter :=
  (((counts_attributeLists.append (take.into _).many).append counts_parameterName).append
    ((take.append (counts_outerExpression.anywhere.into _)).optional)).node _ rfl rfl

theorem counts_parameterList : Counts false 0 nestingLimit parameterList Grammar.parameterList :=
  (((expect _).append (counts_parameter.into _).separated).append (expect _)).node _ rfl rfl

/-! ## Members -/

theorem counts_arrow : Counts false 0 nestingLimit
    ((arrowClause outerExpression).into .body ++ .expect .semicolon)
    ((Grammar.arrowClause Grammar.outerExpression).into .body ++ Parser.expect .semicolon) :=
  ((counts_arrowClause counts_outerExpression).into _).append (expect _)

theorem counts_memberBody : Counts false 0 nestingLimit memberBody Grammar.memberBody := by
  refine look fun c => ?_
  cases c.kind with
  | openBrace => exact (counts_block counts_outerStatement).into _
  | equalsGreater => exact counts_arrow
  | semicolon => exact take
  | _ => exact report _

theorem counts_accessor : Counts false 0 nestingLimit accessor Grammar.accessor := by
  refine counts_modifiers.read fun start ts hts => look fun c => ?_
  split
  · exact ((((emit hts).append (take.into _)).append counts_memberBody).close _ _ rfl rfl).into _
  · split
    · exact nothing
    · exact (report _).append (emit (by simpa using hts))

theorem counts_accessorList : Counts false 0 nestingLimit accessorList Grammar.accessorList :=
  (((expect _).append counts_accessor.many).append (expect _)).append
    ((take.append (counts_outerExpression.anywhere.into _)).append (expect _)).optional

theorem counts_constructorInitializer :
    Counts false 0 nestingLimit constructorInitializer Grammar.constructorInitializer :=
  ((((expect _).into _).append ((take.into _).ifNext (report _))).append
    (counts_optionalArguments counts_outerExpression)).node _ rfl rfl

theorem counts_constructorRest :
    Counts false 0 nestingLimit constructorRest Grammar.constructorRest :=
  ((((expect _).into _).append (counts_parameterList.into _)).append
    (counts_constructorInitializer.into _).optional).append counts_memberBody

theorem counts_methodRest : Counts false 0 nestingLimit methodRest Grammar.methodRest :=
  (((expect _).into _).append (counts_parameterList.into _)).append counts_memberBody

theorem counts_propertyRest : Counts false 0 nestingLimit propertyRest Grammar.propertyRest :=
  ((expect _).into _).append (counts_arrow.ifNext counts_accessorList)

theorem counts_fieldRest : Counts false 0 nestingLimit fieldRest Grammar.fieldRest :=
  (counts_declarators counts_outerExpression).anywhere.append (expect _)

variable (hts : ∀ t ∈ ts, t.levels false ≤ nestingLimit)

include hts

theorem counts_incomplete (start : Nat) :
    Counts false 0 nestingLimit (incomplete start ts) (Grammar.incomplete start ts) :=
  (emit hts).close _ _ rfl rfl

theorem counts_namedMember (start : Nat) :
    Counts false 0 nestingLimit (namedMember start ts) (Grammar.namedMember start ts) := by
  refine look fun c => ?_
  split
  · exact (report _).append (counts_incomplete hts _)
  · cases c.peek 1 with
    | openParen => exact ((emit hts).append counts_methodRest).close _ _ rfl rfl
    | openBrace | equalsGreater => exact ((emit hts).append counts_propertyRest).close _ _ rfl rfl
    | _ => exact ((emit hts).append counts_fieldRest).close _ _ rfl rfl

omit hts

theorem counts_member {nested : Nat → List Tree → CountingParser}
    {nested' : Nat → List Tree → Parser}
    (hn : ∀ start ts, (∀ t ∈ ts, t.levels false ≤ nestingLimit) →
      Counts false 0 nestingLimit (nested start ts) (nested' start ts))
    (typeName : Option (List Char)) :
    Counts false 0 nestingLimit (member nested typeName) (Grammar.member nested' typeName) := by
  refine counts_declarationHead.read fun start ts hts => look fun c => ?_
  split
  · exact hn _ _ hts
  · split
    · exact ((emit hts).append counts_constructorRest).close _ _ rfl rfl
    · split
      · exact ((emit hts).append (counts_typeReference.into _)).read fun _ _ hts' =>
          counts_namedMember hts' _
      · split
        · exact nothing
        · exact (report _).append (counts_incomplete hts _)

/-! ## Types and namespaces -/

theorem counts_baseList : Counts false 0 nestingLimit baseList Grammar.baseList := by
  have htype : Counts false 0 nestingLimit typeReference Grammar.typeReference :=
    counts_typeReference
  exact ((expect _).append (htype.into _).separated).node _ rfl rfl

theorem counts_typeRest {memberOf : Option (List Char) → CountingParser}
    {memberOf' : Option (List Char) → Parser}
    (hm : ∀ typeName, Counts false 0 nestingLimit (memberOf typeName) (memberOf' typeName)) :
    Counts false 0 nestingLimit (typeRest memberOf) (Grammar.typeRest memberOf') :=
  look fun _ => (((expect _).into _).append (counts_baseList.into _).optional).append
    (((take.append (((hm _).into _).orSkip _).many).append (expect _)).ifNext (report _))

theorem declarationKind_opens (k : TokenKind) :
    (Grammar.declarationKind k).opensLevel false = false ∧
      (Grammar.declarationKind k).isStatementContainer = false := by
  unfold Grammar.declarationKind
  split <;> exact ⟨rfl, rfl⟩

include hts in
theorem counts_typeDeclaration (unread : List Token) (start : Nat) :
    Counts false 0 nestingLimit (typeDeclaration unread start ts)
      (Grammar.typeDeclaration unread start ts) := by
  induction unread generalizing start ts with
  | nil => exact nothing
  | cons x unread ih =>
    refine look fun c => ?_
    obtain ⟨hopens, hstatements⟩ := declarationKind_opens c.kind
    have hrest : Counts false 0 nestingLimit (typeRest (member (typeDeclaration unread)))
        (Grammar.typeRest (Grammar.member (Grammar.typeDeclaration unread))) :=
      counts_typeRest (counts_member fun start _ hts => ih hts start)
    exact (((emit hts).append take).append hrest).close _ _ hopens (by rw [hstatements]; rfl)

theorem counts_outerType : Counts false 0 nestingLimit outerType Grammar.outerType := by
  refine counts_declarationHead.read fun start ts hts => look fun c => ?_
  split
  · exact counts_typeDeclaration hts _ _
  · split
    · exact nothing
    · exact (report _).append (counts_incomplete hts _)

theorem counts_namespaceDeclaration {inner : CountingParser} {inner' : Parser}
    (hi : Counts false 0 nestingLimit inner inner') :
    Counts false 0 nestingLimit (namespaceDeclaration inner)
      (Grammar.namespaceDeclaration inner') :=
  (((expect _).append counts_qualifiedName).append (take.ifNext
    (((expect _).append ((hi.into _).orSkip _).many).append (expect _)))).node _ rfl rfl

theorem counts_namespaceMember (unread : List Token) :
    Counts false 0 nestingLimit (namespaceMember unread) (Grammar.namespaceMember unread) := by
  induction unread with
  | nil => exact nothing
  | cons x unread ih => exact (counts_namespaceDeclaration ih).ifNext counts_outerType

theorem counts_declarations :
    Counts false 0 nestingLimit declarations Grammar.declarations :=
  look fun c => (((counts_namespaceMember c.rest).into _).orSkip _).many

/-! ## Texts -/

/-- Every level that is counted up is counted down again. -/
theorem sourceFile_eq (text : List Char) : sourceFile text = (SourceFile.ofText text, 0) := by
  rw [sourceFile, counts_declarations.run]
  rfl

theorem levels_ofText_le (text : List Char) :
    (SourceFile.ofText text).root.levels false ≤ nestingLimit := by
  have hlevels := counts_declarations.levels (Grammar.startOf text)
  have hroot : (SourceFile.ofText text).root.levels false = 0 + Tree.levelsAll false
      ((Grammar.declarations (Grammar.startOf text)).1 ++
        [.leaf .loose (.endOfFile (byteLength text))]) := rfl
  rw [hroot, Nat.zero_add, Tree.levelsAll_le]
  intro t ht
  rcases List.mem_append.1 ht with ht | ht
  · exact hlevels t ht
  · obtain rfl := List.mem_singleton.1 ht
    exact Nat.zero_le _

end Caret.Counting

namespace Caret.NodeTable

/-- On the way from the root of a text's table to any entry no more levels are opened than
`nestingLimit`; and the parser that counts them reads the text as the grammar does, from the counter
zero back to zero. -/
theorem ofText_nesting (text : List Char) :
    (∀ i, (i :: (ofText text).lineage (some i)).countP (ofText text).opensLevel ≤
      Grammar.nestingLimit) ∧
    Counting.sourceFile text = (SourceFile.ofText text, 0) := by
  rw [ofText_eq]
  exact ⟨fun i => Nat.le_trans (countP_opensLevel_le _ i) (Counting.levels_ofText_le text),
    Counting.sourceFile_eq text⟩

/-- Around `b` are a statement of a block, the statement under its condition, a sign and
parentheses; the body of the method is no statement in another. -/
example :
    let t := ofText "class C\x7bvoid M()\x7bif(a)-(b);\x7d\x7d".toList
    (t.tokenBefore 25).map (fun i => (i :: t.lineage (some i)).countP t.opensLevel) = some 4 := by
  decide +kernel

end Caret.NodeTable
