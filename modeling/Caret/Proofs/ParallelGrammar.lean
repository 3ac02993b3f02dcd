import Caret.Grammar.SourceFile
import Caret.Proofs.Relocation
/-!
# The grammar in parallel runs

Every parser of the grammar looks at the kinds of tokens and, for a constructor, at the text of one;
it never looks at where they stand. So in two texts whose tokens agree it makes trees that differ
in nothing but where they stand (`parallel_declarations`).
-/

namespace Caret.Grammar

open Parallel

variable {f g : ℕ ↪o ℕ} {expr expr' operand operand' stmt stmt' : Parser}
  {unread unread' : List Token} {start start' : Nat} {ts us : List Tree}

/-! ## Names -/

theorem parallel_dottedAtMost (hu : unread.length = unread'.length) :
    Parallel f g (dottedAtMost unread) (dottedAtMost unread') := by
  induction unread, unread', hu using turns_induction with
  | nil => exact nothing
  | cons x unread y unread' hu ih =>
    refine look fun c d hc => ?_
    unfold dotNameAt
    rw [Cursor.peek_eq hc, Cursor.peek_eq hc]
    split
    · exact (take.append take).append ih
    · exact nothing

theorem parallel_dotted : Parallel f g dotted dotted :=
  look fun _ _ hc => parallel_dottedAtMost (Cursor.length_rest_eq hc)

theorem parallel_qualifiedName : Parallel f g qualifiedName qualifiedName :=
  ((expect _).append parallel_dotted).into _

theorem parallel_arrayBrackets : Parallel f g arrayBrackets arrayBrackets := by
  refine look fun c d hc => ?_
  rw [Cursor.peek_eq hc, Cursor.peek_eq hc]
  split
  · exact take.append take
  · exact nothing

theorem parallel_typeReference : Parallel f g typeReference typeReference := by
  refine look fun c d hc => ?_
  rw [Cursor.kind_eq hc]
  split
  · exact ((take.into _).append parallel_arrayBrackets).node _
  · split
    · exact (((take.append parallel_dotted).into _).append parallel_arrayBrackets).node _
    · exact report _

/-! ## Expressions -/

theorem parallel_identifierName : Parallel f g identifierName identifierName := take.node _

theorem parallel_argumentList (he : Parallel f g expr expr') :
    Parallel f g (argumentList expr) (argumentList expr') :=
  (((expect _).append (((take.ifNext nothing).append (he.into _)).separated)).append
    (expect _)).node _

theorem parallel_optionalArguments (he : Parallel f g expr expr') :
    Parallel f g (optionalArguments expr) (optionalArguments expr') :=
  ((parallel_argumentList he).into _).optional

theorem parallel_objectCreation (he : Parallel f g expr expr') :
    Parallel f g (objectCreation expr) (objectCreation expr') :=
  (((expect _).append ((parallel_typeReference.into _).ifNext (report _))).append
    (parallel_optionalArguments he)).node _

theorem parallel_parenthesized (he : Parallel f g expr expr') :
    Parallel f g (parenthesized expr) (parenthesized expr') :=
  ((take.append (he.into _)).append (expect _)).node _

theorem parallel_primary (he : Parallel f g expr expr') :
    Parallel f g (primary expr) (primary expr') := by
  refine look fun c d hc => ?_
  rw [← Cursor.kind_eq hc]
  cases c.kind with
  | openParen => exact parallel_parenthesized he
  | newKeyword => exact parallel_objectCreation he
  | _ => first | exact take.node _ | exact report _

theorem parallel_suffix (he : Parallel f g expr expr') {c d : Cursor}
    (hc : c.moved f = d.moved g) : Extends f g (suffix expr c) (suffix expr' d) := by
  unfold suffix
  rw [← Cursor.kind_eq hc]
  cases c.kind with
  | dot => exact .some ((take.into _).append ((parallel_identifierName.into _).ifNext (report _)))
  | openParen => exact .some ((parallel_argumentList he).into _)
  | _ => exact .none

theorem parallel_suffixed (he : Parallel f g expr expr') :
    Parallel f g (suffixed expr) (suffixed expr') := by
  refine (parallel_primary he).read fun _ _ ts us hs hts => look fun c d hc => ?_
  rw [isEmpty_eq hts]
  split
  · exact nothing
  · exact extend (fun _ _ => parallel_suffix he) hs (Cursor.length_rest_eq hc) hts

theorem parallel_operation (precedence : Nat) (ho : Parallel f g operand operand') {c d : Cursor}
    (hc : c.moved f = d.moved g) :
    Extends f g (operation precedence operand c) (operation precedence operand' d) := by
  unfold operation
  rw [← Cursor.kind_eq hc]
  split
  · exact .some ((take.into _).append (ho.into _))
  · exact .none

theorem parallel_level (precedence : Nat) (ho : Parallel f g operand operand') :
    Parallel f g (level precedence operand) (level precedence operand') :=
  ho.extended fun _ _ => parallel_operation precedence ho

theorem parallel_binary (ho : Parallel f g operand operand') :
    Parallel f g (binary operand) (binary operand') :=
  parallel_level 1 (parallel_level 2 (parallel_level 3 (parallel_level 4 (parallel_level 5
    (parallel_level 6 ho)))))

theorem parallel_assignment (ho : Parallel f g operand operand') (he : Parallel f g expr expr') :
    Parallel f g (assignment operand expr) (assignment operand' expr') :=
  (parallel_binary ho).read fun _ _ _ _ hs hts =>
    (enlarge ((take.into _).append (he.into _)) _ _ hs hts).ifNext (emit hts)

theorem parallel_signed (ho : Parallel f g operand operand') :
    Parallel f g (signed operand) (signed operand') := ((take.into _).append (ho.into _)).node _

theorem parallel_nesting (depth : Nat) :
    Parallel f g (Nesting.of depth).expression (Nesting.of depth).expression ∧
      Parallel f g (Nesting.of depth).operand (Nesting.of depth).operand := by
  induction depth with
  | zero =>
    rw [Nesting.of_zero_operand]
    exact ⟨report _, (report _).ifNext (parallel_suffixed (report _))⟩
  | succ depth ih =>
    have hexpression : Parallel f g (Nesting.of (depth + 1)).expression
        (Nesting.of (depth + 1)).expression := by
      rw [Nesting.of_succ_expression]
      exact parallel_assignment ih.2 ih.1
    rw [Nesting.of_succ_operand]
    exact ⟨hexpression, (parallel_signed ih.2).ifNext (parallel_suffixed hexpression)⟩

theorem parallel_expression (depth : Nat) : Parallel f g (expression depth) (expression depth) :=
  (parallel_nesting depth).1

theorem parallel_arrowClause (he : Parallel f g expr expr') :
    Parallel f g (arrowClause expr) (arrowClause expr') := ((expect _).append (he.into _)).node _

/-! ## Statements -/

theorem parallel_declarators (he : Parallel f g expr expr') :
    Parallel f g (declarators expr) (declarators expr') :=
  (((((expect _).into _).append (take.append (he.into _)).optional).node _).into _).separated

theorem parallel_block (hs : Parallel f g stmt stmt') : Parallel f g (block stmt) (block stmt') :=
  (((expect _).append (((hs.into _).orSkip _).many)).append (expect _)).node _

theorem parallel_condition (he : Parallel f g expr expr') :
    Parallel f g (condition expr) (condition expr') :=
  ((expect _).append (nothing.ifNext he)).append (expect _)

theorem parallel_localDeclaration (he : Parallel f g expr expr') :
    Parallel f g (localDeclaration expr) (localDeclaration expr') :=
  (((parallel_typeReference.into _).append (parallel_declarators he)).append (expect _)).node _

theorem parallel_returnStatement (he : Parallel f g expr expr') :
    Parallel f g (returnStatement expr) (returnStatement expr') :=
  (((expect _).append (nothing.ifNext (he.into _))).append (expect _)).node _

theorem parallel_ifStatement (he : Parallel f g expr expr') (hs : Parallel f g stmt stmt') :
    Parallel f g (ifStatement expr stmt) (ifStatement expr' stmt') :=
  ((((expect _).append (parallel_condition he)).append hs).append
    (((take.append hs).node _).optional)).node _

theorem parallel_whileStatement (he : Parallel f g expr expr') (hs : Parallel f g stmt stmt') :
    Parallel f g (whileStatement expr stmt) (whileStatement expr' stmt') :=
  (((expect _).append (parallel_condition he)).append hs).node _

theorem parallel_expressionStatement (he : Parallel f g expr expr') :
    Parallel f g (expressionStatement expr) (expressionStatement expr') := by
  refine (he.into _).read fun _ _ ts us hs hts => ?_
  rw [isEmpty_eq hts]
  split
  · exact nothing
  · exact ((emit hts).append (expect _)).close _ hs

theorem startsLocal_eq {c d : Cursor} (hc : c.moved f = d.moved g) :
    startsLocal c = startsLocal d := by
  unfold startsLocal
  rw [Cursor.kind_eq hc, Cursor.peek_eq hc, Cursor.peek_eq hc]

theorem parallel_statement (depth : Nat) : Parallel f g (statement depth) (statement depth) := by
  induction depth with
  | zero => exact report _
  | succ depth ih =>
    have hexpression := parallel_expression (f := f) (g := g) depth
    refine look fun c d hc => ?_
    rw [← Cursor.kind_eq hc, ← startsLocal_eq hc]
    have hother : Parallel f g
        (if startsLocal c then localDeclaration (expression depth)
          else expressionStatement (expression depth))
        (if startsLocal c then localDeclaration (expression depth)
          else expressionStatement (expression depth)) := by
      split
      · exact parallel_localDeclaration hexpression
      · exact parallel_expressionStatement hexpression
    cases c.kind with
    | openBrace => exact parallel_block ih
    | returnKeyword => exact parallel_returnStatement hexpression
    | ifKeyword => exact parallel_ifStatement hexpression ih
    | whileKeyword => exact parallel_whileStatement hexpression ih
    | semicolon => exact take.node _
    | closeBrace | endOfFile => exact nothing
    | _ => exact hother

/-! ## Attributes, modifiers and parameters -/

theorem parallel_outerExpression : Parallel f g outerExpression outerExpression :=
  parallel_expression _

theorem parallel_attributeLists : Parallel f g attributeLists attributeLists :=
  (((((expect _).append
    ((((parallel_qualifiedName.into _).append
      (parallel_optionalArguments parallel_outerExpression)).node _).into _).separated).append
    (expect _)).node _).into _).many

theorem parallel_modifiers : Parallel f g modifiers modifiers := (take.into _).many

theorem parallel_declarationHead : Parallel f g declarationHead declarationHead :=
  parallel_attributeLists.append parallel_modifiers

theorem parallel_parameter : Parallel f g parameter parameter :=
  (((parallel_attributeLists.append (take.into _).many).append
    (((parallel_typeReference.into _).append ((expect _).into _)).ifNext (report _))).append
    ((take.append (parallel_outerExpression.into _)).optional)).node _

theorem parallel_parameterList : Parallel f g parameterList parameterList :=
  (((expect _).append (parallel_parameter.into _).separated).append (expect _)).node _

/-! ## Members -/

theorem parallel_arrow :
    Parallel f g ((arrowClause outerExpression).into .body ++ Parser.expect .semicolon)
      ((arrowClause outerExpression).into .body ++ Parser.expect .semicolon) :=
  ((parallel_arrowClause parallel_outerExpression).into _).append (expect _)

theorem parallel_memberBody : Parallel f g memberBody memberBody := by
  refine look fun c d hc => ?_
  rw [← Cursor.kind_eq hc]
  cases c.kind with
  | openBrace => exact (parallel_block (parallel_statement _)).into _
  | equalsGreater => exact parallel_arrow
  | semicolon => exact take
  | _ => exact report _

theorem parallel_accessor : Parallel f g accessor accessor := by
  refine parallel_modifiers.read fun _ _ ts us hs hts => look fun c d hc => ?_
  rw [← Cursor.kind_eq hc, isEmpty_eq hts]
  split
  · exact ((((emit hts).append (take.into _)).append parallel_memberBody).close _ hs).into _
  · split
    · exact nothing
    · exact (report _).append (emit (map_withSlot_eq _ hts))

theorem parallel_accessorList : Parallel f g accessorList accessorList :=
  (((expect _).append parallel_accessor.many).append (expect _)).append
    ((take.append (parallel_outerExpression.into _)).append (expect _)).optional

theorem parallel_constructorInitializer :
    Parallel f g constructorInitializer constructorInitializer :=
  ((((expect _).into _).append ((take.into _).ifNext (report _))).append
    (parallel_optionalArguments parallel_outerExpression)).node _

theorem parallel_constructorRest : Parallel f g constructorRest constructorRest :=
  ((((expect _).into _).append (parallel_parameterList.into _)).append
    (parallel_constructorInitializer.into _).optional).append parallel_memberBody

theorem parallel_methodRest : Parallel f g methodRest methodRest :=
  (((expect _).into _).append (parallel_parameterList.into _)).append parallel_memberBody

theorem parallel_propertyRest : Parallel f g propertyRest propertyRest :=
  ((expect _).into _).append (parallel_arrow.ifNext parallel_accessorList)

theorem parallel_fieldRest : Parallel f g fieldRest fieldRest :=
  (parallel_declarators parallel_outerExpression).append (expect _)

theorem parallel_incomplete (hs : f start = g start')
    (hts : ts.map (Tree.moved f) = us.map (Tree.moved g)) :
    Parallel f g (incomplete start ts) (incomplete start' us) := (emit hts).close _ hs

theorem parallel_namedMember (hs : f start = g start')
    (hts : ts.map (Tree.moved f) = us.map (Tree.moved g)) :
    Parallel f g (namedMember start ts) (namedMember start' us) := by
  refine look fun c d hc => ?_
  rw [← Cursor.kind_eq hc, ← Cursor.peek_eq hc]
  split
  · exact (report _).append (parallel_incomplete hs hts)
  · cases c.peek 1 with
    | openParen => exact ((emit hts).append parallel_methodRest).close _ hs
    | openBrace | equalsGreater => exact ((emit hts).append parallel_propertyRest).close _ hs
    | _ => exact ((emit hts).append parallel_fieldRest).close _ hs

theorem startsConstructor_eq (typeName : Option (List Char)) {c d : Cursor}
    (hc : c.moved f = d.moved g) : startsConstructor typeName c = startsConstructor typeName d := by
  unfold startsConstructor
  rw [Cursor.kind_eq hc, Cursor.peek_eq hc, Cursor.text_next_eq hc]

theorem parallel_member {nested nested' : Nat → List Tree → Parser}
    (hn : ∀ start start' ts us, f start = g start' →
      ts.map (Tree.moved f) = us.map (Tree.moved g) →
      Parallel f g (nested start ts) (nested' start' us)) (typeName : Option (List Char)) :
    Parallel f g (member nested typeName) (member nested' typeName) := by
  refine parallel_declarationHead.read fun _ _ ts us hs hts => look fun c d hc => ?_
  rw [← Cursor.kind_eq hc, ← startsConstructor_eq typeName hc, isEmpty_eq hts]
  split
  · exact hn _ _ _ _ hs hts
  · split
    · exact ((emit hts).append parallel_constructorRest).close _ hs
    · split
      · exact ((emit hts).append (parallel_typeReference.into _)).read fun _ _ _ _ _ hts' =>
          parallel_namedMember hs hts'
      · split
        · exact nothing
        · exact (report _).append (parallel_incomplete hs hts)

/-! ## Types and namespaces -/

theorem parallel_typeRest {memberOf memberOf' : Option (List Char) → Parser}
    (hm : ∀ typeName, Parallel f g (memberOf typeName) (memberOf' typeName)) :
    Parallel f g (typeRest memberOf) (typeRest memberOf') := by
  refine look fun c d hc => ?_
  rw [← Cursor.kind_eq hc, ← Cursor.text_next_eq hc]
  refine (((expect _).into _).append (Parallel.optional ?_)).append (Parallel.ifNext ?_ (report _))
  · exact (((expect _).append (parallel_typeReference.into _).separated).node _).into _
  · exact (take.append ((((hm _).into _).orSkip _).many)).append (expect _)

theorem parallel_typeDeclaration (hu : unread.length = unread'.length) (hs : f start = g start')
    (hts : ts.map (Tree.moved f) = us.map (Tree.moved g)) :
    Parallel f g (typeDeclaration unread start ts) (typeDeclaration unread' start' us) := by
  induction unread, unread', hu using turns_induction generalizing start start' ts us with
  | nil => exact nothing
  | cons x unread y unread' hu ih =>
    refine look fun c d hc => ?_
    rw [← Cursor.kind_eq hc]
    refine (((emit hts).append take).append (parallel_typeRest fun typeName => ?_)).close _ hs
    exact parallel_member (fun _ _ _ _ hs hts => ih hs hts) typeName

theorem parallel_outerType : Parallel f g outerType outerType := by
  refine parallel_declarationHead.read fun _ _ ts us hs hts => look fun c d hc => ?_
  rw [← Cursor.kind_eq hc, isEmpty_eq hts]
  split
  · exact parallel_typeDeclaration (Cursor.length_rest_eq hc) hs hts
  · split
    · exact nothing
    · exact (report _).append (parallel_incomplete hs hts)

theorem parallel_namespaceDeclaration {inner inner' : Parser} (hi : Parallel f g inner inner') :
    Parallel f g (namespaceDeclaration inner) (namespaceDeclaration inner') :=
  (((expect _).append parallel_qualifiedName).append (take.ifNext
    (((expect _).append ((hi.into _).orSkip _).many).append (expect _)))).node _

theorem parallel_namespaceMember (hu : unread.length = unread'.length) :
    Parallel f g (namespaceMember unread) (namespaceMember unread') := by
  induction unread, unread', hu using turns_induction with
  | nil => exact nothing
  | cons x unread y unread' hu ih =>
    exact (parallel_namespaceDeclaration ih).ifNext parallel_outerType

theorem parallel_declarations : Parallel f g declarations declarations :=
  look fun _ _ hc =>
    ((((parallel_namespaceMember (Cursor.length_rest_eq hc)).into _).orSkip _).many)

end Caret.Grammar
