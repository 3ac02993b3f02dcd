import Caret.Proofs.LocalTypes
import Caret.Proofs.Writing
/-!
# Reading expressions back

Where the grouping of an expression is explicit, its words are read as the tree that stands for it
(`Expression.Grouped.reads`). The induction follows the expression; what is proved of each says how
it is read at every level of the grammar that it is tight enough for, and which tokens may follow it
there.
-/

namespace Caret

open Caret.Parser

/-! ## Kinds of token -/

namespace TokenKind

/-- No access, call or array goes on with the token. -/
def endsPrimary (k : TokenKind) : Bool := k != .dot && k != .openParen && k != .openBracket

/-- Neither does an operation on the `n` tightest levels. -/
def endsLevels (n : Nat) (k : TokenKind) : Bool := k.endsPrimary && k.precedence?.all (· < 7 - n)

/-- Neither does an expression. -/
def endsValue (k : TokenKind) : Bool := k.endsLevels 6 && !k.isAssignment

/-- An expression of the level may start with the token. -/
def startsLevel (level : Nat) : TokenKind → Bool
  | .identifier | .boolKeyword | .doubleKeyword | .intKeyword | .objectKeyword | .stringKeyword
  | .thisKeyword | .baseKeyword | .numericLiteral | .stringLiteral | .trueKeyword | .falseKeyword
  | .nullKeyword | .openParen | .newKeyword => true
  | .exclamation | .minus | .plus => level != 8
  | _ => false

variable {k : TokenKind} {n m : Nat}

theorem endsLevels_of_le (h : k.endsLevels n) (hm : m ≤ n) : k.endsLevels m := by
  simp only [endsLevels, Bool.and_eq_true, Option.all_eq_true, decide_eq_true_iff] at h ⊢
  exact ⟨h.1, fun p hp => Nat.lt_of_lt_of_le (h.2 p hp) (Nat.sub_le_sub_left hm 7)⟩

theorem endsPrimary_of_precedence (h : k.precedence?.isSome) : k.endsPrimary := by
  revert h
  cases k <;> decide

theorem endsLevels_of_isAssignment (h : k.isAssignment) (n : Nat) : k.endsLevels n := by
  have hnone : k.endsPrimary = true ∧ k.precedence? = none := by
    revert h
    cases k <;> decide
  rw [endsLevels, hnone.1, hnone.2]
  rfl

theorem startsLevel_mono (h : k.startsLevel m) (hn : n ≠ 8) : k.startsLevel n := by
  have hn : (n != 8) = true := by simpa using hn
  revert h
  cases k <;> simp [startsLevel, hn]

theorem not_isSign_of_startsLevel (h : k.startsLevel 8) : k.isSign = false := by
  revert h
  cases k <;> decide

end TokenKind

namespace Grammar

open TokenKind

variable {e p operand value : Parser} {w : Word} {words words' : List Word} {o o' : Outline}
  {ok ok' : TokenKind → Prop} {n : Nat}

/-! ## Types -/

theorem not_startsPair {k l : TokenKind} {ts : List Token} (h : kindAfter ts .endOfFile ≠ k) :
    ¬ StartsPair k l ts := by
  rintro ⟨x, y, us, rfl, hx, -⟩
  exact h hx

theorem dotted_words (more : List Identifier) :
    Dotted ((more.flatMap fun x => [TokenKind.dot.word, x.word]).map Prod.fst) := by
  induction more with
  | nil => exact .nil
  | cons x more ih => exact .cons ih

theorem isTypeName_words (T : TypeName) : IsTypeName (T.words.map Prod.fst) := by
  cases T with
  | builtIn k => exact .inl ⟨k.1, rfl, k.2⟩
  | named first more => exact .inr ⟨_, rfl, dotted_words more⟩

theorem isBrackets_words (T : WrittenType) : IsBrackets (T.brackets.map Prod.fst) := by
  unfold WrittenType.brackets
  split
  · exact .inr rfl
  · exact .inl rfl

theorem outlines_leaves (ts : List Token) :
    Tree.outlines (ts.map (.leaf .loose)) = (ts.map Token.word).map (.leaf .loose) := by
  rw [Tree.outlines_eq_map, List.map_map, List.map_map]
  rfl

theorem readsAs_typeReference (T : WrittenType) : ReadsAs typeReference T.words [T.outline]
    (fun k => k ≠ .dot ∧ k ≠ .openBracket) := by
  rintro c rest ⟨ts, hts, hc⟩ ⟨hdot, hbracket⟩
  obtain ⟨name, brackets, rfl, hname, hbrackets⟩ := List.map_eq_append_iff.1 hts
  have hisName := isTypeName_words T.name
  have hisBrackets := isBrackets_words T
  rw [← hname, map_fst_words] at hisName
  rw [← hbrackets, map_fst_words] at hisBrackets
  have hkind : kindAfter (brackets ++ rest) .endOfFile ≠ .dot := by
    rcases hisBrackets with hb | hb
    · rwa [List.map_eq_nil_iff.1 hb]
    · obtain ⟨x, xs, rfl, hx, -⟩ := List.map_eq_cons_iff.1 hb
      exact fun h => nomatch hx.symm.trans h
  obtain ⟨span, h⟩ := typeReference_consumes hisName hisBrackets (by rw [hc, List.append_assoc])
    (fun _ => not_startsPair hkind) fun _ => not_startsPair hbracket
  refine ⟨_, ?_, h⟩
  rw [Tree.outlines, Tree.outlines, typeTree, Tree.outline, Tree.outlines_append,
    Tree.outlines_lastInto, outlines_leaves, outlines_leaves, hname, hbrackets]
  rfl

/-! ## Primary expressions -/

/-- The node that a token by itself is read as. -/
def singleKind? : TokenKind → Option NodeKind
  | .identifier | .boolKeyword | .doubleKeyword | .intKeyword | .objectKeyword
  | .stringKeyword => some .identifierName
  | .thisKeyword => some .thisExpression
  | .baseKeyword => some .baseExpression
  | .numericLiteral | .stringLiteral | .trueKeyword | .falseKeyword
  | .nullKeyword => some .literalExpression
  | _ => none

theorem readsAs_single {k : NodeKind} (h : singleKind? w.1 = some k) :
    ReadsAs (primary e) [w] [Expression.single k w] ok := by
  refine .of_kind (fun c hc => ?_) ((ReadsAs.take w).node k)
  rw [← hc] at h
  simp only [primary, look]
  revert h
  cases c.kind <;> intro h <;> cases h <;> rfl

theorem singleKind?_of_isPredefinedType {k : TokenKind}
    (h : k.isPredefinedType ∧ k ≠ .voidKeyword) : singleKind? k = some .identifierName := by
  revert h
  cases k <;> decide

theorem singleKind?_of_isLiteral {k : TokenKind} (h : k.isLiteral) :
    singleKind? k = some .literalExpression := by
  revert h
  cases k <;> decide

theorem readsAs_parenthesized (h : ReadsAs e words [o] (fun k => k.endsValue)) :
    ReadsAs (primary e) (TokenKind.openParen.word :: (words ++ [TokenKind.closeParen.word]))
      [.node .loose .parenthesizedExpression [.leaf .loose TokenKind.openParen.word,
        o.withSlot .expression, .leaf .loose TokenKind.closeParen.word]] ok := by
  have hclose : ReadsAs (expect .closeParen) [TokenKind.closeParen.word] _ ok := .expect rfl
  have hopen : ReadsAs take [TokenKind.openParen.word] _ (fun _ => True) := .take _
  have hinner := hopen.append (h.into_one .expression) fun _ _ => trivial
  have hall := (hinner.append hclose fun _ _ => rfl).node .parenthesizedExpression
  refine .of_kind (fun c hc => ?_) hall
  have hkind : c.kind = .openParen := hc
  simp only [primary, look, hkind]
  rfl

/-! ## Arguments -/

section Arguments

variable {args : List Expression}

/-- The expression may be read as an argument. -/
structure ReadsArgument (e : Parser) (a : Expression) : Prop where
  reads : ReadsAs e a.words [a.outline] (fun k => k.endsValue)
  starts : StartsWith (fun k => k.startsLevel 0) a.words

theorem readsAs_argument {a : Expression} (h : ReadsArgument e a) :
    ReadsAs (ifNext isArgumentModifier take nothing ++ e.into .item) a.words
      [a.outline.withSlot .item] (fun k => k.endsValue) := by
  have hmodifier : ReadsAs (ifNext isArgumentModifier take nothing) [] []
      (fun k => isArgumentModifier k = false) := .skip fun k hk => hk
  refine hmodifier.append (h.reads.into_one .item) fun k _ => ?_
  have hstarts := h.starts.firstKind k
  revert hstarts
  cases firstKind a.words k <;> decide

theorem readsAs_argumentList (h : ∀ a ∈ args, ReadsArgument e a) :
    ReadsAs ((argumentList e).into .arguments)
      (Expression.argumentWords (Expression.wordsAll args))
      [Expression.argumentOutline (Expression.outlineAll args)] ok := by
  have hparts : ∀ x ∈ args.map fun a => (a.words, a.outline.withSlot .item),
      ReadsAs (ifNext isArgumentModifier take nothing ++ e.into .item) x.1 [x.2]
          (fun k => k.endsValue) ∧
        StartsWith (fun k => k != .closeParen && k != .endOfFile) x.1 := by
    intro x hx
    obtain ⟨a, ha, rfl⟩ := List.mem_map.1 hx
    refine ⟨readsAs_argument (h a ha), (h a ha).starts.mono fun k hk => ?_⟩
    revert hk
    cases k <;> decide
  have hitems : ReadsAs (separated _ _) _ _ (· = .closeParen) :=
    .separated (by rfl) (by rintro k rfl; exact ⟨by decide, by decide, fun _ => rfl⟩) hparts
  have hopen : ReadsAs (expect .openParen) [TokenKind.openParen.word] _ (fun _ => True) :=
    .expect rfl
  have hclose : ReadsAs (expect .closeParen) [TokenKind.closeParen.word] _ ok := .expect rfl
  have hall := ((hopen.append hitems fun _ _ => trivial).append hclose fun _ _ => rfl).node
    .argumentList
  have hinto := hall.into_one .arguments
  rw [List.map_map, List.map_map] at hinto
  rw [Expression.wordsAll_eq_map, Expression.outlineAll_eq_map, Expression.argumentOutline,
    List.map_map]
  exact hinto

end Arguments

/-! ## Creations -/

theorem startsWith_type (T : WrittenType) : StartsWith startsType T.words := by
  obtain ⟨name, isArray⟩ := T
  cases name with
  | builtIn k =>
    refine ⟨k.1.word, _, rfl, ?_⟩
    rw [startsType, show k.1.word.1.isPredefinedType = true from k.2, Bool.or_true]
  | named first more => exact ⟨first.word, _, rfl, rfl⟩

/-- The type of a creation, where something else may follow. -/
theorem readsAs_createdType (T : WrittenType) :
    ReadsAs (expect .newKeyword ++
        ifNext startsType (typeReference.into .expression) (report .expectedType))
      (TokenKind.newKeyword.word :: T.words)
      [.leaf .loose TokenKind.newKeyword.word, T.outline.withSlot .expression]
      (fun k => k ≠ .dot ∧ k ≠ .openBracket) := by
  have hnew : ReadsAs (expect .newKeyword) [TokenKind.newKeyword.word] _ (fun _ => True) :=
    .expect rfl
  exact hnew.append (.ifNext_pos (fun k _ => (startsWith_type T).firstKind k)
    ((readsAs_typeReference T).into_one .expression)) fun _ _ => trivial

theorem primary_of_new {c : Cursor} (h : c.kind = .newKeyword) :
    primary e c = objectCreation e c := by
  simp only [primary, look, h]

theorem readsAs_bareCreation (T : WrittenType) :
    ReadsAs (primary e) (Expression.bareCreation T).words [(Expression.bareCreation T).outline]
      (fun k => k.endsPrimary) := by
  have hskip : ReadsAs (optionalArguments e) [] [] (fun k => k.endsPrimary) :=
    .skip fun k hk => by
      revert hk
      cases k <;> decide
  have hall := ((readsAs_createdType T).append hskip fun k hk => by
    revert hk
    cases k <;> decide).node .objectCreationExpression
  rw [List.append_nil, List.append_nil] at hall
  exact .of_kind (fun c hc => primary_of_new hc) hall

theorem readsAs_creation (T : WrittenType) {args : List Expression}
    (h : ∀ a ∈ args, ReadsArgument e a) :
    ReadsAs (primary e) (Expression.creation T args).words [(Expression.creation T args).outline]
      ok := by
  have harguments : ReadsAs (optionalArguments e) _ _ ok :=
    .ifNext_pos (fun _ _ => rfl) (readsAs_argumentList h)
  have hopen : TokenKind.openParen ≠ .dot ∧ TokenKind.openParen ≠ .openBracket := by decide
  have hall := ((readsAs_createdType T).append harguments fun _ _ => hopen).node
    .objectCreationExpression
  exact .of_kind (fun c hc => primary_of_new hc) hall

/-! ## Accesses and calls -/

/-- What an expression reads as the primary one may be called and accessed. -/
theorem chains_suffixed (h : ReadsAs (primary e) words [o] ok) :
    Chains (suffixed e) (suffix e) words o ok :=
  .of_read h fun c t ht => by
    change (if (primary e c).1.isEmpty then nothing
      else extend (suffix e) c.next.start (primary e c).2.rest (primary e c).1) _ = _
    rw [ht]
    rfl

theorem chains_access (h : Chains (suffixed e) (suffix e) words o ok') (hdot : ok' .dot)
    (x : Identifier) : Chains (suffixed e) (suffix e) (words ++ [TokenKind.dot.word, x.word])
      (.node .loose .memberAccessExpression [o.withSlot .left, .leaf .operator TokenKind.dot.word,
        (Expression.single .identifierName x.word).withSlot .right]) ok := by
  have hname : ReadsAs identifierName [x.word] [Expression.single .identifierName x.word] ok :=
    (ReadsAs.take x.word).node .identifierName
  have hmember : ReadsAs
      (ifNext (· == .identifier) (identifierName.into .right) (report .expectedMemberName))
      [x.word] _ ok := .ifNext_pos (fun _ _ => rfl) (hname.into_one .right)
  have hsign : ReadsAs take [TokenKind.dot.word] _ (fun _ => True) := .take _
  have hrest := (hsign.into_one .operator).append hmember fun _ _ => trivial
  refine h.step (w := TokenKind.dot.word) ⟨.memberAccessExpression, .left, _⟩
    (fun d hd => ?_) hrest hdot
  have hkind : d.kind = .dot := hd
  simp only [suffix, hkind]

theorem chains_call (h : Chains (suffixed e) (suffix e) words o ok') (hopen : ok' .openParen)
    {args : List Expression} (hargs : ∀ a ∈ args, ReadsArgument e a) :
    Chains (suffixed e) (suffix e)
      (words ++ Expression.argumentWords (Expression.wordsAll args))
      (.node .loose .invocationExpression [o.withSlot .expression,
        Expression.argumentOutline (Expression.outlineAll args)]) ok := by
  refine h.step (w := TokenKind.openParen.word)
    ⟨.invocationExpression, .expression, (argumentList e).into .arguments⟩ (fun d hd => ?_)
    (readsAs_argumentList hargs) hopen
  have hkind : d.kind = .openParen := hd
  simp only [suffix, hkind]

/-! ## Operators -/

/-- The operands of binary operators, with the operators of the `m` tightest levels. -/
def levels (operand : Parser) : (m : Nat) → Parser
  | 0 => operand
  | m + 1 => level (6 - m) (levels operand m)

variable {m : Nat}

/-- The words are a chain of operands on the `m`-th level, which goes on if an operator follows. -/
def ReadsChain (operand : Parser) (m : Nat) (words : List Word) (o : Outline) : Prop :=
  Chains (levels operand (m + 1)) (operation (6 - m) (levels operand m)) words o
    (fun k => k.endsLevels m)

/-- The words are an operand for the operators that are looser than the `m`-th level. -/
def ReadsLevel (operand : Parser) (m : Nat) (words : List Word) (o : Outline) : Prop :=
  ReadsAs (levels operand m) words [o] (fun k => k.endsLevels m)

theorem ReadsLevel.chain (h : ReadsLevel operand m words o) : ReadsChain operand m words o :=
  .extended h

theorem ReadsChain.level (h : ReadsChain operand m words o) :
    ReadsLevel operand (m + 1) words o := by
  refine h.stop (fun k hk => endsLevels_of_le hk (Nat.le_succ m)) fun d hd => ?_
  rw [operation, if_neg]
  rw [beq_iff_eq]
  intro hp
  simp only [endsLevels, Bool.and_eq_true, hp, Option.all_some, decide_eq_true_iff] at hd
  omega

theorem ReadsChain.of_le (h : ReadsChain operand m words o) {m' : Nat} (hm : m ≤ m') :
    ReadsChain operand m' words o := by
  induction hm with
  | refl => exact h
  | step _ ih => exact ih.level.chain

/-- An operator goes on with a chain of its level. -/
theorem ReadsChain.binary (h : ReadsChain operand m words o) {k : TokenKind}
    (hk : k.precedence? = some (6 - m)) (hm : m < 6) (h' : ReadsLevel operand m words' o') :
    ReadsChain operand m (words ++ k.word :: words') (.node .loose .binaryExpression
      [o.withSlot .left, .leaf .operator k.word, o'.withSlot .right]) := by
  have hsign : ReadsAs take [k.word] _ (fun _ => True) := .take _
  have hrest := (hsign.into_one .operator).append (h'.into_one .right) fun _ _ => trivial
  refine Chains.step (w := k.word) h ⟨.binaryExpression, .left, _⟩ (fun d hd => ?_) hrest ?_
  · have hkind : d.kind = k := hd
    rw [operation, hkind, hk, if_pos (beq_self_eq_true _)]
  · change k.endsLevels m = true
    rw [endsLevels, endsPrimary_of_precedence (by rw [hk]; rfl), hk, Bool.true_and, Option.all_some,
      decide_eq_true_iff]
    omega

theorem readsAs_assignment_of_level (h : ReadsLevel operand 6 words o) :
    ReadsAs (assignment operand value) words [o] (fun k => k.endsValue) := by
  have hread : ReadsAs (assignment operand value) (words ++ []) [o] (fun k => k.endsValue) := by
    refine ReadsAs.read h (fun start ts hts => .ifNext_neg (fun k hk => ?_) (.emit hts))
      fun k hk => ?_
    · simp only [endsValue, Bool.and_eq_true, Bool.not_eq_true'] at hk
      exact hk.2
    · simp only [endsValue, Bool.and_eq_true] at hk
      exact hk.1
  rwa [List.append_nil] at hread

theorem readsAs_assignment (h : ReadsLevel operand 6 words o) {k : TokenKind}
    (hk : k.isAssignment) (h' : ReadsAs value words' [o'] ok) :
    ReadsAs (assignment operand value) (words ++ k.word :: words')
      [.node .loose .assignmentExpression
        [o.withSlot .left, .leaf .operator k.word, o'.withSlot .right]] ok := by
  have hsign : ReadsAs take [k.word] _ (fun _ => True) := .take _
  have hrest := (hsign.into_one .operator).append (h'.into_one .right) fun _ _ => trivial
  refine ReadsAs.read h (fun start ts hts => .ifNext_pos (fun _ _ => hk) ?_)
    fun _ _ => endsLevels_of_isAssignment hk 6
  exact ReadsAs.enlarge ⟨.assignmentExpression, .left, _⟩ hts hrest start

theorem expression_succ (n : Nat) :
    expression (n + 1) = assignment (Nesting.of n).operand (expression n) := by
  rw [expression, Nesting.of_succ_expression, ← expression]

/-! ## Signs -/

/-- The operand of a sign is read where one level less may be opened. -/
theorem readsAs_signed {k : TokenKind} (hk : k.isSign)
    (h : ReadsAs (Nesting.of n).operand words [o] ok) :
    ReadsAs (Nesting.of (n + 1)).operand (k.word :: words)
      [.node .loose .prefixUnaryExpression [.leaf .operator k.word, o.withSlot .right]] ok := by
  have hsign : ReadsAs take [k.word] _ (fun _ => True) := .take _
  have hall := ((hsign.into_one .operator).append (h.into_one .right) fun _ _ => trivial).node
    .prefixUnaryExpression
  rw [Nesting.of_succ_operand]
  exact .ifNext_pos (fun _ _ => hk) hall

theorem readsAs_unsigned (h : ReadsAs (suffixed (expression n)) words [o] ok)
    (hsign : ∀ k, (firstKind words k).isSign = false) :
    ReadsAs (Nesting.of n).operand words [o] ok := by
  cases n with
  | zero =>
    rw [Nesting.of_zero_operand]
    exact .ifNext_neg (fun k _ => hsign k) h
  | succ n =>
    rw [Nesting.of_succ_operand]
    exact .ifNext_neg (fun k _ => hsign k) h

/-! ## Expressions -/

/-- Where `n` levels may be opened, the words of the expression are read as its tree, at each level
of the grammar that it is tight enough for. -/
structure ReadsBack (n : Nat) (e : Expression) : Prop where
  suffixed : e.level = 8 → Chains (suffixed (expression n)) (suffix (expression n)) e.words
    e.outline (fun k => e.isBareCreation → k.endsPrimary)
  level : ∀ m ≤ 6, 7 - m ≤ e.level → ReadsLevel (Nesting.of n).operand m e.words e.outline
  chain : ∀ m < 6, 6 - m ≤ e.level → ReadsChain (Nesting.of n).operand m e.words e.outline
  value : ReadsAs (expression (n + 1)) e.words [e.outline] (fun k => k.endsValue)

variable {a l r : Expression}

theorem ReadsBack.of_chain (hm : m < 6) (hl : a.level = 6 - m)
    (h : ReadsChain (Nesting.of n).operand m a.words a.outline) : ReadsBack n a where
  suffixed h8 := by omega
  level
  | 0, _, h7 => by omega
  | m' + 1, _, h7 => (h.of_le (by omega)).level
  chain m' _ h6 := h.of_le (by omega)
  value := readsAs_assignment_of_level (h.of_le (Nat.le_of_lt_succ hm)).level

theorem ReadsBack.of_value (hl : a.level = 0)
    (h : ReadsAs (expression (n + 1)) a.words [a.outline] (fun k => k.endsValue)) :
    ReadsBack n a where
  suffixed h8 := by omega
  level m _ h7 := by omega
  chain m _ h6 := by omega
  value := h

theorem ReadsBack.of_operand
    (h : ReadsAs (Nesting.of n).operand a.words [a.outline] (fun k => k.endsPrimary))
    (hs : a.level = 8 → Chains (Grammar.suffixed (expression n)) (suffix (expression n)) a.words
      a.outline (fun k => a.isBareCreation → k.endsPrimary)) : ReadsBack n a := by
  have hlevel : ReadsLevel (Nesting.of n).operand 0 a.words a.outline := h.mono fun k hk => by
    simp only [endsLevels, Bool.and_eq_true] at hk
    exact hk.1
  have hchain (m : Nat) : ReadsChain (Nesting.of n).operand m a.words a.outline :=
    hlevel.chain.of_le (Nat.zero_le m)
  refine ⟨hs, fun m _ _ => ?_, fun m _ _ => hchain m, readsAs_assignment_of_level (hchain 5).level⟩
  cases m with
  | zero => exact hlevel
  | succ m => exact (hchain m).level

theorem ReadsBack.of_suffixed (hl : a.level = 8)
    (hstarts : StartsWith (fun k => k.startsLevel a.level) a.words)
    (h : Chains (Grammar.suffixed (expression n)) (suffix (expression n)) a.words a.outline
      (fun k => a.isBareCreation → k.endsPrimary)) : ReadsBack n a := by
  refine .of_operand (readsAs_unsigned (h.stop (fun k hk _ => hk) fun d hd => ?_)
    fun k => not_isSign_of_startsLevel (hl ▸ hstarts.firstKind k)) fun _ => h
  unfold suffix
  revert hd
  cases d.kind <;> intro hd <;> first | rfl | exact absurd hd (by decide)

theorem ReadsBack.of_primary (hl : a.level = 8)
    (hstarts : StartsWith (fun k => k.startsLevel a.level) a.words)
    (h : ReadsAs (primary (expression n)) a.words [a.outline]
      (fun k => a.isBareCreation → k.endsPrimary)) : ReadsBack n a :=
  .of_suffixed hl hstarts (chains_suffixed h)

end Grammar

namespace Expression

open Grammar TokenKind

theorem startsLevel_of_isPredefinedType {k : TokenKind}
    (h : k.isPredefinedType ∧ k ≠ .voidKeyword) : k.startsLevel 8 := by
  revert h
  cases k <;> decide

theorem startsLevel_of_isLiteral {k : TokenKind} (h : k.isLiteral) : k.startsLevel 8 := by
  revert h
  cases k <;> decide

theorem startsLevel_of_isSign {k : TokenKind} (h : k.isSign) : k.startsLevel 7 := by
  revert h
  cases k <;> decide

theorem level_binary {k : { k : TokenKind // k.precedence?.isSome }} {l r : Expression} :
    ∃ m < 6, (binary k l r).level = 6 - m ∧ k.1.precedence? = some (6 - m) := by
  obtain ⟨k, hk⟩ := k
  obtain ⟨p, hp⟩ := Option.isSome_iff_exists.1 hk
  have hbounds := precedence?_bounds hp
  refine ⟨6 - p, by omega, ?_, by rw [hp]; congr 1; omega⟩
  rw [level, hp, Option.getD_some]
  omega

/-- What an expression of some level begins with. -/
theorem Grouped.startsWith {e : Expression} (h : e.Grouped) :
    StartsWith (fun k => k.startsLevel e.level) e.words := by
  induction h with
  | name x => exact ⟨_, _, rfl, rfl⟩
  | builtIn k => exact ⟨_, _, rfl, startsLevel_of_isPredefinedType k.2⟩
  | this => exact ⟨_, _, rfl, rfl⟩
  | base => exact ⟨_, _, rfl, rfl⟩
  | literal w => exact ⟨_, _, rfl, startsLevel_of_isLiteral w.2.1⟩
  | parenthesized => exact ⟨_, _, rfl, rfl⟩
  | @signed k _ => exact ⟨_, _, rfl, startsLevel_of_isSign k.2⟩
  | @binary k l r _ _ _ _ ih =>
    obtain ⟨m, hm, hlevel, -⟩ := level_binary (k := k) (l := l) (r := r)
    exact (ih.mono fun _ hk => startsLevel_mono hk (by omega)).append _
  | assignment _ _ _ ih =>
    exact (ih.mono fun _ hk => startsLevel_mono hk (by simp [level])).append _
  | access _ hl _ ih => exact (hl ▸ ih).append _
  | call _ hl _ _ ih => exact (hl ▸ ih).append _
  | bareCreation => exact ⟨_, _, rfl, rfl⟩
  | creation => exact ⟨_, _, rfl, rfl⟩

theorem readsArgument {a : Expression} (ha : a.Grouped)
    (h : ∀ n, a.nesting ≤ n → ReadsBack n a) {n : Nat} (hn : a.nesting < n) :
    ReadsArgument (expression n) a := by
  obtain ⟨n, rfl⟩ : ∃ m, n = m + 1 := ⟨n - 1, by omega⟩
  refine ⟨(h n (Nat.le_of_lt_succ hn)).value, ha.startsWith.mono fun k hk => ?_⟩
  exact startsLevel_mono hk (by decide)

/-- An expression is read back where its nesting is allowed. -/
theorem Grouped.readsBack {e : Expression} (h : e.Grouped) :
    ∀ n, e.nesting ≤ n → ReadsBack n e := by
  induction h with
  | name x => exact fun n _ => .of_primary rfl (Grouped.name x).startsWith (readsAs_single rfl)
  | builtIn k =>
    exact fun n _ => .of_primary rfl (Grouped.builtIn k).startsWith
      (readsAs_single (singleKind?_of_isPredefinedType k.2))
  | this => exact fun n _ => .of_primary rfl Grouped.this.startsWith (readsAs_single rfl)
  | base => exact fun n _ => .of_primary rfl Grouped.base.startsWith (readsAs_single rfl)
  | literal w =>
    exact fun n _ => .of_primary rfl (Grouped.literal w).startsWith
      (readsAs_single (singleKind?_of_isLiteral w.2.1))
  | parenthesized h ih =>
    rintro (- | n) hn
    · exact absurd hn (Nat.not_succ_le_zero _)
    · have hvalue := (ih n (Nat.le_of_succ_le_succ hn)).value
      exact .of_primary rfl h.parenthesized.startsWith (readsAs_parenthesized hvalue)
  | @signed k e _ hlevel ih =>
    rintro (- | n) hn
    · exact absurd hn (Nat.not_succ_le_zero _)
    · have hoperand := (ih n (Nat.le_of_succ_le_succ hn)).level 0 (Nat.zero_le 6) hlevel
      refine .of_operand (readsAs_signed k.2 (hoperand.mono fun k hk => ?_))
        fun h8 => by cases h8
      revert hk
      cases k <;> decide
  | @binary k l r _ _ hleft hright ihl ihr =>
    intro n hn
    obtain ⟨m, hm, hlevel, hk⟩ := level_binary (k := k) (l := l) (r := r)
    have hl := (ihl n (Nat.le_trans (Nat.le_max_left _ _) hn)).chain m hm (hlevel ▸ hleft)
    have hr := (ihr n (Nat.le_trans (Nat.le_max_right _ _) hn)).level m (by omega) (by omega)
    exact .of_chain hm hlevel (hl.binary hk hm hr)
  | @assignment k l r _ _ hleft ihl ihr =>
    intro n hn
    have hr : r.nesting + 1 ≤ n := Nat.le_trans (Nat.le_max_right _ _) hn
    obtain ⟨n, rfl⟩ : ∃ m, n = m + 1 := ⟨n - 1, by omega⟩
    have hl := (ihl _ (Nat.le_trans (Nat.le_max_left _ _) hn)).level 6 (Nat.le_refl 6) hleft
    have hvalue := (ihr n (Nat.le_of_succ_le_succ hr)).value
    refine .of_value rfl ?_
    rw [expression_succ (n + 1), words, outline]
    exact readsAs_assignment hl k.2 hvalue
  | access h hlevel hbare ih =>
    intro n hn
    have hbase := (ih n hn).suffixed hlevel
    exact .of_suffixed rfl (h.access hlevel hbare).startsWith
      (chains_access hbase (by simp [hbare]) _)
  | @call e args h hlevel hbare hargs ih ihargs =>
    intro n hn
    have hbase := (ih n (Nat.le_trans (Nat.le_max_left _ _) hn)).suffixed hlevel
    have hread : ∀ a ∈ args, ReadsArgument (expression n) a := fun a ha =>
      readsArgument (hargs a ha) (ihargs a ha) (Nat.lt_of_lt_of_le (nesting_lt_nestingAll ha)
        (Nat.le_trans (Nat.le_max_right _ _) hn))
    exact .of_suffixed rfl (h.call hlevel hbare hargs).startsWith
      (chains_call hbase (by simp [hbare]) hread)
  | bareCreation T =>
    exact fun n _ => .of_primary rfl (Grouped.bareCreation T).startsWith
      ((readsAs_bareCreation T).mono fun k hk => hk rfl)
  | @creation T args hargs ih =>
    intro n hn
    have hread : ∀ a ∈ args, ReadsArgument (expression n) a := fun a ha =>
      readsArgument (hargs a ha) (ih a ha) (Nat.lt_of_lt_of_le (nesting_lt_nestingAll ha) hn)
    exact .of_primary rfl (Grouped.creation hargs).startsWith (readsAs_creation T hread)

end Expression

end Caret
