import Caret.Proofs.DeclarationLockstep
import Caret.Proofs.GrammarSideBySide
/-!
# Declarations side by side

Where both runs see the same tokens, blocks and declarations follow each other too, if the bodies
of members do. One lemma for each parser, in the order of the grammar.
-/

namespace Caret.Grammar

open Caret.Parser Pattern
open Comparison hiding take report next

section Even

variable {r : Comparison} (he : r.Even) {c d : Cursor} {n n' : Nat} {ok : Cursor → Prop}
  {ts us : List Tree} {start start' : Nat}

include he

/-! ## Blocks -/

/-- What stands in a block between its braces. -/
def statements (s : Parser) : Parser :=
  Parser.many continuesBlock ((s.into .item).orSkip .expectedStatement)

/-- What stands in a block, its braces included. -/
def blockParts (s : Parser) : Parser := expect .openBrace ++ statements s ++ expect .closeBrace

theorem keeps_blockParts {s : Parser} (hs : Keeps r s) (hr : ReadsStatement s) :
    Keeps r (blockParts s) := by
  intro n n' ok
  have hpart : r.Follows n n' (At continuesBlock) ((s.into .item).orSkip .expectedStatement)
      ((s.into .item).orSkip .expectedStatement) := by
    refine .orSkip (· ≠ .endOfFile) (hs.into _) (he.takes fun _ => id) ?_ _
    intro c hc _ hnone
    have hinto : Yields Any (s.into .item) (Pattern.statement .item) := Yields.into_opt hr
    rw [kind_of_nil hinto hnone]
    intro hk
    rw [At, hk] at hc
    cases hc
  exact ((he.expect (by decide)).append (.many he.sees hpart
    (.of_at he.sees (yields_blockPart hr) rfl))).append (he.expect (by decide))

/-- The block of a member follows itself. -/
def KeepsBody (r : Comparison) : Prop :=
  ∀ {n n'}, r.Follows n n' (At (· == .openBrace)) (block (statement nestingLimit))
    (block (statement nestingLimit))

/-! ## Attributes and modifiers -/

theorem keeps_attributeList : Keeps r attributeList := by
  intro n n' ok
  have hattribute : Keeps r singleAttribute :=
    ((keeps_qualifiedName.into _).append
      (keeps_optionalArguments (keeps_expression _))).node (by decide)
  exact (((he.expect (by decide)).append (.separated he.sees (hattribute.into _))).append
    (he.expect (by decide))).node (by decide)

theorem keeps_attributeLists : Keeps r attributeLists :=
  Follows.many he.sees ((keeps_attributeList he).into _)
    (.of_at he.sees yields_attributeList.into_one rfl)

/-- Tokens of some kinds, each in a slot. -/
theorem keeps_manyTake {test : TokenKind → Bool} (hend : test .endOfFile = false) (slot : Slot) :
    Keeps r (many test (take.into slot)) := by
  intro n n' ok
  have htake : Yields (At test) (take.into slot) (leaf slot test) := (Yields.takeAt hend).into_one
  have hb : (leaf slot test).beyond (.node .variableDeclarator) := rfl
  refine .many he.sees (.into (.take (he.takes fun c hc hk => ?_)) _) (.of_at he.sees htake hb)
  rw [At, hk, hend] at hc
  cases hc

theorem keeps_declarationHead : Keeps r declarationHead :=
  (keeps_attributeLists he).append (keeps_manyTake he rfl _)

/-! ## Parameters -/

theorem keeps_parameter : Keeps r parameter := by
  intro n n' ok
  have hname : Keeps r parameterName :=
    Follows.orReport he.sees ((keeps_typeReference.into _).append ((he.expect (by decide)).into _)) _
  have hinitializer : Keeps r
      (ifNext (· == .equals) (take ++ outerExpression.into .initializer) nothing) :=
    Follows.optional he.sees
      ((Follows.take (takes_beq rfl)).append ((keeps_expression _).into _))
  exact ((((keeps_attributeLists he).append (keeps_manyTake he rfl _)).append hname).append
    hinitializer).node (by decide)

theorem keeps_parameterList : Keeps r parameterList :=
  (((he.expect (by decide)).append (.separated he.sees ((keeps_parameter he).into _))).append
    (he.expect (by decide))).node (by decide)

/-! ## Bodies -/

theorem keeps_arrow : Keeps r ((arrowClause outerExpression).into .body ++ expect .semicolon) :=
  ((keeps_arrowClause (keeps_expression _)).into _).append (he.expect (by decide))

theorem keeps_memberBody (hb : KeepsBody r) : Keeps r memberBody := by
  refine Follows.look fun c d _ hcd => ?_
  rw [← he.kind_near hcd]
  cases hk : c.kind with
  | openBrace => exact (hb.mono fun e he => by rw [he, At, hk]; rfl).into _
  | equalsGreater => exact keeps_arrow he
  | semicolon => exact .take (takesKind rfl hk)
  | _ => exact .report _ _

omit he in
theorem carries_accessor (start : Nat) (ts : List Tree) : r.Carries ts (look fun c =>
    if isAccessorKeyword c.kind then
      (close .accessorDeclaration start
        (emit ts ++ take.into .keyword ++ memberBody)).into .accessor
    else if ts.isEmpty then nothing
    else report .expectedAccessor ++ emit (ts.map (Tree.withSlot .loose))) := by
  refine .look fun c => ?_
  split
  · rw [append_assoc]
    exact .into (.close ((Carries.emit ts).append _) (by decide) start) _
  · exact .ifEmpty _ (.behind _ fun h _ => h.map_withSlot _)

theorem keeps_accessor (hb : KeepsBody r) : Keeps r accessor := by
  refine Follows.read (keeps_manyTake he rfl _) (fun _ => carries_accessor)
    fun _ _ ts us hts => .look fun c d _ hcd => ?_
  rw [← he.kind_near hcd, ← hts.isEmpty]
  split
  · rename_i hk
    have hkeyword : r.Takes (· = c) := he.takes fun e he hend => by
      rw [he] at hend
      rw [hend] at hk
      cases hk
    exact (((Follows.emitThen hts ((Follows.take hkeyword).into _)).append
      (keeps_memberBody he hb)).close (by decide) _ _).into _
  · split
    · exact .nothing
    · exact (Follows.report _ _).append (.emit (hts.map_withSlot _))

theorem keeps_accessorList (hb : KeepsBody r) : Keeps r accessorList := by
  intro n n' ok
  have haccessors : Keeps r (many (fun k => k.isModifier || isAccessorKeyword k) accessor) :=
    Follows.many he.sees (keeps_accessor he hb) (.of_at he.sees yields_accessorPart rfl)
  have hinitializer : Keeps r
      (ifNext (· == .equals) (take ++ outerExpression.into .initializer ++ expect .semicolon)
        nothing) :=
    Follows.optional he.sees (((Follows.take (takes_beq rfl)).append
      ((keeps_expression _).into _)).append
      (he.expect (by decide)))
  exact (((he.expect (by decide)).append haccessors).append (he.expect (by decide))).append
    hinitializer

/-! ## The rests of members -/

theorem keeps_constructorInitializer : Keeps r constructorInitializer := by
  intro n n' ok
  have htarget : Keeps r (ifNext (fun k => k == .baseKeyword || k == .thisKeyword)
      (take.into .keyword) (report .expectedConstructorTarget)) := by
    refine Follows.orReport he.sees (.into (.take (he.takes fun c hc hk => ?_)) _) _
    rw [At, hk] at hc
    cases hc
  exact ((((he.expect (by decide)).into _).append htarget).append
    (keeps_optionalArguments (keeps_expression _))).node (by decide)

theorem keeps_nameAndParameters : Keeps r
    ((expect .identifier).into .name ++ parameterList.into .parameters) :=
  ((he.expect (by decide)).into _).append ((keeps_parameterList he).into _)

theorem keeps_initializer : Keeps r
    (ifNext (· == .colon) (constructorInitializer.into .initializer) nothing) :=
  Follows.optional he.sees ((keeps_constructorInitializer he).into _)

theorem keeps_propertyRest (hb : KeepsBody r) : Keeps r propertyRest :=
  ((he.expect (by decide)).into _).append
    (.ifNext he.sees (keeps_arrow he) (keeps_accessorList he hb))

theorem keeps_fieldRest : Keeps r fieldRest :=
  (keeps_declarators (keeps_expression _)).append (he.expect (by decide))

omit he in
theorem follows_incomplete (ha : r.Alike ts us) (problem : Problem) : r.Follows n n' ok
    (report problem ++ incomplete start ts) (report problem ++ incomplete start' us) :=
  (Follows.report _ _).append ((Follows.emit ha).close (by decide) _ _)

/-! ## Members -/

theorem follows_namedMember (hb : KeepsBody r) (ha : r.Alike ts us) :
    r.Follows n n' ok (namedMember start ts) (namedMember start' us) := by
  refine .look fun c d _ hcd => ?_
  rw [← he.kind_near hcd]
  split
  · exact follows_incomplete ha _
  · rename_i hk
    have hk : c.kind = .identifier := by simpa using hk
    have hpeek : c.peek 1 = d.peek 1 := hcd.peek_one (by rw [hk]; rfl) (f := id) he.sees
    rw [← hpeek]
    cases c.peek 1 with
    | openParen =>
      exact (Follows.emitThen ha ((keeps_nameAndParameters he).append
        (keeps_memberBody he hb))).close (by decide) _ _
    | openBrace | equalsGreater =>
      exact (Follows.emitThen ha (keeps_propertyRest he hb)).close (by decide) _ _
    | _ => exact (Follows.emitThen ha (keeps_fieldRest he)).close (by decide) _ _

theorem startsConstructor_near (typeName : Option (List Char)) (hcd : r.Near c d) :
    startsConstructor typeName c = startsConstructor typeName d := by
  have htext : c.next.text = d.next.text := congrArg Prod.snd (he.next_near hcd)
  unfold startsConstructor
  rw [← he.kind_near hcd, htext]
  by_cases hk : c.kind = .identifier
  · rw [hcd.peek_one (by rw [hk]; rfl) (f := (· == .openParen)) he.sees]
  · rw [beq_eq_false_iff_ne.2 hk, Bool.false_and, Bool.false_and, Bool.false_and, Bool.false_and]

omit he in
/-- Trees in a declaration that is made of them. -/
theorem carries_of_wraps {p : Parser} (h : ts ≠ [] → Wraps ts p) : r.Carries ts p := by
  intro hs c
  have hne : ts ≠ [] := by
    rintro rfl
    obtain ⟨t, ht, -⟩ := hs
    cases ht
  obtain ⟨k, span, more, ⟨-, hk⟩, hp⟩ := h hne c
  rw [hp]
  exact (hs.left more).node hk _ _

variable {nested nested' : Nat → List Tree → Parser}

/-- A member from behind its head on. -/
theorem follows_memberRest (hb : KeepsBody r) (hn : ∀ start start' ts us, r.Alike ts us →
      r.Follows n n' (At TokenKind.isTypeKeyword) (nested start ts) (nested' start' us))
    (typeName : Option (List Char)) (ha : r.Alike ts us) : r.Follows n n' ok
      (memberRest nested typeName start ts) (memberRest nested' typeName start' us) := by
  refine .look fun c d _ hcd => ?_
  rw [← he.kind_near hcd, ← startsConstructor_near he typeName hcd, ← ha.isEmpty]
  split
  · rename_i hk
    exact (hn _ _ _ _ ha).mono fun e he => by rwa [he]
  · split
    · exact (Follows.emitThen ha (((keeps_nameAndParameters he).append (keeps_initializer he)).append
        (keeps_memberBody he hb))).close (by decide) _ _
    · split
      · exact (Follows.emitThen ha (keeps_typeReference.into _)).read
          (fun _ _ _ => carries_of_wraps fun _ => .namedMember)
          fun _ _ _ _ ha => follows_namedMember he hb ha
      · split
        · exact .nothing
        · exact follows_incomplete ha _

theorem follows_member (hb : KeepsBody r) (hn : ∀ start start' ts us, r.Alike ts us →
      r.Follows n n' (At TokenKind.isTypeKeyword) (nested start ts) (nested' start' us))
    (hw : 0 < n → ∀ start ts, Wraps ts (nested start ts)) (typeName : Option (List Char)) :
    r.Follows n n' ok (member nested typeName) (member nested' typeName) := by
  rw [member_eq, member_eq]
  exact (keeps_declarationHead he).read
    (fun h start ts => carries_of_wraps fun hne => .memberRest (hw h start ts) hne)
    fun _ _ _ _ ha => follows_memberRest he hb hn typeName ha

/-! ## Types -/

/-- Declarations up to the end of the braces, or of the file. -/
theorem follows_parts {p q : Parser} {test : TokenKind → Bool} {k : NodeKind → Bool}
    (hp : r.Follows n n' (At test) p q) (hd : Declares (Within (n - 1)) p k)
    (hd' : Declares (Within (n' - 1)) q k) (slot : Slot) (problem : Problem)
    (hend : test .endOfFile = false) (hk : k .variableDeclarator = false) :
    r.Follows n n' ok (many test ((p.into slot).orSkip problem))
      (many test ((q.into slot).orSkip problem)) := by
  have hpart : r.Follows n n' (At test) ((p.into slot).orSkip problem)
      ((q.into slot).orSkip problem) := by
    refine .orSkip (· ≠ .endOfFile) (hp.into _) (he.takes fun _ => id) ?_ _
    intro c hc hn hnone
    have hinto : Yields (Within (n - 1)) (p.into slot) _ := hd.yields.into_opt
    have hreads := (hinto c (by unfold Within; omega)).1
    rw [hnone] at hreads
    rw [Cursor.kind_congr hreads.tokens]
    intro hkind
    rw [At, hkind, hend] at hc
    cases hc
  have hwithin {p : Parser} {n : Nat} (hd : Declares (Within (n - 1)) p k) :
      Yields (fun c => c.rest.length < n ∧ At test c) ((p.into slot).orSkip problem)
        (Pattern.declarations slot k test) :=
    (yields_part hd problem hend).mono fun c hc => ⟨Nat.le_sub_one_of_lt hc.1, hc.2⟩
  refine .many he.sees hpart (.of_yields he.sees (hwithin hd) (hwithin hd') ?_)
  simp [Pattern.declarations, skipped, leaf, Pattern.node, beyond, hk, Kind.isToken, Kind.token?]

theorem keeps_bases : Keeps r (ifNext (· == .colon) (baseList.into .bases) nothing) :=
  Follows.optional he.sees ((((he.expect (by decide)).append
    (.separated he.sees (keeps_typeReference.into _))).node (by decide)).into _)

theorem follows_typeRest {memberOf memberOf' : Option (List Char) → Parser}
    (hm : ∀ typeName, r.Follows (n - 1) (n' - 1) (fun _ => True) (memberOf typeName)
      (memberOf' typeName))
    (hd : ∀ typeName, Declares (Within (n - 1 - 1)) (memberOf typeName) NodeKind.isInner)
    (hd' : ∀ typeName, Declares (Within (n' - 1 - 1)) (memberOf' typeName) NodeKind.isInner) :
    r.Follows n n' ok (typeRest memberOf) (typeRest memberOf') := by
  refine .look fun c d _ hcd => ?_
  have htext : c.next.text = d.next.text := congrArg Prod.snd (he.next_near hcd)
  rw [← he.kind_near hcd, ← htext]
  have hparts (typeName : Option (List Char)) : r.Follows (n - 1) (n' - 1) (fun _ => True)
      (Parser.many continuesBraces _) (Parser.many continuesBraces _) :=
    follows_parts he (hm typeName).anywhere (hd typeName) (hd' typeName) .member .expectedMember
      rfl rfl
  have htake : r.Takes (At (· == .openBrace)) := he.takes fun e he hend => by
    rw [At, hend] at he
    cases he
  have hbraces (typeName : Option (List Char)) := Follows.takeThen htake (hparts typeName)
    fun _ _ => trivial
  exact ((((he.expect (by decide)).into _).append (keeps_bases he)).append (.orReport he.sees
    ((hbraces _).append (he.expect (by decide))) _))

/-- A type from its keyword on, if the types in it follow each other. -/
theorem follows_typeDeclaration_cons (hb : KeepsBody r) {unread unread' : List Token}
    (hn : ∀ start start' ts us, r.Alike ts us →
      r.Follows (n - 1 - 1) (n' - 1 - 1) (At TokenKind.isTypeKeyword)
        (typeDeclaration unread start ts) (typeDeclaration unread' start' us))
    (hle : n - 1 - 1 ≤ unread.length) (hle' : n' - 1 - 1 ≤ unread'.length) (x y : Token)
    (ha : r.Alike ts us) : r.Follows n n' (At TokenKind.isTypeKeyword)
      (typeDeclaration (x :: unread) start ts) (typeDeclaration (y :: unread') start' us) := by
  have hdeclares {m : Nat} {unread : List Token} (hm : m ≤ unread.length)
      (typeName : Option (List Char)) : Declares (Within (m - 1))
        (member (typeDeclaration unread) typeName) NodeKind.isInner := by
    refine (declares_member (reads_typeDeclaration unread) typeName).mono fun c hc => ?_
    unfold Within at *
    omega
  have hwraps (h : 0 < n - 1 - 1) (start : Nat) (ts : List Tree) :
      Wraps ts (typeDeclaration unread start ts) :=
    .typeDeclaration (List.length_pos_iff.1 (Nat.lt_of_lt_of_le h hle))
  have hrest : r.Follows (n - 1) (n' - 1) (fun _ => True)
      (typeRest (member (typeDeclaration unread))) (typeRest (member (typeDeclaration unread'))) :=
    follows_typeRest he (follows_member he hb hn hwraps) (hdeclares hle) (hdeclares hle')
  refine .look fun c d hc hcd => ?_
  have hkind : declarationKind c.kind ≠ .block := by
    unfold declarationKind
    split <;> decide
  have htake : r.Takes (· = c) := he.takes fun e he hend => by
    rw [he] at hend
    rw [At, hend] at hc
    cases hc
  rw [← he.kind_near hcd, append_assoc, append_assoc]
  exact (Follows.emitThen ha (.takeThen htake hrest fun _ _ => trivial)).close hkind _ _

/-- The types that nest are no more than the tokens left in either run. -/
theorem follows_typeDeclaration (hb : KeepsBody r) {unread unread' : List Token}
    (hn : n ≤ unread.length + 1) (hn' : n' ≤ unread'.length + 1) (ha : r.Alike ts us) :
    r.Follows n n' (At TokenKind.isTypeKeyword) (typeDeclaration unread start ts)
      (typeDeclaration unread' start' us) := by
  have hrest {c : Cursor} (hc : At TokenKind.isTypeKeyword c) : 0 < c.rest.length := by
    have hend : c.kind ≠ .endOfFile := by
      intro hk
      rw [At, hk] at hc
      cases hc
    obtain ⟨rest, hr⟩ := exists_rest hend
    rw [hr]
    exact Nat.succ_pos _
  induction unread generalizing n n' unread' start start' ts us with
  | nil =>
    refine fun c hc => ⟨id, fun d _ hlt _ => ?_⟩
    have := hrest hc
    rw [List.length_nil] at hn
    omega
  | cons x unread ih =>
    rw [List.length_cons] at hn
    have htail : n' - 1 - 1 ≤ unread'.tail.length := by
      rw [List.length_tail]
      omega
    have hnested (start start' : Nat) (ts us : List Tree) (ha : r.Alike ts us) :
        r.Follows (n - 1 - 1) (n' - 1 - 1) (At TokenKind.isTypeKeyword)
          (typeDeclaration unread start ts) (typeDeclaration unread'.tail start' us) :=
      ih (by omega) (Nat.le_succ_of_le htail) ha
    have hturn : r.Follows n n' (At TokenKind.isTypeKeyword)
        (typeDeclaration (x :: unread) start ts)
        (typeDeclaration (x :: unread'.tail) start' us) :=
      follows_typeDeclaration_cons he hb hnested (by omega) htail x x ha
    cases unread' with
    | nil =>
      -- a keyword would be left in the second run
      refine fun c hc => ⟨(hturn c hc).1, fun d hcd _ hlt => ?_⟩
      have hd : At TokenKind.isTypeKeyword d := by
        unfold At at *
        rwa [← he.kind_near (.inl hcd)]
      have := hrest hd
      rw [List.length_nil] at hn'
      omega
    | cons y unread' => exact hturn

/-! ## Namespaces -/

/-- A type outside of every type, from behind its head on. -/
theorem follows_outerTypeRest (hb : KeepsBody r) (ha : r.Alike ts us) :
    r.Follows n n' ok (outerTypeRest start ts) (outerTypeRest start' us) := by
  refine .lookWithin fun c d _ _ _ hcd _ _ hc hd => ?_
  rw [← he.kind_near hcd, ← ha.isEmpty]
  split
  · rename_i hk
    exact (follows_typeDeclaration he hb hc hd ha).mono fun e he => by rwa [he]
  · split
    · exact .nothing
    · exact follows_incomplete ha _

theorem keeps_outerType (hb : KeepsBody r) : Keeps r outerType := by
  rw [outerType_eq]
  exact (keeps_declarationHead he).read (fun _ _ _ => carries_of_wraps .outerTypeRest)
    fun _ _ _ _ ha => follows_outerTypeRest he hb ha

theorem follows_namespaceRest {inner inner' : Parser}
    (hi : r.Follows n n' (At continuesBraces) inner inner')
    (hd : Declares (Within (n - 1)) inner NodeKind.isOuter)
    (hd' : Declares (Within (n' - 1)) inner' NodeKind.isOuter) :
    r.Follows n n' ok (namespaceRest inner) (namespaceRest inner') := by
  have hparts : r.Follows n n' (fun _ => True) (Parser.many continuesBraces _)
      (Parser.many continuesBraces _) :=
    follows_parts he hi hd hd' .member .expectedDeclaration rfl rfl
  exact keeps_qualifiedName.append (.ifNext he.sees (.mono (.take (takes_beq rfl)) fun _ h => h.2)
    (((he.expect (by decide)).append hparts).append (he.expect (by decide))))

/-- A namespace from its keyword on, if what is in it follows itself. -/
theorem follows_namespaceDeclaration {inner inner' : Parser}
    (hi : r.Follows (n - 1) (n' - 1) (At continuesBraces) inner inner')
    (hd : Declares (Within (n - 1 - 1)) inner NodeKind.isOuter)
    (hd' : Declares (Within (n' - 1 - 1)) inner' NodeKind.isOuter) :
    r.Follows n n' (At (· == .namespaceKeyword)) (namespaceDeclaration inner)
      (namespaceDeclaration inner') := by
  have hrest : r.Follows (n - 1) (n' - 1) (fun _ => True) (namespaceRest inner)
      (namespaceRest inner') := follows_namespaceRest he hi hd hd'
  have htake := Follows.takeThen (takes_beq (k := .namespaceKeyword) rfl) hrest fun _ _ => trivial
  rw [namespaceDeclaration_eq, namespaceDeclaration_eq]
  exact (Follows.expectThen he.sees htake).node (by decide)

/-- The namespaces that nest are no more than the tokens left in either run. -/
theorem follows_namespaceMember (hb : KeepsBody r) {unread unread' : List Token}
    (hn : n ≤ unread.length + 1) (hn' : n' ≤ unread'.length + 1) :
    r.Follows n n' (At (· != .endOfFile)) (namespaceMember unread) (namespaceMember unread') := by
  have hrest {c : Cursor} (hc : At (· != .endOfFile) c) : 0 < c.rest.length := by
    obtain ⟨rest, hr⟩ := exists_rest (bne_iff_ne.1 hc)
    rw [hr]
    exact Nat.succ_pos _
  induction unread generalizing n n' unread' with
  | nil =>
    refine fun c hc => ⟨id, fun d _ hlt _ => ?_⟩
    have := hrest hc
    rw [List.length_nil] at hn
    omega
  | cons x unread ih =>
    rw [List.length_cons] at hn
    have htail : n' - 1 ≤ unread'.tail.length + 1 := by
      rw [List.length_tail]
      omega
    have hinner : r.Follows (n - 1) (n' - 1) (At continuesBraces) (namespaceMember unread)
        (namespaceMember unread'.tail) :=
      (ih (by omega) htail).mono fun c hc => (Bool.and_eq_true_iff.1 hc).2
    have hturn : r.Follows n n' (At (· != .endOfFile)) (namespaceMember (x :: unread))
        (namespaceMember (x :: unread'.tail)) :=
      .ifNext he.sees ((follows_namespaceDeclaration he hinner
        (declares_namespaceMember_of_le (by omega))
        (declares_namespaceMember_of_le (by omega))).mono fun _ h => h.2) (keeps_outerType he hb)
    cases unread' with
    | nil =>
      -- a token would be left in the second run
      refine fun c hc => ⟨(hturn c hc).1, fun d hcd _ hlt => ?_⟩
      have hd : At (· != .endOfFile) d := by
        unfold At at *
        rwa [← he.kind_near (.inl hcd)]
      have := hrest hd
      rw [List.length_nil] at hn'
      omega
    | cons y unread' => exact hturn

/-! ## Files -/

theorem follows_declarations (hb : KeepsBody r) :
    r.Follows n n' ok declarations declarations := by
  refine .lookWithin fun c d m m' _ _ _ _ hm hm' => ?_
  exact follows_parts he (follows_namespaceMember he hb hm hm')
    (declares_namespaceMember_of_le (Nat.sub_le_iff_le_add.2 hm))
    (declares_namespaceMember_of_le (Nat.sub_le_iff_le_add.2 hm')) .item
    .expectedDeclaration rfl rfl

end Even

end Caret.Grammar
