import Caret.Proofs.DeclarationPatterns
import Caret.Proofs.SideBySide
/-!
# The grammar side by side

Names, types and expressions read no brace and no modifier, and where one of them stands they read
nothing in both runs. So they follow each other in every comparison. All other parsers do so where
both runs see the same tokens.
-/

namespace Caret.Grammar

open Caret.Parser Pattern
open Comparison hiding take report next

variable {r : Comparison} {c d : Cursor} {n n' : Nat} {ok : Cursor → Prop}

/-- The parser follows itself from any cursors. -/
def Keeps (r : Comparison) (p : Parser) : Prop :=
  ∀ {n n' : Nat} {ok : Cursor → Prop}, r.Follows n n' ok p p

namespace Keeps

variable {p q q' : Parser}

theorem append (h : Keeps r p) (hq : r.Follows n n' (fun _ => True) q q') :
    r.Follows n n' ok (p ++ q) (p ++ q') := Follows.append h hq

theorem into (h : Keeps r p) (slot : Slot) : r.Follows n n' ok (p.into slot) (p.into slot) :=
  Follows.into h slot

theorem read (h : Keeps r p) {next next' : Nat → List Tree → Parser}
    (hcarries : 0 < n → ∀ start ts, r.Carries ts (next start ts))
    (hnext : ∀ start start' ts us, r.Alike ts us →
      r.Follows n n' (fun _ => True) (next start ts) (next' start' us)) :
    r.Follows n n' ok (p.read next) (p.read next') := Follows.read h hcarries hnext

end Keeps

theorem takesHere (h : c.kind.isPlain) : r.Takes (· = c) := takes_plain fun e he => by rwa [he]

theorem takesKind {k : TokenKind} (hk : k.isPlain) (h : c.kind = k) : r.Takes (· = c) :=
  takesHere (by rwa [h])

/-! ## Two tokens that are looked at -/

section Pairs

variable {k l : TokenKind}

/-- The next tokens are of these kinds. -/
def startsWith (k l : TokenKind) (c : Cursor) : Bool := c.peek 0 == k && c.peek 1 == l

theorem kinds_of_startsWith (h : startsWith k l c) : c.kind = k ∧ c.peek 1 = l := by
  rwa [startsWith, peek_zero, Bool.and_eq_true, beq_iff_eq, beq_iff_eq] at h

theorem startsWith_near (hk : k.isPlain) (hl : l.isPlain) (h : r.Near c d) :
    startsWith k l c = startsWith k l d := by
  have hfirst : (c.kind == k) = (d.kind == k) := sees_beq hk c d h
  unfold startsWith
  rw [peek_zero, peek_zero, ← hfirst]
  by_cases hc : c.kind = k
  · rw [h.peek_one (by rwa [hc]) (sees_beq hl)]
  · rw [beq_eq_false_iff_ne.2 hc, Bool.false_and, Bool.false_and]

/-- Both tokens are read, and what stands behind them. -/
theorem follows_takeTwo (hk : k.isPlain) (hl : l.isPlain) {p q : Parser}
    (h : r.Follows (n - 1 - 1) (n' - 1 - 1) (fun _ => True) p q) :
    r.Follows n n' (fun c => startsWith k l c) (take ++ (take ++ p)) (take ++ (take ++ q)) := by
  have hsecond := Follows.takeThen (takes_beq hl) h fun _ _ => trivial
  refine .takeThen (takes_plain fun c hc => ?_) hsecond fun c hc => ?_
  · rwa [(kinds_of_startsWith hc).1]
  · rw [At, kind_take, (kinds_of_startsWith hc).2, beq_self_eq_true]

end Pairs

/-! ## Names -/

theorem dottedAtMost_stop (h : startsWith .dot .identifier c = false) (unread : List Token) :
    dottedAtMost unread c = ([], c) := by
  cases unread with
  | nil => rfl
  | cons x unread =>
    rw [dottedAtMost, Parser.look, show dotNameAt c 0 = false from h]
    rfl

theorem dottedAtMost_go (h : startsWith .dot .identifier c) (x : Token) (unread : List Token) :
    dottedAtMost (x :: unread) c = (take ++ (take ++ dottedAtMost unread)) c := by
  rw [dottedAtMost, Parser.look, show dotNameAt c 0 = true from h, if_pos rfl, append_assoc]

theorem follows_dottedAtMost {unread unread' : List Token} (hn : n ≤ unread.length + 1)
    (hn' : n' ≤ unread'.length + 1) :
    r.Follows n n' ok (dottedAtMost unread) (dottedAtMost unread') := by
  have hsame {c d : Cursor} (hcd : r.beside c d) :
      startsWith .dot .identifier c = startsWith .dot .identifier d :=
    startsWith_near rfl rfl (.inl hcd)
  have hstop {c d : Cursor} (hcd : r.beside c d) (h : startsWith .dot .identifier c = false)
      (unread unread') : r.Ends c d (dottedAtMost unread c) (dottedAtMost unread' d) := by
    rw [dottedAtMost_stop h, dottedAtMost_stop (hsame hcd ▸ h)]
    exact .stay hcd (.refl _)
  have hlength {c : Cursor} (h : startsWith .dot .identifier c) : 0 < c.rest.length := by
    have hend : c.kind ≠ .endOfFile := by
      rw [(kinds_of_startsWith h).1]
      exact TokenKind.noConfusion
    obtain ⟨rest, hr⟩ := exists_rest hend
    rw [hr]
    exact Nat.succ_pos _
  induction unread generalizing n n' unread' ok with
  | nil =>
    refine fun c _ => ⟨id, fun d hcd hc _ => hstop hcd ?_ [] unread'⟩
    rw [← Bool.not_eq_true]
    intro h
    have := hlength h
    rw [List.length_nil] at hn
    omega
  | cons x unread ih =>
    rw [List.length_cons] at hn
    have hmore : r.Follows (n - 1 - 1) (n' - 1 - 1) (fun _ => True) (dottedAtMost unread)
        (dottedAtMost unread'.tail) := ih (by omega) (by rw [List.length_tail]; omega)
    have hturn := follows_takeTwo (k := .dot) (l := .identifier) rfl rfl hmore
    intro c _
    cases h : startsWith .dot .identifier c with
    | false =>
      refine ⟨?_, fun d hcd _ _ => hstop hcd h _ _⟩
      rw [dottedAtMost_stop h]
      exact id
    | true =>
      rw [dottedAtMost_go h]
      refine ⟨(hturn c h).1, fun d hcd hc hd => ?_⟩
      have h' : startsWith .dot .identifier d := hsame hcd ▸ h
      have := hlength h'
      obtain ⟨y, unread', rfl⟩ := List.exists_cons_of_length_pos (by omega : 0 < unread'.length)
      rw [dottedAtMost_go h']
      exact (hturn c h).2 d hcd hc hd

theorem keeps_dotted : Keeps r dotted :=
  Follows.lookWithin fun _ _ _ _ _ _ _ _ hc hd => follows_dottedAtMost hc hd

theorem keeps_qualifiedName : Keeps r qualifiedName :=
  ((Follows.expect rfl).append keeps_dotted).into _

theorem keeps_arrayBrackets : Keeps r arrayBrackets := by
  intro n n' ok
  have htwo : r.Follows n n' (fun c => startsWith .openBracket .closeBracket c)
      (take ++ (take ++ nothing)) (take ++ (take ++ nothing)) :=
    follows_takeTwo rfl rfl .nothing
  rw [Follows.append_nothing] at htwo
  refine .look fun c d _ hcd => ?_
  have hsame := startsWith_near (k := .openBracket) (l := .closeBracket) rfl rfl hcd
  unfold startsWith at hsame
  rw [← hsame]
  split
  · rename_i h
    exact htwo.mono fun e he => by rwa [he]
  · exact .nothing

theorem plain_predefinedType (k : TokenKind) : k.isPredefinedType → k.isPlain := by
  cases k <;> decide

theorem plain_startsType (k : TokenKind) : startsType k → k.isPlain := by
  cases k <;> decide

theorem keeps_typeReference : Keeps r typeReference := by
  refine Follows.look fun c d _ hcd => ?_
  rw [← sees_plain plain_predefinedType c d hcd]
  have hname : (c.kind == .identifier) = (d.kind == .identifier) := sees_beq rfl c d hcd
  rw [← hname]
  split
  · rename_i h
    exact (((Follows.take (takesHere (plain_predefinedType _ h))).into _).append
      keeps_arrayBrackets).node (by decide)
  · split
    · rename_i h
      have htake : r.Takes (· = c) := takesKind rfl (eq_of_beq h)
      exact ((((Follows.take htake).append keeps_dotted).into _).append
        keeps_arrayBrackets).node (by decide)
    · exact .report _ _

/-! ## Expressions -/

section Expressions

variable {e operand : Parser}

theorem plain_argumentModifier (k : TokenKind) : isArgumentModifier k → k.isPlain := by
  cases k <;> decide

theorem keeps_argumentList (he : Keeps r e) : Keeps r (argumentList e) := by
  have hmodifier : Keeps r (ifNext isArgumentModifier take nothing) :=
    Follows.optional (sees_plain plain_argumentModifier)
      (.take (takes_plain fun c => plain_argumentModifier c.kind))
  have hsees : r.Sees fun k => k != .closeParen && k != .endOfFile :=
    sees_of fun k hk => by cases k <;> first | rfl | cases hk
  have hitems : Keeps r (separated (fun k => k != .closeParen && k != .endOfFile)
      (ifNext isArgumentModifier take nothing ++ e.into .item)) :=
    Follows.separated hsees (hmodifier.append (he.into _))
  intro n n' ok
  exact (((Follows.expect rfl).append hitems).append (.expect rfl)).node (by decide)

theorem keeps_optionalArguments (he : Keeps r e) : Keeps r (optionalArguments e) :=
  Follows.optional (sees_beq rfl) ((keeps_argumentList he).into _)

theorem keeps_objectCreation (he : Keeps r e) : Keeps r (objectCreation e) :=
  (((Follows.expect (k := .newKeyword) rfl).append (.orReport (sees_plain plain_startsType)
    (keeps_typeReference.into _) _)).append (keeps_optionalArguments he)).node (by decide)

theorem keeps_parenthesized (he : Keeps r e) (h : c.kind = .openParen) :
    r.Follows n n' (· = c) (parenthesized e) (parenthesized e) :=
  (((Follows.take (takesKind rfl h)).append (he.into _)).append (.expect rfl)).node (by decide)

theorem keeps_primary (he : Keeps r e) : Keeps r (primary e) := by
  refine Follows.look fun c d _ hcd => ?_
  rcases hcd.next with hw | ⟨hm, hd⟩
  · rw [← kind_of_word hw]
    cases hk : c.kind with
    | openParen => exact keeps_parenthesized he hk
    | newKeyword => exact keeps_objectCreation he
    | _ => first
      | exact .report _ _
      | exact (Follows.take (takesKind (by rfl) hk)).node (by decide)
  · rw [hd]
    cases hk : c.kind with
    | _ => first
      | exact .report _ _
      | rw [hk] at hm; cases hm

/-! ## Operators -/

theorem suffix_kind {ext : Extension} (h : suffix e c = some ext) : ext.kind ≠ .block := by
  unfold suffix at h
  split at h <;> cases h <;> nofun

theorem keeps_suffix (he : Keeps r e) (hr : ReadsExpression e) : r.Rules n n' (suffix e) := by
  refine ⟨fun c d hcd => ?_, fun c ext h => ?_, fun c ext h => ?_, fun c ext => suffix_kind⟩
  · unfold suffix
    rcases hcd.next with hw | ⟨hm, hd⟩
    · rw [kind_of_word hw]
    · rw [hd]
      generalize c.kind = k at hm ⊢
      cases k <;> first | rfl | cases hm
  · unfold suffix at h
    split at h <;> rename_i hk <;> simp only [Option.some.injEq, reduceCtorEq] at h
    · subst h
      exact ((Follows.take (takesKind rfl hk)).into _).append (.orReport (sees_beq rfl)
        (.into (.node (.take (takes_beq rfl)) (by decide)) _) _)
    · subst h
      exact (keeps_argumentList he).into _
  · exact (extends_suffix hr c ext [.node .loose .identifierName ⟨0, 0⟩ []] h
      (covers_node.2 ⟨_, _, _, rfl, rfl⟩)).2.2.1

theorem keeps_suffixed (he : Keeps r e) (hr : ReadsExpression e) : Keeps r (suffixed e) := by
  refine (keeps_primary he).read
    (fun _ _ _ => .look fun _ => .ifEmpty _ (.extend (fun _ _ => suffix_kind) _ _))
    fun _ _ ts us hts => .lookWithin fun c d _ _ _ _ _ _ hc hd => ?_
  rw [← hts.isEmpty]
  split
  · exact .nothing
  · exact .extend (keeps_suffix he hr) hts _ _ hc hd

theorem keeps_operation (precedence : Nat) (ho : Keeps r operand) (hr : ReadsExpression operand) :
    r.Rules n n' (operation precedence operand) := by
  have hplain (k : TokenKind) : (k.precedence? == some precedence) = true → k.isPlain := by
    cases k <;> first
      | exact fun _ => rfl
      | exact fun h => absurd h Bool.false_ne_true
  refine ⟨fun c d hcd => ?_, fun c ext h => ?_, fun c ext h => ?_, fun c ext h => ?_⟩
  · have hsame := sees_plain hplain c d hcd
    unfold operation
    rw [hsame]
  · unfold operation at h
    split at h
    · rename_i hk
      obtain rfl := Option.some.inj h
      exact ((Follows.take (takesHere (hplain _ hk))).into _).append (ho.into _)
    · cases h
  · exact (extends_operation precedence hr c ext [] h .none).2.2.1
  · unfold operation at h
    split at h <;> cases h
    nofun

theorem keeps_level (precedence : Nat) (ho : Keeps r operand) (hr : ReadsExpression operand) :
    Keeps r (level precedence operand) := Follows.extended ho (keeps_operation precedence ho hr)

theorem keeps_binary (ho : Keeps r operand) (hr : ReadsExpression operand) :
    Keeps r (binary operand) := by
  intro n n' ok
  have hstep {p : Parser} (precedence : Nat) (h : Keeps r p ∧ ReadsExpression p) :
      Keeps r (level precedence p) ∧ ReadsExpression (level precedence p) :=
    ⟨keeps_level precedence h.1 h.2, yields_level precedence h.2⟩
  exact (hstep 1 (hstep 2 (hstep 3 (hstep 4 (hstep 5 (hstep 6 ⟨ho, hr⟩)))))).1

theorem plain_assignment (k : TokenKind) : k.isAssignment → k.isPlain := by
  cases k <;> decide

theorem plain_sign (k : TokenKind) : k.isSign → k.isPlain := by
  cases k <;> decide

theorem keeps_assignment (ho : Keeps r operand) (hr : ReadsExpression operand) (he : Keeps r e) :
    Keeps r (assignment operand e) := by
  refine (keeps_binary ho hr).read (fun _ _ ts => .ifNext (.enlarge _ ?_ _) (.emit ts))
    fun _ _ ts us hts =>
      .ifNext (sees_plain plain_assignment) (.enlarge _ ?_ ?_ hts _ _) (.emit hts)
  · exact nofun
  · exact nofun
  exact ((Follows.take (takes_plain fun c hc => plain_assignment _ hc.2)).into _).append
    (he.into _)

/-- Expressions and operands of any depth follow themselves. -/
theorem keeps_nesting (depth : Nat) :
    Keeps r (Nesting.of depth).expression ∧ Keeps r (Nesting.of depth).operand := by
  have hoperand {p q : Parser} (hp : ∀ {n n'}, r.Follows n n' (At TokenKind.isSign) p p)
      (hq : Keeps r q) : Keeps r (ifNext TokenKind.isSign p q) :=
    Follows.ifNext (sees_plain plain_sign) (hp.mono fun _ h => h.2) hq
  have hdeepest : Keeps r (report .nestingTooDeep) := Follows.report _ _
  induction depth with
  | zero =>
    rw [Nesting.of_zero_operand]
    exact ⟨hdeepest, hoperand (.report _ _)
      (keeps_suffixed hdeepest ((Yields.report _).weaken fun _ h => h.right))⟩
  | succ depth ih =>
    have hexpression : Keeps r (Nesting.of (depth + 1)).expression := by
      rw [Nesting.of_succ_expression]
      exact keeps_assignment ih.2 (yields_nesting depth).2 ih.1
    rw [Nesting.of_succ_operand]
    refine ⟨hexpression, hoperand ?_ (keeps_suffixed hexpression (yields_nesting _).1)⟩
    exact (((Follows.take (takes_plain fun c => plain_sign c.kind)).into _).append
      (ih.2.into _)).node (by decide)

theorem keeps_expression (depth : Nat) : Keeps r (expression depth) := (keeps_nesting depth).1

theorem keeps_arrowClause (he : Keeps r e) : Keeps r (arrowClause e) :=
  ((Follows.expect rfl).append (he.into _)).node (by decide)

/-! ## Statements without braces -/

theorem keeps_declarators (he : Keeps r e) : Keeps r (declarators e) := by
  have hinitializer : Keeps r (ifNext (· == .equals) (take ++ e.into .initializer) nothing) :=
    Follows.optional (sees_beq rfl) ((Follows.take (takes_beq rfl)).append (he.into _))
  have hdeclarator : Keeps r (declarator e) :=
    (((Follows.expect (k := .identifier) rfl).into _).append hinitializer).node (by decide)
  intro n n' ok
  exact .separated (sees_of fun _ _ => rfl) (hdeclarator.into _)

theorem keeps_condition (he : Keeps r e) : Keeps r (condition e) :=
  ((Follows.expect (k := .openParen) rfl).append (.ifNext (sees_beq rfl) .nothing he)).append
    (.expect rfl)

theorem keeps_localDeclaration (he : Keeps r e) : Keeps r (localDeclaration e) :=
  (((keeps_typeReference.into _).append (keeps_declarators he)).append (.expect rfl)).node (by decide)

theorem keeps_returnStatement (he : Keeps r e) : Keeps r (returnStatement e) :=
  (((Follows.expect (k := .returnKeyword) rfl).append
    (.ifNext (sees_beq rfl) .nothing (he.into _))).append
    (.expect rfl)).node (by decide)

theorem keeps_expressionStatement (he : Keeps r e) : Keeps r (expressionStatement e) := by
  refine (he.into _).read (fun _ start ts => .ifEmpty _ ?_) fun _ _ ts us hts => ?_
  · exact ((Carries.emit ts).append _).close (by decide) start
  rw [← hts.isEmpty]
  split
  · exact .nothing
  · exact ((Follows.emit hts).append (.expect rfl)).close (by decide) _ _

end Expressions

/-! ## Where no expression starts -/

/-- Before a modifier the parser yields nothing. -/
def Pauses (p : Parser) : Prop := ∀ c, c.kind.isModifier → (p c).1 = []

section Pauses

variable {p e operand : Parser}

theorem Pauses.report (problem : Problem) : Pauses (report problem) := fun _ _ => rfl

theorem pauses_suffixed : Pauses (suffixed e) := by
  intro c hc
  have hnone : (primary e c).1 = [] := by
    unfold primary Parser.look
    dsimp only
    generalize c.kind = k at hc ⊢
    cases k <;> first | rfl | cases hc
  unfold suffixed Parser.read Parser.look
  simp only [hnone, List.isEmpty_nil, if_true]
  rfl

theorem pauses_level (precedence : Nat) (hr : ReadsExpression operand) (h : Pauses operand) :
    Pauses (level precedence operand) := by
  intro c hc
  have hkind := kind_of_nil hr (h c hc)
  have hrule : operation precedence operand (operand c).2 = none := by
    unfold operation
    rw [hkind]
    generalize c.kind = k at hc ⊢
    cases k <;> first | rfl | cases hc
  unfold level Parser.extended Parser.read Parser.look
  simp only [h c hc, Follows.extend_stop hrule]

theorem pauses_binary (hr : ReadsExpression operand) (h : Pauses operand) :
    Pauses (binary operand) := by
  have hstep {p : Parser} (precedence : Nat) (h : ReadsExpression p ∧ Pauses p) :
      ReadsExpression (level precedence p) ∧ Pauses (level precedence p) :=
    ⟨yields_level precedence h.1, pauses_level precedence h.1 h.2⟩
  exact (hstep 1 (hstep 2 (hstep 3 (hstep 4 (hstep 5 (hstep 6 ⟨hr, h⟩)))))).2

theorem pauses_assignment (hr : ReadsExpression operand) (h : Pauses operand) :
    Pauses (assignment operand e) := by
  intro c hc
  have hnone := pauses_binary hr h c hc
  have hkind := kind_of_nil (yields_binary hr) hnone
  have htest : (binary operand c).2.kind.isAssignment = false := by
    rw [hkind]
    generalize c.kind = k at hc ⊢
    cases k <;> first | rfl | cases hc
  unfold assignment Parser.read
  simp only [ifNext_neg htest, hnone]
  rfl

theorem pauses_operand : Pauses (ifNext TokenKind.isSign p (suffixed e)) := by
  intro c hc
  have htest : c.kind.isSign = false := by
    generalize c.kind = k at hc ⊢
    cases k <;> first | rfl | cases hc
  rw [ifNext_neg htest]
  exact pauses_suffixed c hc

theorem pauses_expression (depth : Nat) : Pauses (expression depth) := by
  have hoperand (depth : Nat) : Pauses (Nesting.of depth).operand := by
    cases depth with
    | zero =>
      rw [Nesting.of_zero_operand]
      exact pauses_operand
    | succ depth =>
      rw [Nesting.of_succ_operand]
      exact pauses_operand
  cases depth with
  | zero => exact .report _
  | succ depth =>
    rw [expression, Nesting.of_succ_expression]
    exact pauses_assignment (yields_nesting depth).2 (hoperand depth)


theorem pauses_expressionStatement (h : Pauses e) : Pauses (expressionStatement e) := by
  intro c hc
  have hnone : (e.into .expression c).1 = [] := by
    simp only [Parser.into, h c hc]
    rfl
  unfold expressionStatement Parser.read
  simp only [hnone, List.isEmpty_nil, if_true]
  rfl

end Pauses

/-! ## Statements -/

section Statements

variable {e s : Parser}

theorem keeps_ifStatement (he : Keeps r e) (hs : Keeps r s) : Keeps r (ifStatement e s) := by
  have helse : Keeps r (ifNext (· == .elseKeyword) (node .elseClause (take ++ s)) nothing) :=
    Follows.optional (sees_beq rfl)
      (((Follows.take (takes_beq rfl)).append hs).node (by decide))
  intro n n' ok
  exact ((((Follows.expect rfl).append (keeps_condition he)).append hs).append helse).node
    (by decide)

theorem keeps_whileStatement (he : Keeps r e) (hs : Keeps r s) : Keeps r (whileStatement e s) :=
  (((Follows.expect (k := .whileKeyword) rfl).append (keeps_condition he)).append hs).node (by decide)

/-- The declaration of a local is told by two or three tokens. -/
theorem startsLocal_near (h : r.Near c d) : startsLocal c = startsLocal d := by
  have hname : r.Sees (· == .identifier) := sees_beq rfl
  have htype : r.Sees fun k => k.isPredefinedType && k != .voidKeyword := sees_plain fun k hk =>
    plain_predefinedType k (Bool.and_eq_true_iff.1 hk).1
  have hfirst : (c.kind == .identifier) = (d.kind == .identifier) := hname c d h
  have hfirst' : (c.kind.isPredefinedType && c.kind != .voidKeyword) =
      (d.kind.isPredefinedType && d.kind != .voidKeyword) := htype c d h
  unfold startsLocal
  rw [← hfirst, ← hfirst']
  cases hp : c.kind.isPlain with
  | false =>
    have hno {test : TokenKind → Bool} (ht : ∀ k, test k → k.isPlain) : test c.kind = false := by
      rw [← Bool.not_eq_true]
      intro hk
      rw [ht _ hk] at hp
      cases hp
    rw [hno plain_predefinedType, hno (plain_beq (k := .identifier) rfl)]
    rfl
  | true =>
    have hbrackets : (c.peek 1 == .openBracket && c.peek 2 == .closeBracket) =
        (d.peek 1 == .openBracket && d.peek 2 == .closeBracket) := by
      have hpair := startsWith_near (k := .openBracket) (l := .closeBracket) rfl rfl (h.take hp)
      simpa only [startsWith, peek_take] using hpair
    rw [h.peek_one hp hname, hbrackets]

theorem startsLocal_of_isModifier (hm : c.kind.isModifier) : startsLocal c = false := by
  unfold startsLocal
  generalize c.kind = k at hm ⊢
  cases k <;> first | rfl | cases hm

/-- Before a modifier the first run reads nothing, as the second one does. -/
theorem follows_expressionStatement_nothing {depth : Nat} (hm : c.kind.isModifier) :
    r.Follows n n' (· = c) (expressionStatement (expression depth)) nothing := by
  rintro e rfl
  have hnone := pauses_expressionStatement (pauses_expression depth) e hm
  have hreads := (yields_expressionStatement (P := Any) (yields_expression depth) e trivial).1
  have hkeeps : r.Follows n n' Any (expressionStatement (expression depth))
    (expressionStatement (expression depth)) := keeps_expressionStatement (keeps_expression depth)
  refine ⟨(hkeeps e trivial).1, fun d' hcd' _ _ => .inr ⟨?_, ?_, ?_, Nat.le_refl _⟩⟩
  · exact beside_of_still (hnone ▸ hreads) hcd'
  · rw [hnone]
    exact .refl _
  · have := hreads.length_rest
    omega

theorem keeps_statement_succ {depth : Nat} (hs : Keeps r (statement depth))
    (hb : ∀ {n n'}, r.Follows n n' (At (· == .openBrace)) (block (statement depth))
      (block (statement depth))) : Keeps r (statement (depth + 1)) := by
  intro n n' ok
  have he : Keeps r (expression depth) := keeps_expression depth
  refine .look fun c d _ hcd => ?_
  rcases hcd.next with hw | ⟨hm, hd⟩
  · have hother : r.Follows n n' (· = c)
        (if startsLocal c then localDeclaration (expression depth)
          else expressionStatement (expression depth))
        (if startsLocal c then localDeclaration (expression depth)
          else expressionStatement (expression depth)) := by
      split
      · exact keeps_localDeclaration he
      · exact keeps_expressionStatement he
    rw [← kind_of_word hw, ← startsLocal_near hcd]
    cases hk : c.kind with
    | openBrace => exact hb.mono fun e he => by rw [he, At, hk]; rfl
    | returnKeyword => exact keeps_returnStatement he
    | ifKeyword => exact keeps_ifStatement he hs
    | whileKeyword => exact keeps_whileStatement he hs
    | semicolon => exact (Follows.take (takesKind rfl hk)).node (by decide)
    | closeBrace | endOfFile => exact .nothing
    | _ => exact hother
  · -- the second run is before a closing brace
    have hidle : r.Follows n n' (· = c) (if startsLocal c then localDeclaration (expression depth)
        else expressionStatement (expression depth)) nothing := by
      rw [startsLocal_of_isModifier hm, if_neg Bool.false_ne_true]
      exact follows_expressionStatement_nothing hm
    rw [hd]
    generalize c.kind = k at hm ⊢
    cases k <;> first | exact hidle | cases hm

end Statements

end Caret.Grammar
