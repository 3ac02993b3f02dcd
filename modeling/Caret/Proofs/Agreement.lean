import Caret.Proofs.Correspondence
import Caret.Proofs.DeclarationLockstep
import Mathlib.Data.List.TakeWhile
/-!
# Trees that are alike admit the same keywords

In frames that are quiet no keyword may stand (`Quiet.admits_eq_false`). All other frames of a token
that two trees share correspond, so that the same keywords may stand behind the token in both
(`Alike.admits`).
-/

namespace Caret

open Pattern Frames

/-! ## Quiet frames -/

namespace NodeKind

/-- An attribute, or a node that may stand in one. -/
def isPhrase (k : NodeKind) : Bool :=
  k.isExpression || k == .argumentList || k == .typeReference || k == .attribute

theorem isPhrase_of_allows {k n : NodeKind} {s : Slot} (hk : k.isPhrase)
    (h : k.pattern.allows s (.node n)) : n.isPhrase := by
  have ho : k.pattern.onlyNodes isPhrase := by cases k <;> first | rfl | cases hk
  exact of_allows_node ho h

/-- A node right in which no statement, parameter or initializer of a constructor begins. -/
def isInert (k : NodeKind) : Bool := k.isPhrase || k == .attributeList

end NodeKind

namespace Frames

variable {fs : List Frame} {k : TokenKind}

theorem headIs_eq_false {p q : NodeKind → Bool} (h : headIs p fs) (hpq : ∀ n, p n → q n = false) :
    headIs q fs = false := by
  cases fs with
  | nil => rfl
  | cons f fs => exact hpq f.kind h

theorem allowsStatement_of_inert (h : headIs NodeKind.isInert fs) :
    allowsStatement k fs = false := by
  have hq (q : NodeKind → Bool) (hq : ∀ n, NodeKind.isInert n → q n = false) : headIs q fs = false :=
    headIs_eq_false h hq
  unfold allowsStatement
  split
  · exact hq _ fun n => by cases n <;> decide
  · rw [hq NodeKind.isStatement fun n => by cases n <;> decide, Bool.false_and]
  · rw [hq _ fun n => by cases n <;> decide, Bool.false_and]
  · exact hq _ fun n => by cases n <;> decide
  · exact hq _ fun n => by cases n <;> decide
  · rfl

theorem initializes_of_inert (h : headIs NodeKind.isInert fs) : initializes k fs = false := by
  unfold initializes
  rw [headIs_eq_false h (q := (· == .constructorInitializer)) fun n => by cases n <;> decide]
  simp

theorem isParameterList_of_inert (h : headIs NodeKind.isInert fs) : isParameterList fs = false := by
  unfold isParameterList
  rw [headIs_eq_false h (q := (· == .parameterList)) fun n => by cases n <;> decide, Bool.false_and]

theorem allowsParameterModifier_of_inert {onlyFirst : Bool} (h : headIs NodeKind.isInert fs)
    (hp : headIs (· == .attributeList) fs → headIs (· == .parameter) fs.tail = false) :
    allowsParameterModifier k fs onlyFirst = false := by
  have hlist := isParameterList_of_inert h
  unfold allowsParameterModifier
  split
  · exact hlist
  · rw [hlist, Bool.and_false]
  · cases ha : headIs (· == .attributeList) fs with
    | false => rfl
    | true => rw [hp ha]; rfl
  · rfl

/-- No expression begins right in a type reference or in a list of attributes. -/
theorem allowsExpression_eq_false
    (h : headIs (fun n => n == .typeReference || n == .attributeList) fs) :
    allowsExpression k fs = false := by
  refine headIs_eq_false h fun n hn => ?_
  simp only [Bool.or_eq_true, beq_iff_eq] at hn
  rcases hn with rfl | rfl <;> cases k <;> rfl

theorem allowsArgumentModifier_eq_false
    (h : inAttribute fs ∨ headIs (fun n => n == .typeReference || n == .attributeList) fs) :
    allowsArgumentModifier k fs = false := by
  rcases h with h | h
  · rw [allowsArgumentModifier, h, Bool.not_true, Bool.and_false]
  · have hhead : headIs (· == .argumentList) fs = false :=
      headIs_eq_false h fun n => by cases n <;> decide
    rw [allowsArgumentModifier, hhead, Bool.and_false, Bool.false_and]

theorem admits_eq_false (h : headIs NodeKind.isInert fs)
    (hp : headIs (· == .attributeList) fs → headIs (· == .parameter) fs.tail = false)
    (he : inAttribute fs ∨ headIs (fun n => n == .typeReference || n == .attributeList) fs)
    (w : Keyword) : admits w k fs = false := by
  have hmodifier {onlyFirst : Bool} : allowsParameterModifier k fs onlyFirst = false :=
    allowsParameterModifier_of_inert h hp
  have hexpression : (allowsExpression k fs && !inAttribute fs) = false := by
    rcases he with he | he
    · rw [he, Bool.not_true, Bool.and_false]
    · rw [allowsExpression_eq_false he, Bool.false_and]
  have hargument : allowsArgumentModifier k fs = false := allowsArgumentModifier_eq_false he
  have hstarts : startsInInstance k fs = false := by
    rw [startsInInstance, hexpression, allowsStatement_of_inert h, Bool.or_false, Bool.and_false]
  have hinitializes : initializes k fs = false := initializes_of_inert h
  cases w <;> simp [admits, hmodifier, hargument, hstarts, hinitializes]

theorem inAttribute_of_mem {f : Frame} (hf : f ∈ fs) (hk : f.kind = .attribute) :
    inAttribute fs := by
  rw [inAttribute, Bool.not_eq_true', ← Bool.not_eq_true, List.isEmpty_iff, above,
    List.dropWhile_eq_nil_iff]
  intro hall
  simpa [hk] using hall f hf

/-- Nothing but phrases stands in an attribute. -/
theorem headIs_isPhrase {f : Frame} (hn : fs.IsChain fun g f => f.Within g) (hf : f ∈ fs)
    (hk : f.kind.isPhrase) : headIs NodeKind.isPhrase fs := by
  induction fs with
  | nil => cases hf
  | cons g gs ih =>
    rcases List.mem_cons.1 hf with rfl | hf
    · exact hk
    · have hgs : headIs NodeKind.isPhrase gs := ih hn.tail hf
      cases gs with
      | nil => cases hf
      | cons g' gs => exact NodeKind.isPhrase_of_allows hgs (List.isChain_cons_cons.1 hn).1

end Frames

theorem Quiet.admits_eq_false {fs : List Frame} (h : Quiet fs)
    (hn : fs.reverse.IsChain fun g f => f.Within g) (w : Keyword) (k : TokenKind) :
    Frames.admits w k fs.reverse = false := by
  cases h with
  | @inAttribute _ f hf hk =>
    have hf : f ∈ fs.reverse := List.mem_reverse.2 hf
    have hphrase := headIs_isPhrase hn hf (by rw [hk]; rfl)
    refine Frames.admits_eq_false ?_ (fun hlist => ?_) (.inl (inAttribute_of_mem hf hk)) w
    · cases hr : fs.reverse with
      | nil => rw [hr] at hphrase; cases hphrase
      | cons g gs =>
        rw [hr] at hphrase
        show (g.kind.isPhrase || _) = true
        rw [show g.kind.isPhrase = true from hphrase, Bool.true_or]
    · rw [headIs_eq_false hphrase fun n => by cases n <;> decide] at hlist
      cases hlist
  | @inType fs f hk =>
    rw [List.reverse_append]
    refine Frames.admits_eq_false ?_ ?_ (.inr ?_) w <;>
      simp [headIs, hk, NodeKind.isInert, NodeKind.isPhrase]
  | @inAttributes fs g f hg hk =>
    rw [List.reverse_append]
    refine Frames.admits_eq_false ?_ ?_ (.inr ?_) w <;>
      simp [headIs, hk, hg, NodeKind.isInert]

/-! ## The frames of a token in a well-formed tree -/

namespace NodeKind

theorem eq_of_allows_attribute (n : NodeKind) {k : Kind} (hk : k ∈ Kind.ofTrees)
    (h : n.pattern.allows .attribute k) : k = .node .attributeList := by
  have hfills : n.pattern.fills .attribute (· == .node .attributeList) := by cases n <;> rfl
  have hk := of_allows_fills hfills hk h
  exact eq_of_beq hk

theorem isModifier_of_allows {n : NodeKind} {k : Kind} (hn : n ≠ .parameter) (hk : k ∈ Kind.ofTrees)
    (h : n.pattern.allows .modifier k) : k.isToken TokenKind.isModifier := by
  have hfills : n.pattern.fills .modifier (Kind.isToken TokenKind.isModifier) := by
    cases n <;> first | rfl | exact absurd rfl hn
  exact of_allows_fills hfills hk h

end NodeKind

namespace Tree

variable {x : Token} {t : Tree} {fs : List Frame} {f : Frame}

theorem Holds.kind_eq (h : t.Holds x (f :: fs)) : t.kind = .node f.kind := by
  cases h
  rfl

theorem Holds.nested (h : t.Holds x fs) (ht : t.WellFormed) :
    fs.IsChain fun f g => f.Within g := by
  induction h with
  | leaf => exact .nil
  | @node s span fs f h ih =>
    cases ht with
    | node covers inside =>
      have hchild : f.child ∈ f.children := by simp [Frame.children]
      cases fs with
      | nil => exact .singleton f
      | cons g gs =>
        refine (ih (inside _ hchild)).cons_cons ?_
        have hallows := covers.allows _ hchild
        rwa [h.kind_eq] at hallows

/-- A token in the head of a declaration is in attributes, for it is no modifier itself. -/
theorem Holds.quiet (h : t.Holds x fs) (ht : t.WellFormed) (hx : x.kind.isAnchor)
    (hf : f ∈ fs) (hk : f.kind ≠ .parameter) (hs : Pattern.inHead f.child.slot) : Quiet fs := by
  induction h with
  | leaf => cases hf
  | @node s span fs g h ih =>
    cases ht with
    | node covers inside =>
      have hchild : g.child ∈ g.children := by simp [Frame.children]
      rcases List.mem_cons.1 hf with rfl | hf
      · have hallows := covers.allows _ hchild
        simp only [inHead, Bool.or_eq_true, beq_iff_eq] at hs
        rcases hs with hs | hs
        · refine .of_attributes h (inside _ hchild) ?_ hk
          rw [hs] at hallows
          exact f.kind.eq_of_allows_attribute f.child.kind_mem hallows
        · rw [hs] at hallows
          have hm := NodeKind.isModifier_of_allows hk f.child.kind_mem hallows
          generalize f.child = u at h hm
          cases h with
          | leaf =>
            obtain ⟨-, -, -, -, hx⟩ := TokenKind.isAnchor_iff.1 hx
            rw [Tree.kind, Kind.isToken_token, hx] at hm
            cases hm
          | node => cases hm
      · exact (ih (inside _ hchild) hf).append [g]

end Tree

/-! ## Trees that are alike -/

theorem core_concat (fs : List Frame) (f : Frame) :
    core (fs ++ [f]) = fs.filter (!·.kind.isExtension) ++ [f] := by
  induction fs with
  | nil => rfl
  | cons g fs ih =>
    rw [List.cons_append, core_cons (by simp), ih, List.filter_cons]
    cases g.kind.isExtension <;> rfl

theorem mem_core {fs : List Frame} {f : Frame} (hf : f ∈ fs) (hx : f.kind.isExtension = false) :
    f ∈ core fs := by
  rcases List.eq_nil_or_concat' fs with rfl | ⟨gs, g, rfl⟩
  · cases hf
  · rw [core_concat]
    simpa [hx] using hf

theorem mem_of_mem_core {fs : List Frame} {f : Frame} (hf : f ∈ core fs) : f ∈ fs := by
  rcases List.eq_nil_or_concat' fs with rfl | ⟨gs, g, rfl⟩
  · cases hf
  · rw [core_concat, List.mem_append, List.mem_filter] at hf
    exact List.mem_append.2 (hf.imp_left And.left)

/-- The token is in no head of a declaration. -/
def Outside (fs : List Frame) : Prop :=
  ∀ f ∈ fs, f.kind ≠ .parameter → Pattern.inHead f.child.slot = false

theorem outside_iff {fs gs : List Frame} (h : List.Forall₂ Frame.Like fs gs) :
    Outside fs ↔ Outside gs := by
  induction h with
  | nil => rfl
  | cons hf _ ih =>
    unfold Outside at ih ⊢
    rw [List.forall_mem_cons, List.forall_mem_cons, hf.kind, hf.slot, ih]

namespace Tree.Holds

variable {x : Token} {t : Tree} {fs : List Frame}

theorem sound (h : t.Holds x fs) (ht : t.WellFormed) (hs : Outside (core fs)) :
    Sound fs.reverse := by
  refine ⟨List.isChain_reverse.2 (h.nested ht), fun f hf hx hk => ?_⟩
  have hf : f ∈ fs := List.mem_reverse.1 hf
  exact Frame.told_of_covers (h.wellFormed ht f hf).1 (hs f (mem_core hf hx) hk)

theorem quiet_of_not_outside (h : t.Holds x fs) (ht : t.WellFormed) (hx : x.kind.isAnchor)
    (hs : ¬Outside (core fs)) : Quiet fs := by
  unfold Outside at hs
  simp only [Classical.not_forall, Bool.not_eq_false] at hs
  obtain ⟨f, hf, hk, hslot⟩ := hs
  exact h.quiet ht hx (mem_of_mem_core hf) hk hslot

end Tree.Holds

theorem Similar.matched {fs gs : List Frame} (h : Similar fs gs) (hs : Sound fs.reverse)
    (hs' : Sound gs.reverse) : Matched fs.reverse gs.reverse := by
  rcases List.eq_nil_or_concat' fs with rfl | ⟨as, f, rfl⟩
  · rw [h.nil_iff.1 rfl]
    exact .nil
  · rcases List.eq_nil_or_concat' gs with rfl | ⟨bs, g, rfl⟩
    · exact absurd (h.nil_iff.2 rfl) (by simp)
    · rw [Similar, core_concat, core_concat, ← List.forall₂_reverse_iff, List.reverse_append,
        List.reverse_append, ← List.filter_reverse, ← List.filter_reverse] at h
      rw [List.reverse_append] at hs hs' ⊢
      rw [List.reverse_append]
      obtain ⟨hf, htail⟩ := List.forall₂_cons.1 h
      refine .cons hf ⟨?_, hs, hs'⟩ ⟨htail, hs.tail, hs'.tail⟩
      show List.Forall₂ _ ((f :: as.reverse).filter _) ((g :: bs.reverse).filter _)
      rw [List.filter_cons, List.filter_cons, hf.kind]
      split
      · exact .cons hf htail
      · exact htail

/-- The same keywords may stand behind the token in both trees. -/
theorem Alike.admits {x : Token} {t t' : Tree} (h : Alike x t t') (ht : t.WellFormed)
    (ht' : t'.WellFormed) (hx : x.kind.isAnchor) : ∃ fs gs, t.Holds x fs ∧ t'.Holds x gs ∧
      ∀ w, Frames.admits w x.kind fs.reverse = Frames.admits w x.kind gs.reverse := by
  obtain ⟨fs, gs, hf, hg, hfg⟩ := h.frames
  refine ⟨fs, gs, hf, hg, ?_⟩
  have hquiet (hq : Quiet fs) (hq' : Quiet gs) (w : Keyword) :
      Frames.admits w x.kind fs.reverse = Frames.admits w x.kind gs.reverse := by
    rw [hq.admits_eq_false (List.isChain_reverse.2 (hf.nested ht)),
      hq'.admits_eq_false (List.isChain_reverse.2 (hg.nested ht'))]
  rcases hfg with hs | ⟨hq, hq'⟩
  · by_cases hhead : Outside (core fs)
    · have hhead' : Outside (core gs) := (outside_iff hs).1 hhead
      exact fun w => (hs.matched (hf.sound ht hhead) (hg.sound ht' hhead')).admits w x.kind
    · have hhead' : ¬Outside (core gs) := fun h => hhead ((outside_iff hs).2 h)
      exact hquiet (hf.quiet_of_not_outside ht hx hhead) (hg.quiet_of_not_outside ht' hx hhead')
  · exact hquiet hq hq'

/-- Behind a token that may be looked beyond, no keyword may stand. -/
theorem Frames.admits_of_not_isAnchor {k : TokenKind} (hk : k.isAnchor = false) (w : Keyword)
    (fs : List Frame) : admits w k fs = false := by
  have hstatement : allowsStatement k fs = false := by
    cases k <;> first | rfl | cases hk
  have hexpression : allowsExpression k fs = false := by
    have hnone : NodeTable.expressionParents k = [] := by cases k <;> first | rfl | cases hk
    rw [allowsExpression, hnone]
    cases fs <;> rfl
  have hmodifier (onlyFirst : Bool) : allowsParameterModifier k fs onlyFirst = false := by
    cases k <;> first | rfl | cases hk
  have hargument : allowsArgumentModifier k fs = false := by
    cases k <;> first | rfl | cases hk
  have hinitializes : initializes k fs = false := by
    cases k <;> first | rfl | cases hk
  have hstarts : startsInInstance k fs = false := by
    rw [startsInInstance, hstatement, hexpression, Bool.false_and, Bool.or_false, Bool.and_false]
  cases w <;> simp [admits, hstarts, hmodifier, hargument, hinitializes]

namespace Tree

mutual

/-- Every token of a tree is in some frames. -/
theorem exists_holds {x : Token} : ∀ {t : Tree}, x ∈ t.tokens → ∃ fs, t.Holds x fs
  | leaf s t, h => by
    obtain rfl := List.mem_singleton.1 h
    exact ⟨[], .leaf s⟩
  | node s k span ts, h => by
    have hmem : x ∈ tokensAll ts := h
    obtain ⟨before, u, after, rfl, fs, hu⟩ := exists_holds_child hmem
    exact ⟨_, hu.child s k span before after⟩

theorem exists_holds_child {x : Token} : ∀ {ts : List Tree}, x ∈ tokensAll ts →
    ∃ before u after, ts = before ++ u :: after ∧ ∃ fs, u.Holds x fs
  | t :: ts, h => by
    rcases List.mem_append.1 h with h | h
    · exact ⟨[], t, ts, rfl, exists_holds h⟩
    · obtain ⟨before, u, after, rfl, hu⟩ := exists_holds_child h
      exact ⟨t :: before, u, after, rfl, hu⟩

end

end Tree

namespace SourceFile

/-- Two texts that begin alike admit the same keywords behind the last token that they share. -/
theorem admits_agree {x : Token} {r r' init : List Token} {text text' : List Char}
    (h : (scan text).dropLast = init ++ x :: r) (h' : (scan text').dropLast = init ++ x :: r') :
    ∃ fs gs, (ofText text).root.Holds x fs ∧ (ofText text').root.Holds x gs ∧
      ∀ w, Frames.admits w x.kind fs.reverse = Frames.admits w x.kind gs.reverse := by
  cases hx : x.kind.isAnchor with
  | true => exact (alike_roots hx h h').admits (root_wellFormed text) (root_wellFormed text') hx
  | false =>
    have hmem {text : List Char} {r : List Token} (h : (scan text).dropLast = init ++ x :: r) :
        x ∈ (ofText text).root.tokens := by
      rw [root_tokens, scan_eq_concat, h]
      simp
    obtain ⟨fs, hf⟩ := Tree.exists_holds (hmem h)
    obtain ⟨gs, hg⟩ := Tree.exists_holds (hmem h')
    refine ⟨fs, gs, hf, hg, fun w => ?_⟩
    rw [Frames.admits_of_not_isAnchor hx, Frames.admits_of_not_isAnchor hx]

end SourceFile

end Caret
