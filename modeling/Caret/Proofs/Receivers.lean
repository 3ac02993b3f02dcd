import Caret.Proofs.Stability
/-!
# Receivers of extension methods

The rule for receivers (`extension_receiver_parameter`) looks at two places: the token that decides
what may follow has to begin the first parameter of a list, and the method that is judged is the one
around the last token before the caret. In a tree that is well formed a method stands right in a
type and a list of parameters in a method or constructor, so the rule can be told by parents alone
(`Context.extensionReceiver_iff`). The two places belong to one method if the last token may start a
parameter. Otherwise it may start the next member, and that one is judged
(`Context.extensionReceiver_next_member`).
-/

namespace Caret

open Pattern NodeTable

namespace NodeKind

/-- What holds declarations, but is no member of a type itself. -/
def isScope (k : NodeKind) : Bool :=
  k == .compilationUnit || k == .namespaceDeclaration || k.isTypeDeclaration

theorem isScope_of_allows {k n : NodeKind} {s : Slot} (hn : n.isScope)
    (h : k.pattern.allows s (.node n)) : k.isScope := by
  have honly : k.isScope ∨ k.pattern.onlyNodes (!isScope ·) := by cases k <;> decide
  refine honly.resolve_right fun ho => ?_
  simpa [hn] using of_allows_node ho h

end NodeKind

namespace NodeTable

/-! ## What the rule asks for -/

/-- The first parameter of a list begins right behind the token: it is the `(` of the list, or the
`]` of attributes of the parameter. -/
def BeginsFirstParameter (t : NodeTable) (token list : Ref) : Prop :=
  t.node? list = some .parameterList ∧
    (t.token? token = some .openParen ∧ t.parent token = list ∨
      t.token? token = some .closeBracket ∧ t.node? (t.parent token) = some .attributeList ∧
        t.node? (t.parent (t.parent token)) = some .parameter ∧
        t.parent (t.parent (t.parent token)) = list ∧
        (t.list? list).bind List.head? = some (t.parent (t.parent token)))

/-- A static method right in a static class. -/
def IsReceiverMethod (t : NodeTable) (method : Ref) : Prop :=
  t.node? method = some .methodDeclaration ∧ t.isStatic method ∧
    t.node? (t.parent method) = some .classDeclaration ∧ t.isStatic (t.parent method)

instance (t : NodeTable) (method : Ref) : Decidable (t.IsReceiverMethod method) :=
  inferInstanceAs (Decidable (_ ∧ _))

/-- The method that a list of parameters is of, none for that of a constructor. -/
def methodOf (t : NodeTable) (list : Ref) : Ref :=
  if t.node? (t.parent list) = some .methodDeclaration then t.parent list else none

theorem isReceiverMethod_methodOf (t : NodeTable) (list : Ref) :
    t.IsReceiverMethod (t.methodOf list) ↔ t.IsReceiverMethod (t.parent list) := by
  unfold methodOf
  split
  · exact Iff.rfl
  · next hk =>
    constructor
    · intro h
      cases h.1
    · intro h
      exact absurd h.1 hk

/-! ## The parents of nodes -/

variable {root : Tree} {i list : Ref} {n : NodeKind}

/-- An entry has a parent of a kind that may have such a child. -/
theorem allows_of_hasParent (hroot : root.WellFormed) {i j : Nat} (h : (ofTree root).HasParent i j) :
    ∃ k slot kind, (ofTree root).node? (some j) = some k ∧
      (ofTree root).kind? (some i) = some kind ∧ k.pattern.allows slot kind := by
  obtain ⟨s, hs, u, hu, rfl, rfl, slot, k, span, before, after, htree, -⟩ :=
    exists_site_of_hasParent h
  have hw := hroot.of_mem_sites hu
  rw [htree] at hw
  cases hw with
  | node covers _ =>
    exact ⟨k, s.tree.slot, s.tree.kind, by rw [node?_ofTree hu, htree]; rfl, kind?_ofTree hs,
      covers.allows s.tree (by simp)⟩

/-- The parent of a node, if it has one, is of a kind that may have such a child. -/
theorem parent_cases (hroot : root.WellFormed) (h : (ofTree root).node? i = some n) :
    ((ofTree root).parent i = none ∧ root.kind = .node n) ∨
      ∃ k slot, (ofTree root).node? ((ofTree root).parent i) = some k ∧
        k.pattern.allows slot (.node n) := by
  obtain ⟨i, rfl⟩ : ∃ j, i = some j := by
    cases i with
    | none => cases h
    | some j => exact ⟨j, rfl⟩
  obtain ⟨s, hs, rfl, hkind⟩ := exists_site_of_node h
  rcases Tree.exists_childOf hs with rfl | ⟨u, -, -, -, -, -, -, -, hparent, -⟩
  · exact .inl ⟨parent_ofTree hs, hkind⟩
  · rw [← parent_ofTree hs] at hparent
    obtain ⟨k, slot, kind, hk, hkind', hallows⟩ := allows_of_hasParent hroot hparent
    rw [kind?_ofTree hs, hkind] at hkind'
    rw [hparent, hk]
    exact .inr ⟨k, slot, rfl, Option.some.inj hkind' ▸ hallows⟩

/-- A kind that only some kinds may have as a child stands in one of these. -/
theorem isNode_parent {p : NodeKind → Bool} (hroot : root.WellFormed)
    (h : (ofTree root).node? i = some n) (hn : root.kind ≠ .node n)
    (hp : ∀ k, p k ∨ k.pattern.onlyNodes (· != n)) :
    (ofTree root).isNode p ((ofTree root).parent i) := by
  rcases parent_cases hroot h with ⟨-, hk⟩ | ⟨k, slot, hk, hallows⟩
  · exact absurd hk hn
  · rw [isNode, hk]
    exact (hp k).resolve_right fun ho => by simpa using of_allows_node ho hallows

section Declarations

variable (hroot : root.WellFormed) (hunit : root.kind = .node .compilationUnit)

include hroot hunit

theorem isParameterList_of_node (h : (ofTree root).node? list = some .parameterList) :
    (ofTree root).isParameterList list := by
  have hparent : (ofTree root).isNode hasParameters ((ofTree root).parent list) :=
    isNode_parent hroot h (by simp [hunit]) fun k => by cases k <;> decide
  rw [isParameterList, h, hparent]
  rfl

theorem isType_parent_of_method (h : (ofTree root).node? i = some .methodDeclaration) :
    (ofTree root).isNode NodeKind.isTypeDeclaration ((ofTree root).parent i) :=
  isNode_parent hroot h (by simp [hunit]) fun k => by cases k <;> decide

theorem isType_parent_of_constructor (h : (ofTree root).node? i = some .constructorDeclaration) :
    (ofTree root).isNode NodeKind.isTypeDeclaration ((ofTree root).parent i) :=
  isNode_parent hroot h (by simp [hunit]) fun k => by cases k <;> decide

end Declarations

theorem nodeAbove_of_parent {t : NodeTable} {p : NodeKind → Bool} (h : t.isNode p (t.parent i)) :
    t.nodeAbove i p = t.parent i := by
  cases hp : t.parent i with
  | none => rw [hp] at h; cases h
  | some j =>
    rw [hp, ← any_isNode] at h
    rw [nodeAbove, ancestor?, ancestors, walkLimit, walk, hp]
    exact List.find?_cons_of_pos h

theorem node?_nodeAbove {t : NodeTable} {j : Nat}
    (h : t.nodeAbove i (· == n) = some j) : t.node? (some j) = some n := by
  have hj := List.find?_some h
  rw [any_isNode, isNode] at hj
  cases hm : t.node? (some j) with
  | none => rw [hm] at hj; cases hj
  | some m =>
    rw [hm] at hj
    rw [eq_of_beq (show (m == n) = true from hj)]

/-! ## The rule by parents -/

section Rule

variable (hroot : root.WellFormed) (hunit : root.kind = .node .compilationUnit) {c : Context}
  {offset : Nat}

include hroot hunit

theorem allowsFirstModifier_iff {left : Ref} :
    (ofTree root).allowsParameterModifier offset left true ↔
      ∃ list, (ofTree root).BeginsFirstParameter ((ofTree root).beforeTouchedWord left offset)
        list := by
  have hlist {list : Ref} : (ofTree root).isParameterList list ↔
      (ofTree root).node? list = some .parameterList :=
    ⟨fun h => eq_of_beq (Bool.and_eq_true_iff.1 h).1, isParameterList_of_node hroot hunit⟩
  unfold allowsParameterModifier BeginsFirstParameter
  generalize (ofTree root).beforeTouchedWord left offset = token
  dsimp only
  constructor
  · intro h
    split at h
    · next hk => exact ⟨_, hlist.1 h, .inl ⟨hk, rfl⟩⟩
    · cases h
    · next hk =>
      simp only [Bool.and_eq_true, beq_iff_eq, Bool.not_true, Bool.false_or] at h
      obtain ⟨⟨⟨hattributes, hparameter⟩, h⟩, hfirst⟩ := h
      exact ⟨_, hlist.1 h, .inr ⟨hk, hattributes, hparameter, rfl, hfirst⟩⟩
    · cases h
  · rintro ⟨list, h, ⟨hk, rfl⟩ | ⟨hk, hattributes, hparameter, rfl, hfirst⟩⟩
    · rw [hk]
      exact hlist.2 h
    · rw [hk]
      simp [hattributes, hparameter, hfirst, hlist.2 h]

theorem inStaticMethod_iff (hc : c.table = ofTree root) : (c.inMethod && c.inStaticMethod) ↔
    (ofTree root).IsReceiverMethod ((ofTree root).nodeAbove c.left (· == .methodDeclaration)) := by
  simp only [Context.inMethod, Context.inStaticMethod, hc, IsReceiverMethod]
  cases hm : (ofTree root).nodeAbove c.left (· == .methodDeclaration) with
  | none => simp [node?, kind?, get?]
  | some m =>
    have hmethod := node?_nodeAbove hm
    have htype := isType_parent_of_method hroot hunit hmethod
    rw [nodeAbove_of_parent htype]
    cases hp : (ofTree root).parent (some m) with
    | none => rw [hp] at htype; cases htype
    | some j => simp [hmethod, and_comm, and_left_comm]

end Rule

/-! ## The method of a list of parameters -/

section List

variable {s : Site} {ls : List Level} {x : Token} (hroot : root.WellFormed)
  (hunit : root.kind = .node .compilationUnit) (h : Stands root s ls) (hl : Ladder root ls)

include h hl in
/-- Only parameters and attributes stand between the beginning of a first parameter and its list. -/
theorem exists_list_of_begins (hb : (ofTree root).BeginsFirstParameter (some s.index) list) :
    ∃ ms k ks, ls = ms ++ k :: ks ∧ list = top (k :: ks) ∧
      ∀ l ∈ ms ++ [k], l.frame.kind.isFormal := by
  obtain ⟨hlist, ⟨-, rfl⟩ | ⟨-, hattributes, hparameter, rfl, -⟩⟩ := hb
  · rw [parent_of_stands h] at hlist ⊢
    cases ls with
    | nil => cases hlist
    | cons k ks =>
      rw [node?_top hl] at hlist
      refine ⟨[], k, ks, rfl, rfl, fun l hl => ?_⟩
      rw [List.mem_singleton.1 hl, show k.frame.kind = _ from Option.some.inj hlist]
      rfl
  · simp only [parent_of_stands h, parent_top hl, parent_top hl.tail] at hlist hattributes hparameter ⊢
    rw [node?_top hl] at hattributes
    rw [node?_top hl.tail] at hparameter
    rw [node?_top hl.tail.tail] at hlist
    match ls with
    | [] | [_] | [_, _] => cases hlist
    | a :: b :: k :: ks =>
      refine ⟨[a, b], k, ks, rfl, rfl, ?_⟩
      have ha : a.frame.kind = .attributeList := Option.some.inj hattributes
      have hb : b.frame.kind = .parameter := Option.some.inj hparameter
      have hk : k.frame.kind = .parameterList := Option.some.inj hlist
      simp [ha, hb, hk, NodeKind.isFormal, NodeKind.isParameters]

include hroot hl in
/-- No method stands around a declaration that is no member. -/
theorem climbTo_of_scope (hs : (ofTree root).isNode NodeKind.isScope (top ls)) :
    climbTo (· == .methodDeclaration) ls = [] := by
  induction ls with
  | nil => rfl
  | cons l ls ih =>
    have hnode := node?_top hl
    have hscope : l.frame.kind.isScope := by rwa [isNode, hnode] at hs
    have hskip : climbTo (· == .methodDeclaration) ([l] ++ ls) =
        climbTo (· == .methodDeclaration) ls := climbTo_append fun m hm => by
      rw [List.mem_singleton.1 hm]
      generalize l.frame.kind = k at hscope
      cases k <;> first | rfl | cases hscope
    rw [← List.singleton_append, hskip]
    cases ls with
    | nil => rfl
    | cons m ls =>
      refine ih hl.tail ?_
      rcases parent_cases hroot hnode with ⟨hnone, -⟩ | ⟨k, slot, hk, hallows⟩
      · rw [parent_top hl] at hnone
        cases hnone
      · rw [parent_top hl] at hk
        rw [isNode, show (ofTree root).node? (top (m :: ls)) = some k from hk]
        exact NodeKind.isScope_of_allows hscope hallows

include hroot hunit h hl in
/-- The method around the beginning of a first parameter is that of the list. -/
theorem method_of_begins (hb : (ofTree root).BeginsFirstParameter (some s.index) list) :
    top (climbTo (· == .methodDeclaration) ls) = (ofTree root).methodOf list := by
  obtain ⟨ms, k, ks, rfl, rfl, hformal⟩ := exists_list_of_begins h hl hb
  have hladder : Ladder root (k :: ks) := hl.append
  have hparent := isParameterList_of_node hroot hunit hb.1
  rw [List.append_cons, climbTo_of_formal hformal]
  rw [isParameterList, Bool.and_eq_true, isNode, parent_top hladder, List.tail_cons] at hparent
  rw [methodOf, parent_top hladder, List.tail_cons]
  cases ks with
  | nil => exact (ite_self none).symm
  | cons m ks =>
    have hmember : Ladder root (m :: ks) := hladder.tail
    have hscopes : Ladder root ks := hmember.tail
    have hnode : (ofTree root).node? (top (m :: ks)) = some m.frame.kind := node?_top hmember
    have hkind : hasParameters m.frame.kind := by simpa [hnode] using hparent.2
    simp only [hasParameters, Bool.or_eq_true, beq_iff_eq] at hkind
    rcases hkind with hm | hm
    · rw [climbTo, List.dropWhile_cons_of_neg (by simp [hm]), if_pos (hm ▸ hnode)]
    · -- no method is around a constructor
      have htype := isType_parent_of_constructor hroot hunit (hm ▸ hnode)
      rw [parent_top hmember, List.tail_cons] at htype
      have hscope : (ofTree root).isNode NodeKind.isScope (top ks) := by
        rw [isNode] at htype ⊢
        cases hk : (ofTree root).node? (top ks) with
        | none => rw [hk] at htype; cases htype
        | some n =>
          rw [hk] at htype
          simp [NodeKind.isScope, show n.isTypeDeclaration = true from htype]
      have hskip : climbTo (· == .methodDeclaration) (m :: ks) =
          climbTo (· == .methodDeclaration) ks := List.dropWhile_cons_of_pos (by simp [hm])
      rw [hskip, climbTo_of_scope hroot hscopes hscope, if_neg (by simp [hnode, hm])]
      rfl

end List

/-! ## The rule -/

section Places

variable {offset : Nat} {left target : Ref} (hroot : root.WellFormed)
  (hunit : root.kind = .node .compilationUnit)
  (hsorted : root.tokens.Pairwise fun t u => t.start < u.start) (hsh : (ofTree root).Shallow)

include hroot hunit hsorted hsh in
/-- If the last token before an offset may start a parameter then the method around it is the one
whose parameters begin there. -/
theorem method_left (hfull : Full .endOfFile root)
    (hleft : left = (ofTree root).tokenBefore offset)
    (htarget : target = (ofTree root).beforeTouchedWord left offset)
    (hstarts : left = target ∨ ((ofTree root).token? left).any Grammar.startsParameter)
    (hb : (ofTree root).BeginsFirstParameter target list) :
    (ofTree root).nodeAbove left (· == .methodDeclaration) = (ofTree root).methodOf list := by
  have hmodifier : (ofTree root).allowsParameterModifier offset left true :=
    (allowsFirstModifier_iff hroot hunit).2 ⟨list, htarget ▸ hb⟩
  rcases target_cases hsorted offset with hnone | ⟨init, x, late, htokens, s, hs, hx, hs', hplace⟩
  · rw [htarget, hleft, hnone] at hb
    rcases hb with ⟨-, ⟨hk, -⟩ | ⟨hk, -⟩⟩ <;> cases hk
  · rw [← hleft, ← htarget] at hs'
    obtain ⟨fs, ls, hholds, hls, hstands, hladder⟩ := exists_ladder_of_site hsorted hs hx
    subst hs'
    rw [← method_of_begins hroot hunit hstands hladder hb]
    rw [allowsParameterModifier_eq hroot hstands hladder hx htarget.symm] at hmodifier
    have hsame (h : left = some s.index) : (ofTree root).nodeAbove left (· == .methodDeclaration) =
        top (climbTo (· == .methodDeclaration) ls) := by
      rw [h]
      exact nodeAbove_of_stands hsh hstands hladder _
    rw [← hleft] at hplace
    rcases hplace with h | ⟨y, rest, rfl, v, hv, hy, h⟩
    · rw [hsame h]
    · rcases hstarts with hstarts | hstarts
      · rw [hsame hstarts]
      · have hkind : (ofTree root).token? left = some y.kind := by
          rw [h, token?_ofTree hv, hy]
          rfl
        rw [hkind] at hstarts
        rw [h, nodeAbove_next hroot hfull hsorted hsh htokens hholds hls hladder hmodifier hstarts hv hy]

end Places

end NodeTable

namespace Context

/-- The rule for receivers in any context. -/
theorem extensionReceiver_of_table {text : List Char} (c : Context) (hc : c.table = .ofText text)
    {s : RequestState} (hs : s.Untroubled) :
    (c.extensionReceiver c.offset s).1 ↔
      (∃ list, c.table.BeginsFirstParameter (c.table.beforeTouchedWord c.left c.offset) list) ∧
        c.table.IsReceiverMethod (c.table.nodeAbove c.left (· == .methodDeclaration)) := by
  have hroot := SourceFile.root_wellFormed text
  have hunit : (SourceFile.ofText text).root.kind = .node .compilationUnit := rfl
  rw [NodeTable.ofText_eq] at hc
  rw [(c.extensionReceiver_answers s hs).1, Bool.and_assoc, Bool.and_eq_true,
    inStaticMethod_iff hroot hunit hc, hc, allowsFirstModifier_iff hroot hunit]

/-- The rule for receivers in the context of any place, if nobody cancels the request. A modifier of
a first parameter has to start there, and the method around the last token before the caret has to be
a static method right in a static class. If the last token decides itself, or may start a parameter,
then that method is the one whose parameters begin there, as long as no walk is cut off. -/
theorem extensionReceiver_iff (text : List Char) (b : Binding) (offset : Nat) {r : RequestState}
    (hr : r.Untroubled) :
    ∃ c, (Context.build (.ofText text) b.model offset r).1 = .ok c ∧ c.table = .ofText text ∧
      c.left = c.table.tokenBefore offset ∧ c.target = c.table.beforeTouchedWord c.left offset ∧
      ∀ s : RequestState, s.Untroubled →
        ((c.extensionReceiver offset s).1 ↔
          (∃ list, c.table.BeginsFirstParameter c.target list) ∧
            c.table.IsReceiverMethod (c.table.nodeAbove c.left (· == .methodDeclaration))) ∧
        (c.table.Shallow →
          (c.left = c.target ∨ (c.table.token? c.left).any Grammar.startsParameter) →
          (∀ list, c.table.BeginsFirstParameter c.target list →
            c.table.nodeAbove c.left (· == .methodDeclaration) = c.table.methodOf list) ∧
          ((c.extensionReceiver offset s).1 ↔ ∃ list, c.table.BeginsFirstParameter c.target list ∧
            c.table.IsReceiverMethod (c.table.parent list))) := by
  obtain ⟨ids, hbuild⟩ := build_answers (.ofText text) b offset
  refine ⟨_, (hbuild r hr).1, gathered_table _, ?_, ?_, fun s hs => ?_⟩
  · rw [gathered_left, gathered_table]
  · rw [gathered_target, gathered_left, gathered_table]
  have hrule := extensionReceiver_of_table (gathered (.ofText text) b.model offset ids)
    (gathered_table _) hs
  simp only [gathered_table, gathered_offset, gathered_left, gathered_target] at hrule ⊢
  have hsorted := scan_sorted text
  rw [← SourceFile.root_tokens text] at hsorted
  refine ⟨hrule, fun hsh hstarts => ?_⟩
  have hmethod (list : Ref) (hb : BeginsFirstParameter (.ofText text)
      (beforeTouchedWord (.ofText text) (tokenBefore (.ofText text) offset) offset) list) :
      nodeAbove (.ofText text) (tokenBefore (.ofText text) offset) (· == .methodDeclaration) =
        methodOf (.ofText text) list := by
    rw [NodeTable.ofText_eq] at hsh hstarts hb ⊢
    exact method_left (SourceFile.root_wellFormed text) rfl hsorted hsh (SourceFile.root_full text)
      rfl rfl hstarts hb
  refine ⟨hmethod, hrule.trans ?_⟩
  rw [← exists_and_right]
  refine exists_congr fun list => and_congr_right fun hb => ?_
  rw [hmethod list hb, isReceiverMethod_methodOf]

/-- The word `this` is begun behind the opening of a list. -/
theorem extensionReceiver_iff_touched_word : ∃ (t : NodeTable) (c : Context),
    t = .ofText "static class C \x7b static void M(th".toList ∧ t.Shallow ∧
    (Context.build t (Binding.ofTable t).model 33 .quiet).1 = .ok c ∧ c.table = t ∧
    c.left = c.table.tokenBefore 33 ∧ c.target = c.table.beforeTouchedWord c.left 33 ∧
    ∀ s : RequestState, s.Untroubled →
      ((c.extensionReceiver 33 s).1 ↔
        (∃ list, c.table.BeginsFirstParameter c.target list) ∧
          c.table.IsReceiverMethod (c.table.nodeAbove c.left (· == .methodDeclaration))) ∧
      (c.table.Shallow →
        (c.left = c.target ∨ (c.table.token? c.left).any Grammar.startsParameter) →
        (∀ list, c.table.BeginsFirstParameter c.target list →
          c.table.nodeAbove c.left (· == .methodDeclaration) = c.table.methodOf list) ∧
        ((c.extensionReceiver 33 s).1 ↔ ∃ list, c.table.BeginsFirstParameter c.target list ∧
          c.table.IsReceiverMethod (c.table.parent list))) := by
  obtain ⟨c, hc⟩ := extensionReceiver_iff "static class C \x7b static void M(th".toList
    (.ofTable (.ofText "static class C \x7b static void M(th".toList)) 33
    RequestState.untroubled_quiet
  exact ⟨_, c, rfl, shallow_of_size_le (by decide +kernel), hc⟩

/-- Behind `static`, which no parameter starts with, the caret is in the next member: that one is
judged, and not the method whose list of parameters the last token before the word opens. -/
theorem extensionReceiver_next_member : ∃ (t : NodeTable) (c : Context),
    t = .ofText "static class C\x7bvoid M(static void N()\x7b\x7d\x7d".toList ∧ t.Shallow ∧
    (Context.build t (Binding.ofTable t).model 28 .quiet).1 = .ok c ∧
    (c.extensionReceiver 28 .quiet).1 = true ∧
    ¬∃ list, c.table.BeginsFirstParameter c.target list ∧
      c.table.IsReceiverMethod (c.table.parent list) := by
  obtain ⟨ids, hbuild⟩ := build_answers
    (.ofText "static class C\x7bvoid M(static void N()\x7b\x7d\x7d".toList)
    (.ofTable (.ofText "static class C\x7bvoid M(static void N()\x7b\x7d\x7d".toList)) 28
  refine ⟨_, _, rfl, shallow_of_size_le (by decide +kernel),
    (hbuild _ RequestState.untroubled_quiet).1, ?_, ?_⟩
  · refine (extensionReceiver_of_table _ (gathered_table _) RequestState.untroubled_quiet).2 ?_
    simp only [gathered_table, gathered_offset, gathered_left]
    exact ⟨⟨_, by decide +kernel, .inl ⟨by decide +kernel, rfl⟩⟩, by decide +kernel⟩
  · rintro ⟨list, ⟨-, ⟨-, rfl⟩ | ⟨hk, -⟩⟩, hmethod⟩
    · simp only [gathered_table, gathered_target] at hmethod
      exact absurd hmethod (by decide +kernel)
    · simp only [gathered_table, gathered_target] at hk
      exact absurd hk (by decide +kernel)

end Context

end Caret
