import Caret.Proofs.DeclarationOrder
import Caret.Proofs.Scoping
/-!
# Preselection

`this` is preselected where a value of the type around the caret is expected
(`is_enclosing_type_inferred`). The model looks for that type around the last token before the
caret, the expected type is found around the token that decides what may stand there. If the last
token is that token, or a name behind it, then both stand in the same type: a type does not start
with a name, and it ends before one only where something is missing in its head
(`NodeTable.nodeAbove_next_name`). So `this` is preselected exactly if it is suggested and the
expected type is the type around (`Registry.complete_preselects`).
-/

namespace Caret

open Pattern Tree

/-! ## Where types start -/

section Starts

variable {y : Token}

theorem starts_of_allows_head {t : Tree} (hw : t.WellFormed) (h : head.allows t.slot t.kind) :
    ∃ x us, t.tokens = x :: us ∧ x.kind ≠ .identifier := by
  cases hw with
  | leaf s x =>
    refine ⟨x, [], rfl, fun hx => ?_⟩
    simp [head, attributes, Pattern.modifiers, Pattern.leaf, Pattern.node, allows, Tree.kind, hx,
      Kind.isNode, Kind.node?, Kind.isToken, Kind.token?, TokenKind.isModifier] at h
  | @node s k span ts covers _ =>
    have honly : head.onlyNodes (· == .attributeList) := rfl
    rw [eq_of_beq (of_allows_node (p := (· == .attributeList)) honly h)] at covers
    obtain ⟨us, vs, rfl, hus, -⟩ := covers_seq.1 covers
    obtain ⟨ws, xs, rfl, hws, -⟩ := covers_seq.1 hus
    obtain ⟨x, rfl, hx⟩ := covers_leaf.1 hws
    refine ⟨x, tokensAll (xs ++ vs), by simp [Tree.tokens, tokensAll], fun h => ?_⟩
    rw [h] at hx
    cases hx

/-- A type does not start with a name. -/
theorem starts_of_type {t : Tree} {k : NodeKind} (hw : t.WellFormed) (hk : t.kind = .node k)
    (htype : k.isTypeDeclaration) : ∃ x us, t.tokens = x :: us ∧ x.kind ≠ .identifier := by
  cases hw with
  | leaf s x => cases hk
  | @node s k' span ts covers inside =>
    obtain rfl := Kind.node.inj hk
    have hpattern : k'.pattern = NodeKind.pattern .classDeclaration := by
      cases k' <;> first | rfl | cases htype
    rw [hpattern] at covers
    obtain ⟨us, after, rfl, hus, -⟩ := covers_seq.1 covers
    obtain ⟨before, keywords, rfl, hbefore, hkeyword⟩ := covers_seq.1 hus
    cases before with
    | nil =>
      obtain ⟨x, rfl, hx⟩ := covers_leaf.1 hkeyword
      refine ⟨x, tokensAll after, rfl, fun h => ?_⟩
      rw [h] at hx
      cases hx
    | cons u us =>
      obtain ⟨x, xs, hx, hkind⟩ := starts_of_allows_head (inside u (by simp))
        (hbefore.allows u (List.mem_cons_self ..))
      exact ⟨x, xs ++ tokensAll (us ++ keywords ++ after), by simp [Tree.tokens, tokensAll, hx], hkind⟩

mutual

/-- A name that a tree starts with is in no type of the tree. -/
theorem exists_holds_first (hy : y.kind = .identifier) : ∀ {t : Tree} {late : List Token},
    t.WellFormed → t.tokens = y :: late →
      ∃ fs, t.Holds y fs ∧ ∀ f ∈ fs, f.kind.isTypeDeclaration = false
  | .leaf s x, late, _, h => by
    obtain rfl := (List.cons.inj h).1
    exact ⟨[], .leaf s, by simp⟩
  | .node s k span ts, late, hw, h => by
    have htype : k.isTypeDeclaration = false := by
      refine Bool.eq_false_iff.2 fun hk => ?_
      obtain ⟨x, us, hx, hne⟩ := starts_of_type hw rfl hk
      rw [h] at hx
      exact hne ((List.cons.inj hx).1 ▸ hy)
    cases hw with | node _ inside =>
    obtain ⟨before, v, after, rfl, fs, hv, hfs⟩ := exists_holds_firstOf hy inside h
    exact ⟨_, hv.child s k span before after, List.forall_mem_cons.2 ⟨htype, hfs⟩⟩

theorem exists_holds_firstOf (hy : y.kind = .identifier) : ∀ {ts : List Tree} {late : List Token},
    (∀ t ∈ ts, t.WellFormed) → tokensAll ts = y :: late →
      ∃ before v after, ts = before ++ v :: after ∧
        ∃ fs, v.Holds y fs ∧ ∀ f ∈ fs, f.kind.isTypeDeclaration = false
  | [], _, _, h => by cases h
  | t :: ts, late, hw, h => by
    obtain ⟨hwt, hws⟩ := List.forall_mem_cons.1 hw
    rcases List.append_eq_cons_iff.1 h with ⟨-, hts⟩ | ⟨_, ht, -⟩
    · obtain ⟨before, v, after, rfl, hv⟩ := exists_holds_firstOf hy hws hts
      exact ⟨t :: before, v, after, rfl, hv⟩
    · exact ⟨[], t, ts, rfl, exists_holds_first hy hwt ht⟩

end

end Starts

/-! ## Where types end -/

namespace NodeKind

/-- The bases of a type, or one of them. -/
def isBase (k : NodeKind) : Bool := k == .baseList || k == .typeReference

theorem isBase_of_allows {k n : NodeKind} {s : Slot} (hk : k.isBase)
    (h : k.pattern.allows s (.node n)) : n.isBase := by
  have ho : k.pattern.onlyNodes isBase := by cases k <;> first | rfl | cases hk
  exact of_allows_node ho h

end NodeKind

/-- The first token behind some frames stands behind one of them. -/
theorem behind_eq_cons {fs : List Frame} {y : Token} {late : List Token}
    (h : behind fs = y :: late) : ∃ ms g gs more, fs = ms ++ g :: gs ∧ behind ms = [] ∧
      tokensAll g.after = y :: more := by
  induction fs with
  | nil => cases h
  | cons f fs ih =>
    rw [behind_cons] at h
    rcases List.append_eq_cons_iff.1 h with ⟨hf, hfs⟩ | ⟨more, hf, -⟩
    · obtain ⟨ms, g, gs, more, rfl, hms, hg⟩ := ih hfs
      exact ⟨f :: ms, g, gs, more, rfl, by rw [behind_cons, hf, hms]; rfl, hg⟩
    · exact ⟨[], f, fs, more, rfl, rfl, hf⟩

/-- No type ends between a token and the next one, unless the first is right in the head of the
type. -/
theorem Tree.Holds.not_type_of_behind {t : Tree} {x y : Token} {fs ms gs : List Frame} {g : Frame}
    {next : TokenKind} {more : List Token} (h : t.Holds x fs) (hw : t.WellFormed) (hf : Full next t)
    (hfs : fs.reverse = ms ++ g :: gs) (hms : behind ms = []) (hg : tokensAll g.after = y :: more)
    (hy : y.kind ≠ .endOfFile)
    (hin : ∀ f ∈ fs.getLast?, f.kind.isTypeDeclaration = false ∧ f.kind.isBase = false) :
    ∀ f ∈ ms, f.kind.isTypeDeclaration = false := by
  intro f hmem
  refine Bool.eq_false_iff.2 fun htype => ?_
  obtain ⟨as, bs, rfl⟩ := List.append_of_mem hmem
  have hsplit : fs = (gs.reverse ++ g :: bs.reverse) ++ f :: as.reverse := by
    rw [← List.reverse_reverse fs, hfs]
    simp
  rw [behind_append, behind_cons, List.append_eq_nil_iff, List.append_eq_nil_iff] at hms
  have hafter : f.after = [] := by
    refine h.after_eq_nil hw (by simp [hsplit]) ?_ hms.2.1
    generalize f.kind = k at htype
    cases k <;> first | rfl | cases htype
  subst hsplit
  have hends := h.endsBefore hf f.child (by simp [Frame.children, hafter])
  have hchild := h.inner
  have hnested : (f :: as.reverse).IsChain fun f g => f.Within g :=
    (h.nested hw).suffix (List.suffix_append ..)
  cases has : as.reverse with
  | nil =>
    -- the token would be right in the type
    rw [has, List.getLast?_concat] at hin
    exact absurd htype (by simp [(hin f rfl).1])
  | cons c cs =>
    rw [has] at hin hchild hnested
    by_cases hbases : c.kind = .baseList
    · have hbase := kind_of_nested NodeKind.isBase_of_allows hnested.tail (by rw [hbases]; rfl)
      have hlast : ((gs.reverse ++ g :: bs.reverse) ++ f :: c :: cs).getLast? =
          some ((c :: cs).getLast (by simp)) := by
        rw [List.getLast?_append, List.getLast?_cons_cons, List.getLast?_eq_some_getLast (by simp)]
        rfl
      have hnot := (hin _ hlast).2
      rw [hbase _ (List.getLast_mem _)] at hnot
      cases hnot
    · have hnode : f.child.kind.isNode (· != .baseList) := by
        rw [hchild.kind_eq]
        simpa [Kind.isNode, Kind.node?] using hbases
      have hnext := hends.2 htype hnode
      rw [List.reverse_append, List.reverse_cons, List.reverse_reverse, List.reverse_reverse,
        List.append_assoc, behind_append, hms.2.2, List.nil_append, List.singleton_append,
        behind_cons, hg] at hnext
      exact hy hnext

/-! ## The type around the next token -/

namespace NodeTable

section Next

variable {root : Tree} {x y : Token} {v : Site} {fs : List Frame} {ls : List Level}
  {init late : List Token}

/-- A name stands in the same type as the token before it, unless that one is right in the head of
a type. -/
theorem nodeAbove_next_name (hw : root.WellFormed) (hfull : Full .endOfFile root)
    (hsorted : root.tokens.Pairwise fun t u => t.start < u.start) (hsh : (ofTree root).Shallow)
    (h : root.tokens = init ++ x :: y :: late) (hx : root.Holds x fs)
    (hfs : frames ls = fs.reverse) (hl : Ladder root ls)
    (hin : ∀ f ∈ fs.getLast?, f.kind.isTypeDeclaration = false ∧ f.kind.isBase = false)
    (hy : y.kind = .identifier) (hv : v ∈ root.sites none 0) (ht : v.token? = some y) :
    (ofTree root).nodeAbove (some v.index) NodeKind.isTypeDeclaration =
      top (climbTo NodeKind.isTypeDeclaration ls) := by
  obtain ⟨ms, g, gs, more, hsplit, hms, hg⟩ := behind_eq_cons (hx.around_eq hsorted h).2
  have hnot := hx.not_type_of_behind hw hfull hsplit hms hg (by simp [hy]) hin
  rw [hsplit] at hfs
  obtain ⟨ls₁, ls₂, rfl, rfl, hrest⟩ := List.map_eq_append_iff.1 hfs
  obtain ⟨⟨u, g⟩, ls₃, rfl, rfl, -⟩ := List.map_eq_cons_iff.1 hrest
  change tokensAll g.after = _ at hg
  have hnode : Ladder root (⟨u, g⟩ :: ls₃) := hl.append
  have hinside : ∀ t ∈ g.after, t.WellFormed := by
    cases hnode with
    | cons hu htree _ =>
      have hwell := hw.of_mem_sites hu.mem
      rw [htree] at hwell
      cases hwell with
      | node _ inside => exact fun t ht => inside t (by simp [Frame.children, ht])
  obtain ⟨before, w, after, hafter, gs', hholds, hfree⟩ := exists_holds_firstOf hy hinside hg
  obtain ⟨s, ms', g', hs, hms', hkind, -, hstands, hladder⟩ := hnode.aside hafter hholds
  have hfree' : ∀ l ∈ ms', l.frame.kind.isTypeDeclaration = false := fun l hl => by
    refine hfree l.frame ?_
    rw [← List.mem_reverse, ← hms']
    exact List.mem_map_of_mem hl
  rw [site_eq hsorted hv hstands.mem ht hs, nodeAbove_of_stands hsh hstands hladder,
    climbTo_append hfree', climbTo_append fun l hl => hnot l.frame (List.mem_map_of_mem hl)]
  simp only [climbTo, List.dropWhile_cons, hkind]
  split <;> rfl

end Next

/-- A type is only expected behind a token in a member or a statement. -/
theorem parent_of_expectedType {t : NodeTable} {declaration token : Ref}
    (h : t.expectedType declaration token ≠ none) : t.token? token ≠ some .closeBrace ∧
      ∃ k, t.node? (t.parent token) = some k ∧ k.isTypeDeclaration = false ∧ k.isBase = false := by
  simp only [expectedType] at h
  split at h
  case h_6 => exact absurd rfl h
  all_goals
    rename_i hk hp
    exact ⟨by simp [hk], _, hp, rfl, rfl⟩

section Places

variable {root : Tree} {offset : Nat} {left target : Ref} (hroot : root.WellFormed)
  (hfull : Full .endOfFile root) (hsorted : root.tokens.Pairwise fun t u => t.start < u.start)
  (hsh : (ofTree root).Shallow)

include hroot hfull hsorted hsh

/-- Where a type is expected, the type around the last token is the nearest one around the token that
decides, if the last token is that token or a name. -/
theorem containingType_left (hleft : left = (ofTree root).tokenBefore offset)
    (htarget : target = (ofTree root).beforeTouchedWord left offset)
    (hname : left = target ∨ (ofTree root).token? left = some .identifier)
    (hexpected : (ofTree root).expectedType ((ofTree root).containingType target) target ≠ none) :
    (ofTree root).containingType left =
      (ofTree root).nearest target NodeKind.isTypeDeclaration := by
  obtain ⟨hbrace, k, hk, htype, hbase⟩ := parent_of_expectedType hexpected
  rcases hname with rfl | hname
  · exact containingType_eq_nearest hsh hbrace
  rw [containingType_eq_nearest hsh (by simp [hname]), ← nodeAbove_eq_nearest hsh,
    ← nodeAbove_eq_nearest hsh]
  rcases target_cases hsorted offset with hnone | ⟨init, x, late, htokens, s, hs, hx, hs', hplace⟩
  · rw [htarget, hleft, hnone] at hk
    cases hk
  rw [← hleft, ← htarget] at hs'
  rw [← hleft] at hplace
  rcases hplace with h | ⟨y, rest, rfl, v, hv, hy, h⟩
  · rw [h, hs']
  obtain ⟨fs, ls, hholds, hls, hstands, hladder⟩ := exists_ladder_of_site hsorted hs hx
  have hin : ∀ f ∈ fs.getLast?, f.kind.isTypeDeclaration = false ∧ f.kind.isBase = false := by
    rw [hs', parent_of_stands hstands, node?_top hladder] at hk
    intro f hf
    rw [← List.head?_reverse, ← hls, frames, List.head?_map] at hf
    obtain ⟨l, hl, rfl⟩ := Option.map_eq_some_iff.1 hf
    rw [hl] at hk
    rw [show l.frame.kind = k from Option.some.inj hk]
    exact ⟨htype, hbase⟩
  have hident : y.kind = .identifier := by
    rw [h, token?_ofTree hv, hy] at hname
    exact Option.some.inj hname
  rw [h, hs', nodeAbove_of_stands hsh hstands hladder]
  exact nodeAbove_next_name hroot hfull hsorted hsh htokens hholds hls hladder hin hident hv hy

end Places

end NodeTable

/-! ## The type around the caret -/

namespace Binding

variable {t : NodeTable} {id : TypeId} {d : Nat}

theorem ofDeclaration?_eq_some :
    (ofTable t).ofDeclaration? (some d) = some id ↔ (ofTable t).declaration? id = some d := by
  rw [declaration?_eq_some, ofDeclaration?, Option.map_eq_some_iff]
  constructor
  · rintro ⟨place, hfound, rfl⟩
    obtain ⟨hlt, hd, -⟩ := List.findIdx?_eq_some_iff_getElem.1 hfound
    exact ⟨place, _, rfl, List.getElem?_eq_getElem hlt, by simpa using hd⟩
  · rintro ⟨place, e, rfl, he, rfl⟩
    obtain ⟨hlt, rfl⟩ := List.getElem?_eq_some_iff.1 he
    refine ⟨place, List.findIdx?_eq_some_iff_getElem.2 ⟨hlt, by simp, fun j hj h => ?_⟩, rfl⟩
    have hless := List.pairwise_iff_getElem.1 (pairwise_types t) j place (hj.trans hlt) hlt hj
    simp only [beq_iff_eq, Option.some.injEq] at h
    omega

theorem ofDeclaration?_none : (ofTable t).ofDeclaration? none = none := by
  rw [ofDeclaration?, List.findIdx?_eq_none_iff.2 (by simp)]
  rfl

theorem enclosing_eq (t : NodeTable) (offset : Nat) : (ofTable t).enclosing offset =
    (ofTable t).ofDeclaration? (t.containingType (t.tokenBefore offset)) := by
  unfold enclosing
  rw [show (ofTable t).table = t from rfl]
  cases t.tokenBefore offset with
  | none => exact ofDeclaration?_none.symm
  | some i => rfl

theorem enclosing_eq_some {offset : Nat} {left : Ref} (hleft : left = t.tokenBefore offset) :
    (ofTable t).enclosing offset = some id ↔
      ∃ d, t.containingType left = some d ∧ (ofTable t).declaration? id = some d := by
  rw [enclosing_eq, ← hleft]
  cases t.containingType left with
  | none => simp [ofDeclaration?_none]
  | some d => simp [ofDeclaration?_eq_some]

/-- What an identity stands for has a name. -/
theorem exists_name_of_declaration? (h : (ofTable t).declaration? id = some d) :
    ∃ name, t.declaredName? (some d) = some name := by
  obtain ⟨place, e, rfl, he, rfl⟩ := declaration?_eq_some.1 h
  exact ⟨e.name, name_of_mem_types (List.mem_of_getElem? he)⟩

/-- Only a type without a name has no identity. -/
theorem ofDeclaration?_eq_none
    (htype : t.isNode NodeKind.isTypeDeclaration (some d)) :
    (ofTable t).ofDeclaration? (some d) = none ↔ t.declaredName? (some d) = none := by
  constructor
  · intro hnone
    by_contra hname
    obtain ⟨name, hname⟩ := Option.ne_none_iff_exists'.1 hname
    obtain ⟨e, he, rfl, -⟩ := exists_declaredType htype hname
    obtain ⟨place, hplace⟩ := List.mem_iff_getElem?.1 he
    have hfound := ofDeclaration?_eq_some.2 (declaration?_eq_some.2 ⟨place, e, rfl, hplace, rfl⟩)
    rw [hnone] at hfound
    cases hfound
  · intro hnone
    by_contra hid
    obtain ⟨id, hid⟩ := Option.ne_none_iff_exists'.1 hid
    obtain ⟨name, hname⟩ := exists_name_of_declaration? (ofDeclaration?_eq_some.1 hid)
    rw [hnone] at hname
    cases hname

theorem ne_void_of_declaration? (h : (ofTable t).declaration? id = some d) : id ≠ TypeId.void := by
  rintro rfl
  cases h

end Binding

/-- The type that is expected behind a token is the nearest type around it, which has a name. -/
def NodeTable.ExpectsEnclosing (t : NodeTable) (b : Binding) (token : Ref) : Prop :=
  ∃ declaration name reference id,
    t.nearest token NodeKind.isTypeDeclaration = some declaration ∧
    t.declaredName? (some declaration) = some name ∧
    t.expectedType (t.containingType token) token = some reference ∧
    b.resolve (some reference) = some id ∧ b.declaration? id = some declaration

namespace Context

/-- The context prefers `this` if the expected type is the one around. -/
theorem prefers_this_iff {text : List Char} (hsh : (NodeTable.ofText text).Shallow) {offset : Nat}
    {t : NodeTable} {b : Binding} {left target : Ref} (ht : t = .ofText text) (hb : b = .ofTable t)
    (hleft : left = t.tokenBefore offset) (htarget : target = t.beforeTouchedWord left offset)
    (hname : left = target ∨ t.token? left = some .identifier) :
    (gathered t b.model offset (toldBehind t b target)).prefers b .this ↔
      t.ExpectsEnclosing b target := by
  subst ht hb
  have hsorted := scan_sorted text
  rw [← SourceFile.root_tokens text] at hsorted
  have haround (h : (NodeTable.ofText text).expectedType
      ((NodeTable.ofText text).containingType target) target ≠ none) :
      (NodeTable.ofText text).containingType left =
        (NodeTable.ofText text).nearest target NodeKind.isTypeDeclaration := by
    rw [NodeTable.ofText_eq] at hsh hleft htarget hname h ⊢
    exact NodeTable.containingType_left (SourceFile.root_wellFormed text) (SourceFile.root_full text)
      hsorted hsh hleft htarget hname h
  simp only [prefers, gathered, toldBehind_eq, Option.any_eq_true, List.contains_iff_mem, mem_told,
    Binding.enclosing_eq_some hleft]
  constructor
  · rintro ⟨id, ⟨d, hleftType, hd⟩, -, hid⟩
    have hsome : (NodeTable.ofText text).expectedType
        ((NodeTable.ofText text).containingType target) target ≠ none := fun hnone => by
      rw [hnone] at hid
      cases hid
    obtain ⟨reference, href⟩ := Option.ne_none_iff_exists'.1 hsome
    obtain ⟨name, hname⟩ := Binding.exists_name_of_declaration? hd
    exact ⟨d, name, reference, id, by rw [← haround hsome, hleftType], hname, href,
      href ▸ hid, hd⟩
  · rintro ⟨d, name, reference, id, hnearest, -, href, hid, hd⟩
    exact ⟨id, ⟨d, by rw [haround (by simp [href]), hnearest], hd⟩, Binding.ne_void_of_declaration? hd,
      href ▸ hid⟩

end Context

namespace Registry

/-- `this` is preselected at any place of a text exactly if it is suggested and the expected type is
the one around, if nobody cancels the request, no walk is cut off, and the last token is the one that
decides or a name. -/
theorem complete_preselects (text : List Char) (hsh : (NodeTable.ofText text).Shallow)
    (offset : Nat) (options : Options) {r : RequestState} (hr : r.Untroubled) {t : NodeTable}
    {b : Binding} {left target : Ref} (ht : t = .ofText text) (hb : b = .ofTable t)
    (hleft : left = t.tokenBefore offset) (htarget : target = t.beforeTouchedWord left offset)
    (hname : left = target ∨ t.token? left = some .identifier) : ∃ outcome,
      (default.complete t b.model offset options r).1 = .ok outcome ∧
      ((∃ item ∈ outcome.items, item.keyword = .this ∧ item.preselect) ↔
        .this ∈ outcome.keywords ∧ t.ExpectsEnclosing b target) := by
  obtain ⟨c, hc, hanswers⟩ := complete_finds t b offset options
  rw [← hleft, ← htarget] at hc
  have hprefers : c.prefers b .this ↔ t.ExpectsEnclosing b target :=
    hc ▸ Context.prefers_this_iff hsh ht hb hleft htarget hname
  refine ⟨_, (hanswers r hr).1, ?_⟩
  rw [keywords_found fun k => Context.this_of_prefers, List.mem_filter,
    and_iff_right (Keyword.mem_all _), ← hprefers]
  simp only [mem_items_found]
  constructor
  · rintro ⟨item, ⟨k, hk, rfl⟩, rfl, hp⟩
    exact ⟨hk, (Bool.and_eq_true_iff.1 hp).2⟩
  · rintro ⟨hk, hp⟩
    exact ⟨_, ⟨.this, hk, rfl⟩, rfl, Bool.and_eq_true_iff.2 ⟨hk, hp⟩⟩

/-- The word behind the `=` stands in a type in another type. -/
theorem complete_preselects_nested : ∃ (t : NodeTable) (b : Binding) (outcome : Outcome),
    t = .ofText "class A\x7bclass B\x7bB b;void M()\x7bb = th\x7d\x7d\x7d".toList ∧ b = .ofTable t ∧
      (default.complete t b.model 35 .default .quiet).1 = .ok outcome ∧
      ((∃ item ∈ outcome.items, item.keyword = .this ∧ item.preselect) ↔ .this ∈ outcome.keywords ∧
        t.ExpectsEnclosing b (t.beforeTouchedWord (t.tokenBefore 35) 35)) := by
  obtain ⟨outcome, h⟩ := complete_preselects "class A\x7bclass B\x7bB b;void M()\x7bb = th\x7d\x7d\x7d".toList
    (NodeTable.shallow_of_size_le (by decide +kernel)) 35 .default RequestState.untroubled_quiet rfl rfl rfl
    rfl (.inr (by decide +kernel))
  exact ⟨_, _, outcome, rfl, rfl, h⟩

end Registry

end Caret
