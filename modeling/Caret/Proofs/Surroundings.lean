import Caret.Completion.Recommender
import Caret.Keyword
import Caret.Proofs.Ladder
import Caret.Proofs.TypedData
/-!
# What the frames of a token tell

What may follow a token is asked of the table, by references. All these questions can be answered
from the frames of the token alone, the nearest first, and the answers are the same.
-/

namespace Caret

/-- Every modifier has a bit of its own. -/
theorem TokenKind.modifierBit?_inj {k m : TokenKind} {b : Nat} (hk : k.modifierBit? = some b)
    (hm : m.modifierBit? = some b) : k = m := by
  have hfind {n : TokenKind} (h : n.modifierBit? = some b) :
      TokenKind.all.find? (·.modifierBit? == some b) = some n := by
    cases n <;> cases h <;> rfl
  exact Option.some.inj ((hfind hk).symm.trans (hfind hm))

namespace Modifiers

variable {m : TokenKind}

theorem has_single (hm : m.modifierBit?.isSome) (k : TokenKind) : (single k).has m = (k == m) := by
  obtain ⟨b, hb⟩ := Option.isSome_iff_exists.1 hm
  rw [Bool.eq_iff_iff, beq_iff_eq, has, hb, Option.any_some, single]
  split
  · rename_i b' hk
    rw [Nat.one_shiftLeft, Nat.testBit_two_pow, decide_eq_true_iff]
    constructor
    · rintro rfl
      exact TokenKind.modifierBit?_inj hk hb
    · rintro rfl
      exact Option.some.inj (hk.symm.trans hb)
  · rename_i hk
    constructor
    · intro h
      simp [none] at h
    · rintro rfl
      simp [hk] at hb

theorem has_ofKinds (hm : m.modifierBit?.isSome) (ks : List TokenKind) :
    (ofKinds ks).has m = ks.any (· == m) := by
  induction ks with
  | nil => rw [ofKinds, has_none, List.any_nil]
  | cons k ks ih => rw [ofKinds, has_union, has_single hm, ih, List.any_cons]

end Modifiers

namespace Frame

/-- The modifier `static` is among the children. -/
def isStatic (f : Frame) : Bool :=
  f.children.any fun t => t.slot == .modifier && t.kind == .token .staticKeyword

/-- No item stands before the child. -/
def isFirstItem (f : Frame) : Bool := f.before.all (·.slot != .item)

end Frame

/-! ## Questions about frames -/

namespace Frames

open NodeKind

/-- The frames from the nearest node on whose kind has a property. -/
def above (p : NodeKind → Bool) (fs : List Frame) : List Frame := fs.dropWhile (!p ·.kind)

/-- The kind of the nearest node has a property. -/
def headIs (p : NodeKind → Bool) (fs : List Frame) : Bool := fs.head?.any (p ·.kind)

/-- The nearest node is declared `static`. -/
def static (fs : List Frame) : Bool := fs.head?.any Frame.isStatic

def inInstance (fs : List Frame) : Bool :=
  let member := above isMemberDeclaration fs
  headIs isTypeDeclaration member.tail && !static member

def inAttribute (fs : List Frame) : Bool := !(above (· == .attribute) fs).isEmpty

def allowsStatement (k : TokenKind) (fs : List Frame) : Bool :=
  let inContainer := headIs isStatementContainer fs.tail
  match k with
  | .openBrace => headIs (· == .block) fs
  | .semicolon => headIs isStatement fs && inContainer
  | .closeBrace => headIs (· == .block) fs && inContainer
  | .closeParen => headIs (fun n => n == .ifStatement || n == .whileStatement) fs
  | .elseKeyword => headIs (· == .elseClause) fs
  | _ => false

def allowsExpression (k : TokenKind) (fs : List Frame) : Bool :=
  headIs (NodeTable.expressionParents k).contains fs

def isParameterList (fs : List Frame) : Bool :=
  headIs (· == .parameterList) fs && headIs NodeTable.hasParameters fs.tail

def allowsParameterModifier (k : TokenKind) (fs : List Frame) (onlyFirst : Bool) : Bool :=
  match k with
  | .openParen => isParameterList fs
  | .comma => !onlyFirst && isParameterList fs
  | .closeBracket =>
    headIs (· == .attributeList) fs && headIs (· == .parameter) fs.tail &&
      isParameterList fs.tail.tail &&
      (!onlyFirst || fs.tail.tail.head?.any Frame.isFirstItem)
  | _ => false

def allowsArgumentModifier (k : TokenKind) (fs : List Frame) : Bool :=
  (k == .openParen || k == .comma) && headIs (· == .argumentList) fs && !inAttribute fs

/-- The token opens the initializer of a constructor of an instance. -/
def initializes (k : TokenKind) (fs : List Frame) : Bool :=
  k == .colon && headIs (· == .constructorInitializer) fs &&
    headIs (· == .constructorDeclaration) fs.tail && !static fs.tail

def containsType (k : TokenKind) (fs : List Frame) : Bool :=
  let declaration := above isTypeDeclaration fs
  if k == .closeBrace && headIs isTypeDeclaration fs then
    !(above isTypeDeclaration declaration.tail).isEmpty
  else !declaration.isEmpty

def inMethod (fs : List Frame) : Bool :=
  let method := above (· == .methodDeclaration) fs
  !method.isEmpty && !(above isTypeDeclaration method.tail).isEmpty

def inStaticMethod (fs : List Frame) : Bool :=
  let method := above (· == .methodDeclaration) fs
  let declaration := above isTypeDeclaration method.tail
  headIs (· == .classDeclaration) declaration && static method && static declaration

def startsInInstance (k : TokenKind) (fs : List Frame) : Bool :=
  inInstance fs && ((allowsExpression k fs && !inAttribute fs) || allowsStatement k fs)

/-- The keyword may stand behind a token of the given kind. -/
def admits (w : Keyword) (k : TokenKind) (fs : List Frame) : Bool :=
  match w with
  | .this => startsInInstance k fs || initializes k fs ||
      (allowsParameterModifier k fs true && inMethod fs && inStaticMethod fs)
  | .base => containsType k fs &&
      (startsInInstance k fs || (initializes k fs && headIs (· == .classDeclaration) fs.tail.tail))
  | .ref | .out => allowsParameterModifier k fs false || allowsArgumentModifier k fs
  | .params => allowsParameterModifier k fs false

end Frames

/-! ## The same questions about a table -/

namespace NodeTable

variable {root : Tree} {s : Site} {ls : List Level} {l : Level} {x : Token}

theorem frames_climbTo (p : NodeKind → Bool) (ls : List Level) :
    frames (climbTo p ls) = Frames.above p (frames ls) := by
  rw [Frames.above, frames, frames, List.dropWhile_map]
  rfl

theorem isEmpty_frames (ls : List Level) : (frames ls).isEmpty = ls.isEmpty := by
  cases ls <;> rfl

theorem isSome_top (ls : List Level) : (top ls).isSome = !ls.isEmpty := by
  cases ls <;> rfl

theorem frames_tail (ls : List Level) : frames ls.tail = (frames ls).tail := List.map_tail ..

theorem isNode_eq (hl : Ladder root ls) (p : NodeKind → Bool) :
    (ofTree root).isNode p (top ls) = Frames.headIs p (frames ls) := by
  rw [isNode_top hl]
  cases ls <;> rfl

theorem node?_beq (hl : Ladder root ls) (k : NodeKind) :
    ((ofTree root).node? (top ls) == some k) = Frames.headIs (· == k) (frames ls) := by
  rw [node?_top hl]
  cases ls <;> rfl

theorem any_tokensIn (base : Nat) (ts : List Tree) (slot : Slot) (k : TokenKind) :
    (Child.tokensIn (Tree.placed base ts) slot).any (· == k) =
      ts.any fun t => t.slot == slot && t.kind == .token k := by
  induction ts generalizing base with
  | nil => rfl
  | cons t ts ih =>
    rw [List.any_cons, ← ih (base + t.size), Tree.placed, Child.tokensIn, Child.tokensIn,
      List.filter_cons]
    by_cases hs : t.slot = slot
    · cases t.kind <;> simp [hs, Kind.token?, BEq.beq]
    · simp [hs]

/-- The modifiers of an entry are those in the slot for them. -/
theorem has_modifiers {u : Site} (hu : u ∈ root.sites none 0) {m : TokenKind}
    (hm : m.modifierBit?.isSome) : ((ofTree root).modifiers (some u.index)).has m =
      u.tree.children.any fun t => t.slot == .modifier && t.kind == .token m := by
  rw [modifiers, get?_ofTree hu, Option.map_some, Option.getD_some, Site.entry]
  cases u.tree with
  | leaf slot token => exact Modifiers.has_none m
  | node slot k span ts =>
    exact (Modifiers.has_ofKinds hm _).trans (any_tokensIn _ _ _ _)

theorem isStatic_top (hl : Ladder root ls) :
    (ofTree root).isStatic (top ls) = Frames.static (frames ls) := by
  cases hl with
  | nil => exact Modifiers.has_none _
  | @cons u f ls slot span hu ht hl =>
    have h := has_modifiers hu.mem (m := .staticKeyword) rfl
    rw [ht] at h
    exact h

/-! ## Around a token -/

section Token

variable (hsh : (ofTree root).Shallow) (h : Stands root s ls) (hl : Ladder root ls)
  (hx : s.token? = some x)

include h hx in
theorem token?_of_stands : (ofTree root).token? (some s.index) = some x.kind := by
  rw [token?_ofTree h.mem, hx]
  rfl

include hsh h hl

theorem nodeAbove_isSome (p : NodeKind → Bool) :
    ((ofTree root).nodeAbove (some s.index) p).isSome = !(Frames.above p (frames ls)).isEmpty := by
  rw [nodeAbove_of_stands hsh h hl, isSome_top, ← frames_climbTo, isEmpty_frames]

theorem inAttribute_eq :
    (ofTree root).inAttribute (some s.index) = Frames.inAttribute (frames ls) :=
  nodeAbove_isSome hsh h hl _

/-- A member of the instance is around the token. -/
theorem inInstance_eq :
    (ofTree root).inInstance (some s.index) = Frames.inInstance (frames ls) := by
  have hmember := hl.climbTo NodeKind.isMemberDeclaration
  rw [inInstance, containingMember, nodeAbove_of_stands hsh h hl, parent_top hmember,
    isNode_eq hmember.tail, Frames.inInstance, ← frames_climbTo, frames_tail]
  generalize climbTo NodeKind.isMemberDeclaration ls = ms at hmember
  by_cases hp : Frames.headIs NodeKind.isTypeDeclaration (frames ms).tail = true
  · have hne : ms.isEmpty = false := by
      cases ms with
      | nil => cases hp
      | cons => rfl
    simp [hp, isSome_top, isStatic_top hmember, hne]
  · simp [hp]

omit hsh in
theorem allowsExpression_eq (hx : s.token? = some x) :
    (ofTree root).allowsExpression (some s.index) =
      Frames.allowsExpression x.kind (frames ls) := by
  rw [allowsExpression, token?_of_stands h hx, parent_of_stands h, node?_top hl]
  cases ls <;> rfl

omit hsh in
theorem allowsStatement_eq (hx : s.token? = some x) :
    (ofTree root).allowsStatement (some s.index) = Frames.allowsStatement x.kind (frames ls) := by
  rw [allowsStatement, parent_of_stands h, kind?_top hl, parent_top hl, isNode_eq hl.tail,
    token?_of_stands h hx, frames_tail]
  cases ls with
  | nil => cases x.kind <;> rfl
  | cons l ls =>
    have hnode (n : NodeKind) : (Kind.node l.frame.kind == .node n) = (l.frame.kind == n) := by
      simp [BEq.beq]
    simp only [List.head?_cons, Option.map_some, hnode, Kind.isNode_node]
    cases x.kind <;> rfl

omit hsh h in
theorem isParameterList_eq :
    (ofTree root).isParameterList (top ls) = Frames.isParameterList (frames ls) := by
  rw [isParameterList, node?_beq hl, parent_top hl, isNode_eq hl.tail, frames_tail]
  rfl

omit hsh in
theorem allowsArgumentModifier_eq (hsh : (ofTree root).Shallow) (hx : s.token? = some x) :
    (ofTree root).allowsArgumentModifier (some s.index) =
      Frames.allowsArgumentModifier x.kind (frames ls) := by
  rw [allowsArgumentModifier, token?_of_stands h hx, parent_of_stands h, node?_beq hl,
    inAttribute_eq hsh h hl]
  rfl

omit hsh in
theorem constructorOfColon_eq (hx : s.token? = some x) :
    (ofTree root).constructorOfColon (some s.index) =
      if x.kind == .colon && Frames.headIs (· == .constructorInitializer) (frames ls) &&
        Frames.headIs (· == .constructorDeclaration) (frames ls).tail then top ls.tail else none := by
  rw [constructorOfColon, token?_of_stands h hx, parent_of_stands h, node?_beq hl, parent_top hl,
    node?_beq hl.tail, ← frames_tail]
  rfl

omit hsh h in
/-- The parent of a token is the nearest node of some kind only if it is of that kind. -/
theorem top_beq_climbTo (p : NodeKind → Bool) (hne : ls ≠ []) :
    (top ls == top (climbTo p ls)) = Frames.headIs p (frames ls) := by
  cases hl with
  | nil => exact absurd rfl hne
  | @cons u f ls slot span hu ht hl =>
    show (top _ == top _) = p f.kind
    by_cases hp : p f.kind = true
    · simp [climbTo, hp]
    · have hdrop : climbTo p (⟨u, f⟩ :: ls) = climbTo p ls := by simp [climbTo, hp]
      rw [hdrop, Bool.not_eq_true] at *
      rw [hp, beq_eq_false_iff_ne]
      intro he
      cases hm : climbTo p ls with
      | nil => rw [hm] at he; cases he
      | cons m ms =>
        have hmem : m ∈ ls := by
          have : m ∈ climbTo p ls := by rw [hm]; exact List.mem_cons_self ..
          exact (List.dropWhile_sublist _).mem this
        have hlt := hl.index_lt hu m hmem
        rw [hm] at he
        have heq : u.index = m.site.index := Option.some.inj he
        omega

/-- The nearest type around a token stands somewhere, unless the token closes it and no other type
is around it. -/
theorem containingType_isSome (hx : s.token? = some x) :
    ((ofTree root).containingType (some s.index)).isSome =
      Frames.containsType x.kind (frames ls) := by
  have htype := hl.climbTo NodeKind.isTypeDeclaration
  rw [containingType, token?_of_stands h hx, parent_of_stands h, nodeAbove_of_stands hsh h hl,
    nodeAbove_top hsh htype, Frames.containsType, ← frames_climbTo, ← frames_tail, ← frames_climbTo,
    isEmpty_frames, isEmpty_frames]
  by_cases hls : ls = []
  · subst hls
    cases x.kind <;> rfl
  · rw [top_beq_climbTo hl _ hls]
    have hkind : (some x.kind == some TokenKind.closeBrace) = (x.kind == .closeBrace) := rfl
    rw [hkind]
    split <;> exact isSome_top _

end Token

/-! ## Parameters -/

section Parameters

variable {l m : Level}

/-- A tree is the first item of a list if no item stands before it. -/
theorem head?_items {before after : List Tree} {child : Tree} (hc : child.slot = .item)
    (parent : Ref) (base : Nat) :
    (((Tree.childSites parent base (before ++ child :: after)).filter
      (·.tree.slot == .item)).head?.map Site.index == some (base + Tree.sizes before + child.size - 1)) =
      before.all (·.slot != .item) := by
  rw [Tree.childSites_append, Tree.childSites, List.filter_append]
  cases hb : (Tree.childSites parent base before).filter (·.tree.slot == .item) with
  | nil =>
    have hall : before.all (·.slot != .item) = true := by
      rw [← Tree.map_tree_childSites parent base before, List.all_map, List.all_eq_true]
      intro s hs
      simpa using List.filter_eq_nil_iff.1 hb s hs
    simp [hc, hall, Site.index]
  | cons v vs =>
    have hv : v ∈ (Tree.childSites parent base before).filter (·.tree.slot == .item) := by
      rw [hb]; exact List.mem_cons_self ..
    obtain ⟨hmem, hslot⟩ := List.mem_filter.1 hv
    obtain ⟨us, ws, rfl, -, hbase⟩ := Tree.mem_childSites.1 hmem
    have hall : (us ++ v.tree :: ws).all (·.slot != .item) = false := by
      simp_all
    have := v.tree.size_pos
    have := child.size_pos
    rw [hall, Tree.sizes_append, Tree.sizes]
    simp [Site.index, hbase]
    omega

/-- The parameter is the first of its list. -/
theorem isFirst_eq (hroot : root.WellFormed) (hl : Ladder root (l :: m :: ls))
    (hp : l.frame.kind = .parameter) (hq : m.frame.kind = .parameterList) :
    (((ofTree root).list? (top (m :: ls))).bind List.head? == some (top (l :: m :: ls))) =
      m.frame.isFirstItem := by
  cases hl with
  | @cons u f _ slot span hu ht hl =>
    cases hl with
    | @cons v g _ slot' span' hv ht' hl =>
      obtain ⟨hchild, hbase⟩ := hu.child _ rfl
      -- parameters are items
      have hslot : g.child.slot = .item := by
        have hw := hroot.of_mem_sites hv.mem
        rw [ht'] at hw
        cases hw with
        | node covers _ =>
          have hallows := covers.allows g.child (by simp [Frame.children])
          rw [hchild, ht, hq] at hallows
          rw [hchild, ht]
          simp [NodeKind.pattern, Pattern.allows, Pattern.mark, Pattern.leaf, Pattern.node,
            Pattern.separated, Pattern.opt, Tree.kind, Kind.isToken, Kind.token?] at hallows
          exact hallows.1
      have hitems : (ofTree root).list? (some v.index) = some
          (((Tree.childSites (some v.index) v.base (g.before ++ g.child :: g.after)).filter
            (·.tree.slot == .item)).map fun s => some s.index) := by
        rw [list?, data_ofTree hv.mem, Site.data_entry ht', hq, Site.children, ht']
        simp only [Data.ofChildren, NodeKind.shape?, Child.listIn, List.filter_map, List.map_map,
          Tree.children, Frame.children]
        rfl
      have hfirst := @head?_items g.before g.after g.child hslot (some v.index) v.base
      have hindex : v.base + Tree.sizes g.before + g.child.size - 1 = u.index := by
        rw [Site.index, hbase, hchild]
      rw [hindex] at hfirst
      show (((ofTree root).list? (some v.index)).bind List.head? == some (some u.index)) = _
      rw [hitems, Option.bind_some, List.head?_map, Frame.isFirstItem, ← hfirst]
      cases ((Tree.childSites (some v.index) v.base (g.before ++ g.child :: g.after)).filter
        (·.tree.slot == .item)).head? <;> rfl

/-- A modifier may follow the attributes of a parameter. -/
theorem afterAttributes_eq (hroot : root.WellFormed) (hl : Ladder root ls) (onlyFirst : Bool) :
    ((ofTree root).node? (top ls) == some .attributeList &&
      (ofTree root).node? (top ls.tail) == some .parameter &&
      (ofTree root).isParameterList (top ls.tail.tail) &&
      (!onlyFirst || ((ofTree root).list? (top ls.tail.tail)).bind List.head? == some (top ls.tail)))
      = Frames.allowsParameterModifier .closeBracket (frames ls) onlyFirst := by
  rw [node?_top hl, node?_top hl.tail, isParameterList_eq hl.tail.tail]
  match ls, hl with
  | [], _ => rfl
  | [_], _ => simp [frames, Frames.allowsParameterModifier, Frames.headIs]
  | [_, _], _ =>
    simp [frames, Frames.allowsParameterModifier, Frames.headIs, Frames.isParameterList]
  | _ :: p :: q :: ls, hl =>
    by_cases hp : p.frame.kind = .parameter
    · by_cases hq : q.frame.kind = .parameterList
      · rw [List.tail_cons, List.tail_cons, isFirst_eq hroot hl.tail hp hq]
        rfl
      · simp [frames, Frames.allowsParameterModifier, Frames.headIs, Frames.isParameterList,
          beq_eq_false_iff_ne.2 hq]
    · simp [frames, Frames.allowsParameterModifier, Frames.headIs, beq_eq_false_iff_ne.2 hp]

theorem allowsParameterModifier_eq (hroot : root.WellFormed) (h : Stands root s ls)
    (hl : Ladder root ls) (hx : s.token? = some x) {left : Ref} {offset : Nat}
    (hleft : (ofTree root).beforeTouchedWord left offset = some s.index) (onlyFirst : Bool) :
    (ofTree root).allowsParameterModifier offset left onlyFirst =
      Frames.allowsParameterModifier x.kind (frames ls) onlyFirst := by
  have hbracket := afterAttributes_eq hroot hl onlyFirst
  unfold allowsParameterModifier
  simp only [hleft, parent_of_stands h, parent_top hl, parent_top hl.tail, token?_of_stands h hx,
    hbracket, isParameterList_eq hl]
  cases x.kind <;> rfl

end Parameters

/-! ## Methods -/

section Methods

variable (hsh : (ofTree root).Shallow) (hl : Ladder root ls) {c : Context}
  (hc : c.table = ofTree root)
  (hleft : (ofTree root).nodeAbove c.left (· == .methodDeclaration) =
    top (climbTo (· == .methodDeclaration) ls))

include hsh hl hc hleft

theorem inMethod_eq : c.inMethod = Frames.inMethod (frames ls) := by
  have hmethod := hl.climbTo (· == .methodDeclaration)
  rw [Context.inMethod, hc, hleft, nodeAbove_top hsh hmethod, isSome_top, isSome_top,
    Frames.inMethod, ← frames_climbTo, ← frames_tail, ← frames_climbTo, isEmpty_frames,
    isEmpty_frames]

theorem inStaticMethod_eq : c.inStaticMethod = Frames.inStaticMethod (frames ls) := by
  have hmethod := hl.climbTo (· == .methodDeclaration)
  have htype := hmethod.tail.climbTo NodeKind.isTypeDeclaration
  rw [Context.inStaticMethod, hc, hleft, nodeAbove_top hsh hmethod, node?_beq htype,
    isStatic_top hmethod, isStatic_top htype, Frames.inStaticMethod, ← frames_climbTo,
    ← frames_tail, ← frames_climbTo]

end Methods

end NodeTable

end Caret
