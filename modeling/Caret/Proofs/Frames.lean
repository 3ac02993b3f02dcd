import Caret.Proofs.NodePattern
import Mathlib.Data.List.Forall2
/-!
# What is around a token

A frame is a node with one of its children singled out. `Holds x t fs` says that the token `x` is a
leaf of the tree `t`, and which frames are around it, the outermost first.

Two texts that begin alike have trees that are alike around the last token that they share, but not
the same: what follows the token may make the expression around it a part of a larger one, and may
decide what kind of declaration some attributes and a type belong to. So frames of expressions that
go on are left out (`core`), and in attributes and type references nothing else is compared
(`Quiet`).
-/

namespace Caret

/-- A node with one of its children. -/
structure Frame where
  kind : NodeKind
  before : List Tree
  child : Tree
  after : List Tree

namespace Frame

/-- All children of the node. -/
def children (f : Frame) : List Tree := f.before ++ f.child :: f.after

/-- The nodes are of one kind, and agree before the child and in its slot. -/
structure Like (f g : Frame) : Prop where
  kind : f.kind = g.kind
  before : f.before = g.before
  slot : f.child.slot = g.child.slot

end Frame

/-- A node that a finished expression may become the first part of. -/
def NodeKind.isExtension : NodeKind → Bool
  | .binaryExpression | .assignmentExpression | .memberAccessExpression
  | .invocationExpression => true
  | _ => false

namespace Tree

/-- The token is a leaf of the tree, in these frames. -/
inductive Holds (x : Token) : Tree → List Frame → Prop
  | leaf (s) : Holds x (.leaf s x) []
  | node {s span fs} (f : Frame) : Holds x f.child fs →
      Holds x (.node s f.kind span f.children) (f :: fs)

variable {x : Token} {t : Tree} {fs : List Frame}

/-- A leaf of a child is in the frame that the node makes around the child. -/
theorem Holds.child {u : Tree} (h : Holds x u fs) (s : Slot) (k : NodeKind) (span : Span)
    (before after : List Tree) :
    Holds x (.node s k span (before ++ u :: after)) (⟨k, before, u, after⟩ :: fs) :=
  .node ⟨k, before, u, after⟩ h

theorem Holds.withSlot (h : Holds x t fs) (s : Slot) : Holds x (t.withSlot s) fs := by
  cases h with
  | leaf => exact .leaf s
  | node f h => exact .node f h

/-- The frames are nodes of the tree. -/
theorem Holds.wellFormed (h : Holds x t fs) (ht : t.WellFormed) :
    ∀ f ∈ fs, f.kind.pattern.Covers f.children ∧ ∀ u ∈ f.children, u.WellFormed := by
  induction h with
  | leaf => simp
  | node f _ ih =>
    cases ht with
    | node covers inside =>
      refine List.forall_mem_cons.2 ⟨⟨covers, inside⟩, ih (inside _ ?_)⟩
      simp [Frame.children]

end Tree

/-! ## Frames that stay as they are -/

/-- The frames without those of expressions that go on around the token. -/
def core : List Frame → List Frame
  | [] => []
  | [f] => [f]
  | f :: g :: fs => if f.kind.isExtension then core (g :: fs) else f :: core (g :: fs)

theorem core_cons {f : Frame} {fs : List Frame} (h : fs ≠ []) :
    core (f :: fs) = if f.kind.isExtension then core fs else f :: core fs := by
  cases fs with
  | nil => exact absurd rfl h
  | cons g fs => rfl

theorem core_eq_nil {fs : List Frame} : core fs = [] ↔ fs = [] := by
  constructor
  · intro h
    induction fs with
    | nil => rfl
    | cons f fs ih =>
      cases fs with
      | nil => cases h
      | cons g fs =>
        rw [core] at h
        split at h
        · cases ih h
        · cases h
  · rintro rfl
    rfl

/-- Frames around an expression that goes on leave its core as it is. -/
theorem core_append {ws fs : List Frame} (hw : ∀ f ∈ ws, f.kind.isExtension) (h : fs ≠ []) :
    core (ws ++ fs) = core fs := by
  induction ws with
  | nil => rfl
  | cons f ws ih =>
    obtain ⟨hf, hws⟩ := List.forall_mem_cons.1 hw
    rw [List.cons_append, core_cons (List.append_ne_nil_of_right_ne_nil _ h), if_pos hf, ih hws]

/-- The frames are alike but for those of expressions that go on. -/
def Similar (fs gs : List Frame) : Prop := List.Forall₂ Frame.Like (core fs) (core gs)

theorem Similar.nil_iff {fs gs : List Frame} (h : Similar fs gs) : fs = [] ↔ gs = [] := by
  have hl := List.Forall₂.length_eq h
  rw [← core_eq_nil, ← @core_eq_nil gs, ← List.length_eq_zero_iff,
    ← List.length_eq_zero_iff, hl]

theorem Similar.cons {f g : Frame} {fs gs : List Frame} (h : Similar fs gs) (hf : f.Like g) :
    Similar (f :: fs) (g :: gs) := by
  by_cases hfs : fs = []
  · rw [h.nil_iff.1 hfs, hfs]
    exact List.Forall₂.cons hf .nil
  · have hgs : gs ≠ [] := fun e => hfs (h.nil_iff.2 e)
    rw [Similar, core_cons hfs, core_cons hgs, hf.kind]
    split
    · exact h
    · exact .cons hf h

/-! ## Frames in which nothing may be suggested -/

/-- The token is in an attribute, right in a type reference, or right in the attributes of what is
no parameter. -/
inductive Quiet : List Frame → Prop
  | inAttribute {fs f} : f ∈ fs → f.kind = .attribute → Quiet fs
  | inType {fs f} : f.kind = .typeReference → Quiet (fs ++ [f])
  | inAttributes {fs g f} : g.kind ≠ .parameter → f.kind = .attributeList → Quiet (fs ++ [g, f])

theorem Quiet.append {fs : List Frame} (h : Quiet fs) (ws : List Frame) : Quiet (ws ++ fs) := by
  cases h with
  | inAttribute hf hk => exact .inAttribute (List.mem_append_right _ hf) hk
  | inType hk => rw [← List.append_assoc]; exact .inType hk
  | inAttributes hg hk => rw [← List.append_assoc]; exact .inAttributes hg hk

section Tokens

open Pattern

variable {x : Token} {u : Tree} {fs : List Frame}

/-- A token of a node is in a child that the pattern of the node allows. -/
theorem Tree.Holds.exists_frame {k : NodeKind} (h : u.Holds x fs) (hu : u.WellFormed)
    (hk : u.kind = .node k) : ∃ f gs, fs = f :: gs ∧ f.kind = k ∧ f.child.Holds x gs ∧
      k.pattern.allows f.child.slot f.child.kind := by
  cases h with
  | leaf => simp [Tree.kind] at hk
  | @node _ _ gs f hf =>
    obtain rfl : f.kind = k := by simpa [Tree.kind] using hk
    cases hu with
    | node covers _ =>
      exact ⟨f, gs, rfl, rfl, hf, covers.allows f.child (by simp [Frame.children])⟩

/-- A token in attributes that do not belong to a parameter. -/
theorem Quiet.of_attributes {g : Frame} (h : u.Holds x fs) (hu : u.WellFormed)
    (hk : u.kind = .node .attributeList) (hg : g.kind ≠ .parameter) : Quiet (g :: fs) := by
  obtain ⟨f, gs, rfl, hkind, hf, hallows⟩ := h.exists_frame hu hk
  generalize f.child = v at hf hallows
  cases hf with
  | leaf => exact @Quiet.inAttributes [] g f hg hkind
  | node f' hf' =>
    -- no other node stands in a list of attributes
    have hattribute : f'.kind = .attribute := by
      simp [NodeKind.pattern, separated, opt, mark, leaf, node, allows, Tree.kind,
        Kind.isToken, Kind.token?] at hallows
      exact hallows.2
    exact .inAttribute (f := f') (by simp) hattribute

/-- A token in a type reference stands right in it. -/
theorem Quiet.of_type (h : u.Holds x fs) (hu : u.WellFormed) (hk : u.kind = .node .typeReference) :
    Quiet fs := by
  obtain ⟨f, gs, rfl, hkind, hf, hallows⟩ := h.exists_frame hu hk
  generalize f.child = v at hf hallows
  cases hf with
  | leaf => exact @Quiet.inType [] f hkind
  | node f' hf' =>
    simp [NodeKind.pattern, opt, mark, leaf, allows, Tree.kind, Kind.isToken, Kind.token?,
      qualified] at hallows

end Tokens

/-! ## Trees that are alike around a token -/

/-- Both trees hold the token, in the same slot and in frames that are alike. -/
structure Alike (x : Token) (t t' : Tree) : Prop where
  slot : t.slot = t'.slot
  frames : ∃ fs gs, t.Holds x fs ∧ t'.Holds x gs ∧ (Similar fs gs ∨ Quiet fs ∧ Quiet gs)

/-- The forests are the same up to trees that are alike around the token. -/
inductive Twin (x : Token) : List Tree → List Tree → Prop
  | mk {u u'} (before after after' : List Tree) : Alike x u u' →
      Twin x (before ++ u :: after) (before ++ u' :: after')

namespace Alike

variable {x : Token} {t t' : Tree} {ts ts' : List Tree}

theorem leaf (x : Token) (s : Slot) : Alike x (.leaf s x) (.leaf s x) :=
  ⟨rfl, [], [], .leaf s, .leaf s, .inl List.Forall₂.nil⟩

theorem withSlot (h : Alike x t t') (s : Slot) : Alike x (t.withSlot s) (t'.withSlot s) := by
  obtain ⟨fs, gs, hf, hg, hfg⟩ := h.frames
  exact ⟨by simp, fs, gs, hf.withSlot s, hg.withSlot s, hfg⟩

/-- Nodes of one kind around forests that are alike. -/
theorem node (h : Twin x ts ts') (s : Slot) (k : NodeKind) (span span' : Span) :
    Alike x (.node s k span ts) (.node s k span' ts') := by
  cases h with
  | @mk u u' before after after' hu =>
    obtain ⟨fs, gs, hf, hg, hfg⟩ := hu.frames
    refine ⟨rfl, ⟨k, before, u, after⟩ :: fs, ⟨k, before, u', after'⟩ :: gs,
      hf.child .., hg.child .., ?_⟩
    rcases hfg with h | ⟨hq, hq'⟩
    · exact .inl (h.cons ⟨rfl, rfl, hu.slot⟩)
    · exact .inr ⟨hq.append [_], hq'.append [_]⟩

end Alike

namespace Twin

variable {x : Token} {t t' : Tree} {ts ts' : List Tree}

theorem single (h : Alike x t t') : Twin x [t] [t'] := .mk [] [] [] h

theorem append (h : Twin x ts ts') (us us' : List Tree) : Twin x (ts ++ us) (ts' ++ us') := by
  cases h with
  | mk before after after' h =>
    rw [List.append_assoc, List.append_assoc]
    exact .mk before _ _ h

theorem prepend (h : Twin x ts ts') (us : List Tree) : Twin x (us ++ ts) (us ++ ts') := by
  cases h with
  | mk before after after' h =>
    rw [← List.append_assoc, ← List.append_assoc]
    exact .mk _ _ _ h

theorem of_single (h : Twin x [t] [t']) : Alike x t t' := by
  generalize hs : [t] = us at h
  generalize hs' : [t'] = us' at h
  cases h with
  | mk before after after' h =>
    cases before with
    | nil =>
      obtain ⟨rfl, -⟩ := List.cons.inj hs
      obtain ⟨rfl, -⟩ := List.cons.inj hs'
      exact h
    | cons => simp at hs

theorem ne_nil (h : Twin x ts ts') : ts ≠ [] ∧ ts' ≠ [] := by
  cases h with | mk => simp

/-- The token is a leaf of the first forest and of the second. -/
theorem holds (h : Twin x ts ts') : (∃ u ∈ ts, ∃ fs, u.Holds x fs) ∧ ∃ u ∈ ts', ∃ fs, u.Holds x fs := by
  cases h with
  | @mk u u' before after after' h =>
    obtain ⟨fs, gs, hf, hg, -⟩ := h.frames
    exact ⟨⟨u, by simp, fs, hf⟩, ⟨u', by simp, gs, hg⟩⟩

end Twin

/-! ## Expressions that go on -/

namespace Tree

/-- The second tree is the first, or an expression that goes on from it. -/
inductive Begins (t : Tree) : Tree → Prop
  | refl : Begins t t
  | extend {u s k span rest} : Begins t u → NodeKind.isExtension k →
      Begins t (.node .loose k span (u.withSlot s :: rest))

theorem Begins.holds {x : Token} {t u : Tree} {fs : List Frame} (h : Begins t u)
    (ht : t.Holds x fs) : ∃ ws, u.Holds x (ws ++ fs) ∧ ∀ f ∈ ws, f.kind.isExtension := by
  induction h with
  | refl => exact ⟨[], ht, by simp⟩
  | @extend u s k span rest _ hk ih =>
    obtain ⟨ws, hu, hw⟩ := ih
    refine ⟨⟨k, [], u.withSlot s, rest⟩ :: ws, ?_, List.forall_mem_cons.2 ⟨hk, hw⟩⟩
    exact (hu.withSlot s).child .loose k span [] rest

theorem Begins.slot {t u : Tree} (h : Begins t u) (ht : t.slot = .loose) : u.slot = .loose := by
  cases h with
  | refl => exact ht
  | extend => rfl

end Tree

theorem Alike.begins {x : Token} {s s' : Slot} {k k' : NodeKind} {span span' : Span}
    {ts ts' : List Tree} {u u' : Tree} (h : Alike x (.node s k span ts) (.node s' k' span' ts'))
    (hu : Tree.Begins (.node s k span ts) u) (hu' : Tree.Begins (.node s' k' span' ts') u')
    (hs : u.slot = u'.slot) : Alike x u u' := by
  obtain ⟨fs, gs, hf, hg, hfg⟩ := h.frames
  obtain ⟨ws, hw, hws⟩ := hu.holds hf
  obtain ⟨ws', hw', hws'⟩ := hu'.holds hg
  refine ⟨hs, _, _, hw, hw', ?_⟩
  have hne {s k span ts fs} (h : Tree.Holds x (.node s k span ts) fs) : fs ≠ [] := by
    cases h with | node => simp
  rcases hfg with h | ⟨hq, hq'⟩
  · left
    rw [Similar, core_append hws (hne hf), core_append hws' (hne hg)]
    exact h
  · exact .inr ⟨hq.append _, hq'.append _⟩

end Caret
