import Caret.Proofs.Surroundings
import Mathlib.Data.List.Chain
/-!
# Questions about frames that are alike

The frames of one token in two trees that are alike correspond, but for those of expressions that
go on. No question about frames depends on these, and none on what stands behind the token, so both
trees give the same answers (`Matched.admits`).
-/

namespace Caret

open Pattern

namespace Frame

/-- The node of the second frame is the child of the first. -/
def Within (f g : Frame) : Prop := f.kind.pattern.allows f.child.slot (.node g.kind)

/-- What stands behind the child does not decide whether the node is declared `static`. -/
def Told (f : Frame) : Prop := f.isStatic =
  f.before.any fun t => t.slot == .modifier && t.kind == .token .staticKeyword

theorem Like.told {f g : Frame} (h : f.Like g) (hf : f.Told) (hg : g.Told) :
    f.isStatic = g.isStatic := by
  rw [hf, hg, h.before]

end Frame

theorem NodeKind.pattern_settled (k : NodeKind) : k.pattern.settled := by
  cases k <;> rfl

/-- Behind a child that is no part of the head there are no modifiers. -/
theorem Frame.told_of_covers {f : Frame} (hc : f.kind.pattern.Covers f.children)
    (hs : inHead f.child.slot = false) : f.Told := by
  have hafter := hc.settled f.kind.pattern_settled rfl hs
  have hnone : f.after.any (fun t => t.slot == .modifier && t.kind == .token .staticKeyword) =
      false := by
    rw [List.any_eq_false]
    intro t ht
    simp [hafter t ht]
  have hchild : (f.child.slot == .modifier) = false := by
    simp only [inHead, Bool.or_eq_false_iff] at hs
    exact hs.2
  rw [Told, isStatic, children, List.any_append, List.any_cons, hnone, hchild]
  simp

/-! ## Frames of one tree -/

/-- What holds of the frames of a token outside of attributes, the nearest first. -/
structure Sound (fs : List Frame) : Prop where
  nested : fs.IsChain fun g f => f.Within g
  told : ∀ f ∈ fs, f.kind.isExtension = false → f.kind ≠ .parameter → f.Told

theorem Sound.suffix {fs gs : List Frame} (h : Sound fs) (hs : gs <:+ fs) : Sound gs :=
  ⟨h.nested.suffix hs, fun f hf => h.told f (hs.subset hf)⟩

theorem Sound.tail {fs : List Frame} (h : Sound fs) : Sound fs.tail := h.suffix (List.tail_suffix fs)

/-- A node that is no expression and no list of arguments. -/
def NodeKind.isFirm (k : NodeKind) : Bool := !k.isExpression && k != .argumentList

/-- The property is one of firm nodes only. -/
def firm (p : NodeKind → Bool) : Bool := NodeKind.all.all fun k => !p k || k.isFirm

theorem isFirm_of_firm {p : NodeKind → Bool} (hp : firm p) {k : NodeKind} (h : p k) : k.isFirm := by
  have hk := List.all_eq_true.1 hp k k.mem_all
  simpa [h] using hk

theorem eq_false_of_firm {p : NodeKind → Bool} (hp : firm p) {k : NodeKind} (h : k.isExtension) :
    p k = false := by
  have hk : k.isFirm = false := by cases k <;> first | rfl | cases h
  cases hpk : p k with
  | false => rfl
  | true => rw [isFirm_of_firm hp hpk] at hk; cases hk

/-- The nearest node is not an expression that goes on. -/
def Solid (fs : List Frame) : Prop := ∀ f ∈ fs.head?, f.kind.isExtension = false

/-- Only expressions and lists of arguments stand right in expressions that go on. -/
theorem NodeKind.isFirm_of_allows {k n : NodeKind} {s : Slot} (hk : k.isExtension)
    (h : k.pattern.allows s (.node n)) : n.isFirm = false := by
  have ho : k.pattern.onlyNodes (!·.isFirm) := by cases k <;> first | rfl | cases hk
  simpa using of_allows_node ho h

theorem Sound.solid_tail {f : Frame} {fs : List Frame} (h : Sound (f :: fs)) (hf : f.kind.isFirm) :
    Solid fs := by
  intro g hg
  obtain ⟨gs, rfl⟩ : ∃ gs, fs = g :: gs := List.head?_eq_some_iff.1 hg
  have hw : g.Within f := (List.isChain_cons_cons.1 h.nested).1
  cases hx : g.kind.isExtension with
  | false => rfl
  | true =>
    rw [NodeKind.isFirm_of_allows hx hw] at hf
    cases hf

/-! ## Frames of two trees -/

/-- The frames are alike but for those of expressions that go on. -/
structure Corresponds (fs gs : List Frame) : Prop where
  like : List.Forall₂ Frame.Like (fs.filter (!·.kind.isExtension)) (gs.filter (!·.kind.isExtension))
  sound : Sound fs
  sound' : Sound gs

/-- So are the frames of the nearest nodes. -/
inductive Matched : List Frame → List Frame → Prop
  | nil : Matched [] []
  | cons {f g : Frame} {fs gs : List Frame} : f.Like g → Corresponds (f :: fs) (g :: gs) →
      Corresponds fs gs → Matched (f :: fs) (g :: gs)

theorem Corresponds.matched {fs gs : List Frame} (h : Corresponds fs gs) (hf : Solid fs)
    (hg : Solid gs) : Matched fs gs := by
  obtain ⟨hlike, hs, hs'⟩ := h
  cases fs with
  | nil =>
    cases gs with
    | nil => exact .nil
    | cons g gs => simp [hg g rfl] at hlike
  | cons f fs =>
    cases gs with
    | nil => simp [hf f rfl] at hlike
    | cons g gs =>
      rw [List.filter_cons_of_pos (by simp [hf f rfl]), List.filter_cons_of_pos
        (by simp [hg g rfl]), List.forall₂_cons] at hlike
      refine .cons hlike.1 ⟨?_, hs, hs'⟩ ⟨hlike.2, hs.tail, hs'.tail⟩
      rw [List.filter_cons_of_pos (by simp [hf f rfl]), List.filter_cons_of_pos
        (by simp [hg g rfl]), List.forall₂_cons]
      exact hlike

namespace Frames

variable {p : NodeKind → Bool}

/-- What is looked for is no expression that goes on. -/
theorem filter_above (hp : firm p) (fs : List Frame) :
    (above p fs).filter (!·.kind.isExtension) = above p (fs.filter (!·.kind.isExtension)) := by
  induction fs with
  | nil => rfl
  | cons f fs ih =>
    by_cases hx : f.kind.isExtension = true
    · have hf : above p (f :: fs) = above p fs := by simp [above, eq_false_of_firm hp hx]
      rw [hf, ih, List.filter_cons_of_neg (by simp [hx])]
    · rw [List.filter_cons_of_pos (by simp [hx])]
      by_cases hk : p f.kind = true
      · simp [above, hk, hx]
      · simpa [above, hk] using ih

theorem forall₂_above {fs gs : List Frame} (h : List.Forall₂ Frame.Like fs gs) :
    List.Forall₂ Frame.Like (above p fs) (above p gs) := by
  induction h with
  | nil => exact .nil
  | @cons f g fs gs hf h ih =>
    by_cases hk : p f.kind = true
    · have hk' : p g.kind = true := hf.kind ▸ hk
      simpa [above, hk, hk'] using ⟨hf, h⟩
    · have hk' : ¬p g.kind = true := hf.kind ▸ hk
      simpa [above, hk, hk'] using ih

/-- What is found is what was looked for. -/
theorem headIs_above {fs : List Frame} {f : Frame} (hf : f ∈ (above p fs).head?) : p f.kind := by
  have h := List.head?_dropWhile_not (fun f : Frame => !p f.kind) fs
  rw [show (fs.dropWhile fun f => !p f.kind).head? = some f from hf] at h
  simpa using h

theorem solid_above (hp : firm p) (fs : List Frame) :
    Solid (above p fs) := by
  intro f hf
  cases hx : f.kind.isExtension with
  | false => rfl
  | true =>
    have h := headIs_above hf
    rw [eq_false_of_firm hp hx] at h
    cases h

end Frames

open Frames

variable {fs gs : List Frame} {p : NodeKind → Bool}

theorem Corresponds.above (h : Corresponds fs gs) (hp : firm p) :
    Matched (Frames.above p fs) (Frames.above p gs) := by
  refine Corresponds.matched ⟨?_, h.sound.suffix (List.dropWhile_suffix _),
    h.sound'.suffix (List.dropWhile_suffix _)⟩ (solid_above hp fs) (solid_above hp gs)
  rw [filter_above hp, filter_above hp]
  exact forall₂_above h.like

namespace Matched

theorem corresponds (h : Matched fs gs) : Corresponds fs gs := by
  cases h with
  | nil => exact ⟨.nil, ⟨.nil, by simp⟩, ⟨.nil, by simp⟩⟩
  | cons _ h _ => exact h

theorem headIs (h : Matched fs gs) (p : NodeKind → Bool) :
    Frames.headIs p fs = Frames.headIs p gs := by
  cases h with
  | nil => rfl
  | @cons f g fs gs hf _ _ =>
    show p f.kind = p g.kind
    rw [hf.kind]

theorem isEmpty (h : Matched fs gs) : fs.isEmpty = gs.isEmpty := by
  cases h <;> rfl

theorem isFirstItem (h : Matched fs gs) :
    fs.head?.any Frame.isFirstItem = gs.head?.any Frame.isFirstItem := by
  cases h with
  | nil => rfl
  | @cons f g fs gs hf _ _ =>
    show f.isFirstItem = g.isFirstItem
    rw [Frame.isFirstItem, Frame.isFirstItem, hf.before]

/-- The same modifiers stand before the child. -/
theorem static (h : Matched fs gs) (hp : firm p) (hhead : Frames.headIs p fs)
    (hn : p .parameter = false) : Frames.static fs = Frames.static gs := by
  cases h with
  | nil => rfl
  | @cons f g fs gs hf h _ =>
    have hpf : p f.kind = true := hhead
    have hx : f.kind.isExtension = false := by
      cases hx : f.kind.isExtension with
      | false => rfl
      | true => rw [eq_false_of_firm hp hx] at hpf; cases hpf
    have hk : f.kind ≠ .parameter := by
      rintro e
      rw [e, hn] at hpf
      cases hpf
    exact hf.told (h.sound.told f (by simp) hx hk)
      (h.sound'.told g (by simp) (hf.kind ▸ hx) (hf.kind ▸ hk))

/-- What is around a node that is no part of an expression. -/
theorem tail (h : Matched fs gs) (hp : firm p) (hhead : Frames.headIs p fs) :
    Matched fs.tail gs.tail := by
  cases h with
  | nil => exact .nil
  | @cons f g fs gs hf h ht =>
    have hk : f.kind.isFirm := isFirm_of_firm hp hhead
    exact ht.matched (h.sound.solid_tail hk) (h.sound'.solid_tail (hf.kind ▸ hk))

theorem above (h : Matched fs gs) (hp : firm p) :
    Matched (Frames.above p fs) (Frames.above p gs) := h.corresponds.above hp

theorem headIs_or_nil (p : NodeKind → Bool) (fs : List Frame) :
    Frames.above p fs = [] ∨ Frames.headIs p (Frames.above p fs) := by
  cases h : Frames.above p fs with
  | nil => exact .inl rfl
  | cons f gs =>
    have hmem : f ∈ (Frames.above p fs).head? := by rw [h]; rfl
    have hf : p f.kind = true := headIs_above hmem
    exact .inr hf

/-! ## The answers -/

section Answers

variable (h : Matched fs gs)

include h

theorem tail_above (hp : firm p) :
    Matched (Frames.above p fs).tail (Frames.above p gs).tail := by
  have hm := h.above hp
  have hhead := headIs_or_nil p fs
  generalize Frames.above p fs = l at hm hhead ⊢
  generalize Frames.above p gs = l' at hm ⊢
  cases hm with
  | nil => exact .nil
  | cons hf hc ht => exact Matched.tail (.cons hf hc ht) hp (hhead.resolve_left (by simp))

theorem static_above (hp : firm p) (hn : p .parameter = false) :
    Frames.static (Frames.above p fs) = Frames.static (Frames.above p gs) := by
  have hm := h.above hp
  rcases headIs_or_nil p fs with hnil | hhead
  · have hnil' := hm.isEmpty
    rw [hnil, List.isEmpty_nil] at hnil'
    rw [hnil, List.isEmpty_iff.1 hnil'.symm]
  · exact hm.static hp hhead hn

theorem inInstance : Frames.inInstance fs = Frames.inInstance gs := by
  have hp : firm NodeKind.isMemberDeclaration := rfl
  rw [Frames.inInstance, Frames.inInstance, h.static_above hp rfl, (h.tail_above hp).headIs]

theorem inAttribute : Frames.inAttribute fs = Frames.inAttribute gs := by
  have hp : firm (· == .attribute) := rfl
  rw [Frames.inAttribute, Frames.inAttribute, (h.above hp).isEmpty]

theorem allowsExpression (k : TokenKind) :
    Frames.allowsExpression k fs = Frames.allowsExpression k gs := h.headIs _

/-- A question about the nearest node and the one around it. -/
theorem headIs_and_tail (hp : firm p) {q q' : Bool}
    (hq : Matched fs.tail gs.tail → q = q') :
    (Frames.headIs p fs && q) = (Frames.headIs p gs && q') := by
  rw [← h.headIs]
  cases hhead : Frames.headIs p fs with
  | false => rfl
  | true => rw [hq (h.tail hp hhead)]

theorem allowsStatement (k : TokenKind) :
    Frames.allowsStatement k fs = Frames.allowsStatement k gs := by
  have hstatement : (Frames.headIs NodeKind.isStatement fs &&
      Frames.headIs NodeKind.isStatementContainer fs.tail) =
      (Frames.headIs NodeKind.isStatement gs &&
        Frames.headIs NodeKind.isStatementContainer gs.tail) :=
    h.headIs_and_tail rfl (·.headIs _)
  have hblock : (Frames.headIs (· == .block) fs &&
      Frames.headIs NodeKind.isStatementContainer fs.tail) =
      (Frames.headIs (· == .block) gs && Frames.headIs NodeKind.isStatementContainer gs.tail) :=
    h.headIs_and_tail rfl (·.headIs _)
  unfold Frames.allowsStatement
  split
  · exact h.headIs _
  · exact hstatement
  · exact hblock
  · exact h.headIs _
  · exact h.headIs _
  · rfl

theorem isParameterList : Frames.isParameterList fs = Frames.isParameterList gs :=
  h.headIs_and_tail rfl (·.headIs _)

theorem allowsParameterModifier (k : TokenKind) (onlyFirst : Bool) :
    Frames.allowsParameterModifier k fs onlyFirst =
      Frames.allowsParameterModifier k gs onlyFirst := by
  unfold Frames.allowsParameterModifier
  split
  · exact h.isParameterList
  · rw [h.isParameterList]
  · rw [Bool.and_assoc, Bool.and_assoc, Bool.and_assoc, Bool.and_assoc]
    refine h.headIs_and_tail rfl fun hparameter => ?_
    refine hparameter.headIs_and_tail rfl fun hlist => ?_
    rw [hlist.isParameterList, hlist.isFirstItem]
  · rfl

theorem allowsArgumentModifier (k : TokenKind) :
    Frames.allowsArgumentModifier k fs = Frames.allowsArgumentModifier k gs := by
  rw [Frames.allowsArgumentModifier, Frames.allowsArgumentModifier, h.headIs, h.inAttribute]

theorem initializes (k : TokenKind) : Frames.initializes k fs = Frames.initializes k gs := by
  unfold Frames.initializes
  rw [Bool.and_assoc, Bool.and_assoc, Bool.and_assoc, Bool.and_assoc]
  congr 1
  refine h.headIs_and_tail rfl fun hconstructor => ?_
  rw [← hconstructor.headIs]
  cases hhead : Frames.headIs (· == .constructorDeclaration) fs.tail with
  | false => rfl
  | true => rw [hconstructor.static rfl hhead rfl]

/-- The constructor that a token opens the initializer of is one of a class. -/
theorem initializes_class (k : TokenKind) :
    (Frames.initializes k fs && Frames.headIs (· == .classDeclaration) fs.tail.tail) =
      (Frames.initializes k gs && Frames.headIs (· == .classDeclaration) gs.tail.tail) := by
  rw [← h.initializes]
  cases hi : Frames.initializes k fs with
  | false => rfl
  | true =>
    simp only [Frames.initializes, Bool.and_eq_true] at hi
    obtain ⟨⟨⟨-, hinitializer⟩, hconstructor⟩, -⟩ := hi
    rw [((h.tail rfl hinitializer).tail rfl hconstructor).headIs]

theorem containsType (k : TokenKind) : Frames.containsType k fs = Frames.containsType k gs := by
  have hp : firm NodeKind.isTypeDeclaration := rfl
  rw [Frames.containsType, Frames.containsType, h.headIs, (h.above hp).isEmpty,
    ((h.tail_above hp).above hp).isEmpty]

theorem inMethod : Frames.inMethod fs = Frames.inMethod gs := by
  have hp : firm (· == .methodDeclaration) := rfl
  rw [Frames.inMethod, Frames.inMethod, (h.above hp).isEmpty,
    ((h.tail_above hp).above (p := NodeKind.isTypeDeclaration) rfl).isEmpty]

theorem inStaticMethod : Frames.inStaticMethod fs = Frames.inStaticMethod gs := by
  have hp : firm (· == .methodDeclaration) := rfl
  have hq : firm NodeKind.isTypeDeclaration := rfl
  have hmethod := h.tail_above hp
  rw [Frames.inStaticMethod, Frames.inStaticMethod, h.static_above hp rfl,
    hmethod.static_above hq rfl, (hmethod.above hq).headIs]

theorem startsInInstance (k : TokenKind) :
    Frames.startsInInstance k fs = Frames.startsInInstance k gs := by
  rw [Frames.startsInInstance, Frames.startsInInstance, h.inInstance, h.allowsExpression,
    h.inAttribute, h.allowsStatement]

/-- The same keywords may stand behind the token. -/
theorem admits (w : Keyword) (k : TokenKind) : Frames.admits w k fs = Frames.admits w k gs := by
  cases w with
  | this =>
    rw [Frames.admits, Frames.admits, h.startsInInstance, h.initializes,
      h.allowsParameterModifier, h.inMethod, h.inStaticMethod]
  | base =>
    rw [Frames.admits, Frames.admits, h.containsType, h.startsInInstance, h.initializes_class]
  | ref | out =>
    rw [Frames.admits, Frames.admits, h.allowsParameterModifier, h.allowsArgumentModifier]
  | params => exact h.allowsParameterModifier k false

end Answers

end Matched

end Caret
