import Caret.Proofs.Consumption
/-!
# Trees but for some blocks

Two trees may be alike but for what is in some blocks (`Tree.SameBut`), wherever these blocks stand.
A token may be marked to open a block; where it is read as anything else it strays
(`Tree.Strays`). Both say something of forests too, and are kept by whatever a parser does to the
forests it has read.
-/

namespace Caret.Tree

mutual

/-- The trees differ in no more than places, and in what is in blocks that may differ. -/
inductive SameBut (hole : List Tree → List Tree → Prop) : Tree → Tree → Prop
  | leaf (s) {x y} : x.word = y.word → SameBut hole (leaf s x) (leaf s y)
  | node (s k span span') {ts us} : AllSameBut hole ts us →
      SameBut hole (node s k span ts) (node s k span' us)
  | hole (s span span') {ts us} : hole ts us →
      SameBut hole (node s .block span ts) (node s .block span' us)

/-- The same of the trees of two forests, one by one. -/
inductive AllSameBut (hole : List Tree → List Tree → Prop) : List Tree → List Tree → Prop
  | nil : AllSameBut hole [] []
  | cons {t u ts us} : SameBut hole t u → AllSameBut hole ts us →
      AllSameBut hole (t :: ts) (u :: us)

end

/-- A marked token is the first child of a block. -/
def Opens (marked : Token → Prop) (k : NodeKind) (ts : List Tree) : Prop :=
  k = .block ∧ ∃ s x us, ts = leaf s x :: us ∧ marked x

/-- A marked token stands in the tree, and it opens no block. -/
inductive Strays (marked : Token → Prop) : Tree → Prop
  | leaf (s) {x} : marked x → Strays marked (leaf s x)
  | node (s k span) {t ts} : ¬Opens marked k ts → t ∈ ts → Strays marked t →
      Strays marked (node s k span ts)

section Same

variable {hole : List Tree → List Tree → Prop} {t u : Tree} {ts us vs ws : List Tree}

mutual

theorem sameBut_refl (hole : List Tree → List Tree → Prop) (t : Tree) : SameBut hole t t := by
  cases t with
  | leaf s x => exact .leaf s rfl
  | node s k span ts => exact .node s k span span (allSameBut_refl hole ts)

theorem allSameBut_refl (hole : List Tree → List Tree → Prop) (ts : List Tree) :
    AllSameBut hole ts ts := by
  cases ts with
  | nil => exact .nil
  | cons t ts => exact .cons (sameBut_refl hole t) (allSameBut_refl hole ts)

end

theorem SameBut.withSlot (h : SameBut hole t u) (slot : Slot) :
    SameBut hole (t.withSlot slot) (u.withSlot slot) := by
  cases h with
  | leaf s h => exact .leaf slot h
  | node s k span span' h => exact .node slot k span span' h
  | hole s span span' h => exact .hole slot span span' h

theorem SameBut.slot (h : SameBut hole t u) : t.slot = u.slot := by
  cases h <;> rfl

theorem SameBut.kind (h : SameBut hole t u) : t.kind = u.kind := by
  cases h with
  | leaf s h => exact congrArg Kind.token (congrArg Prod.fst h)
  | node | hole => rfl

namespace AllSameBut

theorem append (h : AllSameBut hole ts us) (h' : AllSameBut hole vs ws) :
    AllSameBut hole (ts ++ vs) (us ++ ws) := by
  induction ts generalizing us with
  | nil =>
    cases h
    exact h'
  | cons t ts ih =>
    cases h with
    | cons ht hts => exact .cons ht (ih hts)

theorem isEmpty (h : AllSameBut hole ts us) : ts.isEmpty = us.isEmpty := by
  cases h <;> rfl

theorem map_withSlot (h : AllSameBut hole ts us) (slot : Slot) :
    AllSameBut hole (ts.map (withSlot slot)) (us.map (withSlot slot)) := by
  induction ts generalizing us with
  | nil =>
    cases h
    exact .nil
  | cons t ts ih =>
    cases h with
    | cons ht hts => exact .cons (ht.withSlot slot) (ih hts)

theorem lastInto (h : AllSameBut hole ts us) (slot : Slot) :
    AllSameBut hole (lastInto slot ts) (lastInto slot us) := by
  induction ts generalizing us with
  | nil =>
    cases h
    exact .nil
  | cons t ts ih =>
    cases h with
    | cons ht hts =>
      cases hts with
      | nil => exact .cons (ht.withSlot slot) .nil
      | cons hu hus => exact .cons ht (ih (.cons hu hus))

end AllSameBut

end Same

section Stray

variable {marked : Token → Prop} {t : Tree} {ts us : List Tree}

/-- A marked token strays in some trees. -/
def SomeStrays (marked : Token → Prop) (ts : List Tree) : Prop := ∃ t ∈ ts, Strays marked t

theorem Strays.withSlot (h : Strays marked t) (slot : Slot) : Strays marked (t.withSlot slot) := by
  cases h with
  | leaf s h => exact .leaf slot h
  | node s k span hopen ht h => exact .node slot k span hopen ht h

namespace SomeStrays

theorem left (h : SomeStrays marked ts) (us : List Tree) : SomeStrays marked (ts ++ us) := by
  obtain ⟨t, ht, hs⟩ := h
  exact ⟨t, List.mem_append_left us ht, hs⟩

theorem right (ts : List Tree) (h : SomeStrays marked us) : SomeStrays marked (ts ++ us) := by
  obtain ⟨t, ht, hs⟩ := h
  exact ⟨t, List.mem_append_right ts ht, hs⟩

theorem map_withSlot (h : SomeStrays marked ts) (slot : Slot) :
    SomeStrays marked (ts.map (Tree.withSlot slot)) := by
  obtain ⟨t, ht, hs⟩ := h
  exact ⟨_, List.mem_map_of_mem ht, hs.withSlot slot⟩

theorem lastInto (h : SomeStrays marked ts) (slot : Slot) :
    SomeStrays marked (Tree.lastInto slot ts) := by
  rcases List.eq_nil_or_concat ts with rfl | ⟨us, u, rfl⟩
  · obtain ⟨t, ht, -⟩ := h
    cases ht
  · obtain ⟨t, ht, hs⟩ := h
    rw [List.concat_eq_append] at ht ⊢
    rw [lastInto_concat]
    rcases List.mem_append.1 ht with ht | ht
    · exact ⟨t, List.mem_append_left _ ht, hs⟩
    · rw [List.mem_singleton.1 ht] at hs
      exact ⟨_, List.mem_append_right _ (List.mem_singleton_self _), hs.withSlot slot⟩

/-- No node but a block puts a stray token in its place. -/
theorem node {k : NodeKind} (h : SomeStrays marked ts) (hk : k ≠ .block) (slot : Slot)
    (span : Span) : SomeStrays marked [.node slot k span ts] := by
  obtain ⟨t, ht, hs⟩ := h
  exact ⟨_, List.mem_singleton_self _, .node slot k span (fun ho => hk ho.1) ht hs⟩

end SomeStrays

end Stray

end Caret.Tree
