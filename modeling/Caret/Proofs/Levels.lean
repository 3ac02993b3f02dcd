import Caret.Proofs.Lineage
/-!
# Levels

A sign before an operand and parentheses around an expression open a level each, and so does a
statement right below a block, an `if`, an `else` or a `while`. Whether a statement does depends on
what is around it, so `levels` is told whether that holds statements.

`Tree.levels` counts the levels on the way down on which there are most. On the way from the root
of a table to one of its entries there are no more (`countP_opensLevel_le`).
-/

namespace Caret

/-- A node of this kind opens a level; `inside` says that it stands right below a node whose
children may be statements. -/
def NodeKind.opensLevel (inside : Bool) : NodeKind → Bool
  | .prefixUnaryExpression | .parenthesizedExpression => true
  | k => k.isStatement && inside

namespace Tree

mutual

/-- The most levels that are opened on a way down the tree, its own root included. -/
def levels (inside : Bool) : Tree → Nat
  | leaf _ _ => 0
  | node _ k _ children => (k.opensLevel inside).toNat + levelsAll k.isStatementContainer children

/-- The most levels that are opened on a way down one of the trees. -/
def levelsAll (inside : Bool) : List Tree → Nat
  | [] => 0
  | t :: ts => max (levels inside t) (levelsAll inside ts)

end

variable {t : Tree} {ts : List Tree} {n : Nat}

theorem levelsAll_le {inside : Bool} : levelsAll inside ts ≤ n ↔ ∀ t ∈ ts, t.levels inside ≤ n := by
  induction ts with
  | nil => simp [levelsAll]
  | cons t ts ih => rw [levelsAll, Nat.max_le, ih, List.forall_mem_cons]

theorem levels_le_levelsAll {inside : Bool} (h : t ∈ ts) : t.levels inside ≤ levelsAll inside ts :=
  levelsAll_le.1 (Nat.le_refl _) t h

@[simp] theorem levels_withSlot (inside : Bool) (slot : Slot) (t : Tree) :
    (t.withSlot slot).levels inside = t.levels inside := by
  cases t <;> rfl

/-- Only statements see what is around them. -/
theorem levels_le_of_imp {inside inside' : Bool} (h : inside = true → inside' = true) (t : Tree) :
    t.levels inside ≤ t.levels inside' := by
  cases t with
  | leaf => exact Nat.le_refl _
  | node _ k _ children =>
    have hopens : (k.opensLevel inside).toNat ≤ (k.opensLevel inside').toNat := by
      revert h
      cases k <;> cases inside <;> cases inside' <;> decide
    exact Nat.add_le_add_right hopens _

/-- Where statements may stand a tree opens at most one level more. -/
theorem levels_true_le (t : Tree) : t.levels true ≤ t.levels false + 1 := by
  cases t with
  | leaf => exact Nat.zero_le _
  | node _ k _ children =>
    have := Bool.toNat_le (k.opensLevel true)
    simp only [levels]
    omega

end Tree

namespace NodeTable

/-- The entry opens a level: it is a sign with its operand, an expression in parentheses, or a
statement whose parent is a block, an `if`, an `else` or a `while`. -/
def opensLevel (t : NodeTable) (i : Nat) : Bool :=
  t.isNode (NodeKind.opensLevel (t.isNode NodeKind.isStatementContainer (t.parent (some i))))
    (some i)

theorem countP_opensLevel_cons (t : NodeTable) (i : Nat) (is : List Nat) :
    (i :: is).countP t.opensLevel = is.countP t.opensLevel + (t.opensLevel i).toNat := by
  rw [List.countP_cons]
  cases t.opensLevel i <;> rfl

variable {root : Tree} {s : Site}

theorem isNode_ofTree (h : s ∈ root.sites none 0) (p : NodeKind → Bool) :
    (ofTree root).isNode p (some s.index) = s.tree.kind.isNode p := by
  rw [isNode, node?_ofTree h, Kind.isNode]

/-- What an entry opens itself and what one of its children opens is opened on a way down. -/
theorem opensLevel_add_le (h : s ∈ root.sites none 0) {t : Tree} (ht : t ∈ s.tree.children) :
    ((ofTree root).opensLevel s.index).toNat +
        t.levels ((ofTree root).isNode NodeKind.isStatementContainer (some s.index)) ≤
      s.tree.levels ((ofTree root).isNode NodeKind.isStatementContainer s.parent) := by
  rw [opensLevel, parent_ofTree h, isNode_ofTree h, isNode_ofTree h]
  cases hs : s.tree with
  | leaf => simp [hs, Tree.children] at ht
  | node slot k span children =>
    rw [hs] at ht
    exact Nat.add_le_add_left (Tree.levels_le_levelsAll ht) _

/-- What an entry opens itself is opened on a way down. -/
theorem opensLevel_le (h : s ∈ root.sites none 0) : ((ofTree root).opensLevel s.index).toNat ≤
    s.tree.levels ((ofTree root).isNode NodeKind.isStatementContainer s.parent) := by
  rw [opensLevel, parent_ofTree h, isNode_ofTree h]
  cases s.tree with
  | leaf => exact Nat.zero_le _
  | node => exact Nat.le_add_right _ _

/-- What is opened above an entry and on a way further down is opened on a way from the root. -/
theorem countP_walk_add_le (h : s ∈ root.sites none 0) (n : Nat) :
    ((ofTree root).walk n (some s.index)).countP (ofTree root).opensLevel +
        s.tree.levels ((ofTree root).isNode NodeKind.isStatementContainer s.parent) ≤
      root.levels false := by
  induction hd : (ofTree root).size - s.index using Nat.strongRecOn generalizing s n with
  | ind d ih =>
    rcases Tree.exists_childOf h with rfl | ⟨u, hu, hc⟩
    · have hwalk : (ofTree root).walk n (some (Site.index ⟨none, 0, root⟩)) = [] := by
        cases n with
        | zero => rfl
        | succ n => rw [walk, parent_ofTree h]
      rw [hwalk, List.countP_nil, Nat.zero_add]
      exact Nat.le_refl _
    · have hless : (ofTree root).size - u.index < d := by
        have := hc.bounds.2
        have := index_lt_size hu
        omega
      obtain ⟨slot, k, span, before, after, htree, hparent, -⟩ := hc
      have hopens := opensLevel_add_le hu (t := s.tree) (by simp [htree, Tree.children])
      rw [hparent]
      cases n with
      | zero =>
        have hup := ih _ hless hu 0 rfl
        simp only [walk, List.countP_nil] at hup ⊢
        omega
      | succ n =>
        have hup := ih _ hless hu n rfl
        rw [walk, parent_ofTree h, hparent]
        rw [countP_opensLevel_cons]
        omega

/-- No more levels are opened on the way to an entry than on some way down the tree. -/
theorem countP_opensLevel_le (root : Tree) (i : Nat) :
    (i :: (ofTree root).lineage (some i)).countP (ofTree root).opensLevel ≤ root.levels false := by
  by_cases hi : i < (ofTree root).size
  · obtain ⟨s, hs, rfl⟩ := exists_site_of_lt hi
    have habove := countP_walk_add_le hs (ofTree root).size
    have hself := opensLevel_le hs
    rw [countP_opensLevel_cons]
    exact Nat.le_trans (Nat.add_le_add_left hself _) habove
  · have hget : (ofTree root).get? (some i) = none :=
      Array.getElem?_eq_none (Nat.le_of_not_lt hi)
    have hopens : (ofTree root).opensLevel i = false := by
      simp [opensLevel, isNode, node?, kind?, hget]
    have hlineage : (ofTree root).lineage (some i) = [] := by
      rw [lineage]
      cases (ofTree root).size with
      | zero => rfl
      | succ n => simp [walk, parent, hget]
    simp [hlineage, hopens]

end NodeTable

end Caret
