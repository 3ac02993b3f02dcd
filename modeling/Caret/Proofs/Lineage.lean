import Caret.Proofs.Ladder
/-!
# All ancestors

The table of a tree has no circle, so a walk of as many steps as there are entries goes up to the
root (`lineage`). What `ancestors` lists is the beginning of that, cut off after `walkLimit`
entries: it ends at the root exactly if there are no more (`getLast?_ancestors`).
-/

namespace Caret.NodeTable

/-- All ancestors of an entry, the nearest first, in a table without circles: no walk there takes as
many steps as there are entries. -/
def lineage (t : NodeTable) (i : Ref) : List Nat := t.walk t.size i

/-! ## Walks in any table -/

section

variable {t : NodeTable} {i j : Nat}

theorem walk_take (t : NodeTable) {m n : Nat} (h : m ≤ n) (i : Ref) :
    t.walk m i = (t.walk n i).take m := by
  induction m generalizing n i with
  | zero => rfl
  | succ m ih =>
    obtain ⟨n, rfl⟩ : ∃ k, n = k + 1 := ⟨n - 1, by omega⟩
    rw [walk, walk]
    cases t.parent i with
    | none => rfl
    | some p => exact congrArg (p :: ·) (ih (Nat.le_of_succ_le_succ h) (some p))

theorem mem_walk {n : Nat} (h : j ∈ t.walk n (some i)) : Relation.TransGen t.HasParent i j := by
  induction n generalizing i with
  | zero => cases h
  | succ n ih =>
    rw [walk] at h
    cases hp : t.parent (some i) with
    | none => rw [hp] at h; cases h
    | some p =>
      rw [hp] at h
      rcases List.mem_cons.1 h with rfl | h
      · exact .single hp
      · exact .head hp (ih h)

theorem exists_mem_walk (h : Relation.TransGen t.HasParent i j) : ∃ n, j ∈ t.walk n (some i) := by
  induction h using Relation.TransGen.head_induction_on with
  | @single a hp =>
    refine ⟨1, ?_⟩
    rw [walk, show t.parent (some a) = some j from hp]
    exact List.mem_cons_self
  | @head a b hp _ ih =>
    obtain ⟨n, hn⟩ := ih
    refine ⟨n + 1, ?_⟩
    rw [walk, show t.parent (some a) = some b from hp]
    exact List.mem_cons_of_mem b hn

/-- A walk that has steps left ends at an entry without a parent. -/
theorem parent_getLast_walk {n : Nat} (h : (t.walk n (some i)).length < n) :
    t.parent (i :: t.walk n (some i)).getLast? = none := by
  induction n generalizing i with
  | zero => cases h
  | succ n ih =>
    rw [walk] at h ⊢
    cases hp : t.parent (some i) with
    | none => exact hp
    | some p =>
      rw [hp] at h
      simpa using ih (Nat.lt_of_succ_lt_succ h)

end

/-! ## Walks in the table of a tree -/

section

variable {root : Tree} {i j : Nat}

theorem lt_of_hasParent (h : (ofTree root).HasParent i j) : i < j := by
  obtain ⟨s, -, u, -, rfl, rfl, hc⟩ := exists_site_of_hasParent h
  exact hc.bounds.2

theorem lt_of_transGen (h : Relation.TransGen (ofTree root).HasParent i j) : i < j := by
  induction h with
  | single h => exact lt_of_hasParent h
  | tail _ h ih => exact Nat.lt_trans ih (lt_of_hasParent h)

theorem le_of_below (h : (ofTree root).Below i j) : i ≤ j := by
  rcases Relation.reflTransGen_iff_eq_or_transGen.1 h with rfl | h
  · exact Nat.le_refl _
  · exact Nat.le_of_lt (lt_of_transGen h)

/-- Of two entries around another one that with the lower number is below the other. -/
theorem below_of_le {d d' : Nat} (h : (ofTree root).Below i d) (h' : (ofTree root).Below i d')
    (hle : d ≤ d') : (ofTree root).Below d d' := by
  have hunique : Relator.RightUnique (ofTree root).HasParent :=
    fun _ _ _ hb hc => Option.some.inj (hb.symm.trans hc)
  rcases Relation.ReflTransGen.total_of_right_unique hunique h h' with h | h
  · exact h
  · obtain rfl := Nat.le_antisymm hle (le_of_below h)
    exact .refl

/-- What stands higher has a greater number. -/
theorem ascending_walk (root : Tree) (n i : Nat) :
    (i :: (ofTree root).walk n (some i)).Pairwise (· < ·) := by
  induction n generalizing i with
  | zero => exact List.pairwise_singleton _ _
  | succ n ih =>
    refine List.pairwise_cons.2 ⟨fun j hj => lt_of_transGen (mem_walk hj), ?_⟩
    rw [walk]
    cases (ofTree root).parent (some i) with
    | none => exact .nil
    | some p => exact ih p

/-- An ancestor is among the first ones, or stands no deeper than the next one. -/
theorem mem_or_le_of_lineage {inner outer : List Nat} {a : Nat}
    (hsplit : (ofTree root).lineage (some i) = inner ++ j :: outer)
    (ha : a ∈ (ofTree root).lineage (some i)) : a ∈ inner ∨ j ≤ a := by
  have hascending : (i :: (ofTree root).lineage (some i)).Pairwise (· < ·) :=
    ascending_walk root _ i
  rw [hsplit] at ha hascending
  rw [List.pairwise_cons, List.pairwise_append, List.pairwise_cons] at hascending
  rcases List.mem_append.1 ha with ha | ha
  · exact .inl ha
  · rcases List.mem_cons.1 ha with rfl | ha
    · exact .inr (Nat.le_refl _)
    · exact .inr (Nat.le_of_lt (hascending.2.2.1.1 a ha))

variable (hi : i < (ofTree root).size)

include hi

/-- Every walk is the beginning of the longest one. -/
theorem walk_eq_take (n : Nat) :
    (ofTree root).walk n (some i) = ((ofTree root).lineage (some i)).take n := by
  have hlength := length_walk_lt root n hi
  rcases Nat.le_total n (ofTree root).size with hn | hn
  · exact walk_take _ hn _
  · rw [lineage, walk_take _ hn, List.take_take, Nat.min_eq_right hn,
      List.take_of_length_le (by omega)]

theorem ancestors_eq_take :
    (ofTree root).ancestors (some i) = ((ofTree root).lineage (some i)).take walkLimit :=
  walk_eq_take hi walkLimit

theorem mem_lineage :
    j ∈ (ofTree root).lineage (some i) ↔ Relation.TransGen (ofTree root).HasParent i j := by
  refine ⟨mem_walk, fun h => ?_⟩
  obtain ⟨n, hn⟩ := exists_mem_walk h
  rw [walk_eq_take hi] at hn
  exact List.mem_of_mem_take hn

omit hi in
theorem mem_size_of_hasParent (h : (ofTree root).HasParent i j) : j < (ofTree root).size := by
  obtain ⟨-, -, u, hu, -, rfl, -⟩ := exists_site_of_hasParent h
  exact index_lt_size hu

/-- Every entry but the root has a parent. -/
theorem eq_root_of_parent (h : (ofTree root).parent (some i) = none) :
    some i = (ofTree root).root := by
  obtain ⟨s, hs, rfl⟩ := exists_site_of_lt hi
  rcases Tree.exists_childOf hs with rfl | ⟨u, -, hc⟩
  · rw [root_ofTree, Site.index, Nat.zero_add]
  · obtain ⟨_, _, _, _, _, -, hp, -⟩ := hc
    rw [parent_ofTree hs, hp] at h
    cases h

/-- The last ancestor is the root. -/
theorem getLast?_lineage :
    (i :: (ofTree root).lineage (some i)).getLast? = (ofTree root).root := by
  have hlength := length_walk_lt root (ofTree root).size hi
  have hparent : (ofTree root).parent (i :: (ofTree root).lineage (some i)).getLast? = none :=
    parent_getLast_walk (by omega)
  have hj := List.getLast?_eq_some_getLast
    (List.cons_ne_nil i ((ofTree root).lineage (some i)))
  generalize (i :: (ofTree root).lineage (some i)).getLast _ = j at hj
  have hlt : j < (ofTree root).size := by
    rcases List.mem_cons.1 (List.mem_of_getLast? hj) with rfl | hmem
    · exact hi
    · obtain ⟨k, -, hk⟩ := Relation.TransGen.tail'_iff.1 ((mem_lineage hi).1 hmem)
      exact mem_size_of_hasParent hk
  rw [hj] at hparent ⊢
  exact eq_root_of_parent hlt hparent

/-- The walk is cut off before the root exactly if there are more ancestors than it has steps. -/
theorem getLast?_ancestors :
    (i :: (ofTree root).ancestors (some i)).getLast? = (ofTree root).root ↔
      ((ofTree root).lineage (some i)).length ≤ walkLimit := by
  have hlast := getLast?_lineage hi
  have hascending : (i :: (ofTree root).lineage (some i)).Pairwise (· < ·) :=
    ascending_walk root _ i
  rw [ancestors_eq_take hi]
  constructor
  · intro h
    by_contra hlong
    have hrest : ((ofTree root).lineage (some i)).drop walkLimit ≠ [] := by
      rw [Ne, List.drop_eq_nil_iff]
      exact hlong
    rw [← List.take_append_drop walkLimit ((ofTree root).lineage (some i)), ← List.cons_append]
      at hlast hascending
    rw [List.getLast?_append_of_ne_nil _ hrest, ← h] at hlast
    -- the root would be reached twice
    have hj := List.getLast?_eq_some_getLast hrest
    have hbefore := List.mem_of_getLast? (hlast.symm.trans hj)
    have hafter := List.mem_of_getLast? hj
    exact Nat.lt_irrefl _ ((List.pairwise_append.1 hascending).2.2 _ hbefore _ hafter)
  · intro h
    rw [List.take_of_length_le h, hlast]

theorem nodeAbove_eq_find? (p : NodeKind → Bool) :
    (ofTree root).nodeAbove (some i) p =
      (((ofTree root).lineage (some i)).take walkLimit).find? fun a =>
        (ofTree root).isNode p (some a) := by
  rw [nodeAbove, ancestor?, ancestors_eq_take hi]
  simp only [any_isNode]

end

end Caret.NodeTable
