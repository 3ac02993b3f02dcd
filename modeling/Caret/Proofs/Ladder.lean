import Caret.Proofs.Frames
import Caret.Proofs.TokenOrder
/-!
# Up from a token

A ladder is the way from a token in the table of a tree to the root: the nodes around the token,
each with its frame, the nearest first. A reference to a node is a place on the ladder, so a walk
along parents is told by the frames alone (`nodeAbove_top`). Walks are cut off at `walkLimit`; a
table is shallow if no walk in it is.
-/

namespace Caret

namespace NodeTable

/-- No entry has more ancestors than a walk has steps. -/
def Shallow (t : NodeTable) : Prop := ∀ i, (t.walk (walkLimit + 1) i).length ≤ walkLimit

theorem walk_none (t : NodeTable) (n : Nat) : t.walk n none = [] := by
  cases n <;> rfl

theorem any_isNode (t : NodeTable) (p : NodeKind → Bool) (i : Ref) :
    (t.kind? i).any (Kind.isNode p) = t.isNode p i := by
  rw [isNode, node?]
  cases t.kind? i with
  | none => rfl
  | some k => cases k <;> rfl

end NodeTable

/-- A node in a table with one of its children singled out. -/
structure Level where
  site : Site
  frame : Frame

/-- The reference to the first node of a ladder. -/
def top (ls : List Level) : Ref := ls.head?.map (·.site.index)

/-- The subtree is the child that the first level singles out, or the whole tree. -/
structure Stands (root : Tree) (s : Site) (ls : List Level) : Prop where
  mem : s ∈ root.sites none 0
  parent : s.parent = top ls
  child : ∀ l ∈ ls.head?, l.frame.child = s.tree ∧
    s.base = l.site.base + Tree.sizes l.frame.before

/-- Each level stands right below the next. -/
inductive Ladder (root : Tree) : List Level → Prop
  | nil : Ladder root []
  | cons {u : Site} {f : Frame} {ls : List Level} {slot : Slot} {span : Span} :
      Stands root u ls → u.tree = .node slot f.kind span f.children → Ladder root ls →
      Ladder root (⟨u, f⟩ :: ls)

/-- The frames of a ladder. -/
def frames (ls : List Level) : List Frame := ls.map (·.frame)

/-- A ladder from the nearest node on whose kind has a property. -/
def climbTo (p : NodeKind → Bool) (ls : List Level) : List Level :=
  ls.dropWhile (!p ·.frame.kind)

variable {root t : Tree} {x : Token} {fs : List Frame} {s : Site} {ls : List Level} {l : Level}

theorem Ladder.append {ms : List Level} (h : Ladder root (ms ++ ls)) : Ladder root ls := by
  induction ms with
  | nil => exact h
  | cons m ms ih => cases h with | cons _ _ h => exact ih h

theorem Ladder.tail (h : Ladder root ls) : Ladder root ls.tail := by
  cases h with
  | nil => exact .nil
  | cons _ _ h => exact h

theorem Ladder.climbTo (h : Ladder root ls) (p : NodeKind → Bool) :
    Ladder root (climbTo p ls) := by
  rw [← List.takeWhile_append_dropWhile (p := (!p ·.frame.kind)) (l := ls)] at h
  exact h.append

theorem Stands.childOf (h : Stands root s (l :: ls)) (hl : Ladder root (l :: ls)) :
    Tree.ChildOf s l.site := by
  cases hl with
  | cons _ ht _ =>
    obtain ⟨hc, hb⟩ := h.child _ rfl
    exact ⟨_, _, _, _, _, by rw [ht, Frame.children, hc], h.parent, hb⟩

/-- What stands higher has a greater number. -/
theorem Ladder.index_lt (hl : Ladder root ls) (h : Stands root s ls) :
    ∀ l ∈ ls, s.index < l.site.index := by
  induction hl generalizing s with
  | nil => simp
  | @cons u f ls _ _ hu ht hl ih =>
    have hlt := (h.childOf (.cons hu ht hl)).bounds.2
    intro l hmem
    rcases List.mem_cons.1 hmem with rfl | hmem
    · exact hlt
    · exact Nat.lt_trans hlt (ih hu l hmem)

/-- A token in some frames stands on a ladder with these frames. -/
theorem Tree.Holds.ladder (h : t.Holds x fs) {u : Site} (hu : Stands root u ls) (ht : u.tree = t)
    (hl : Ladder root ls) : ∃ s ms, s.token? = some x ∧ frames ms = fs.reverse ∧
      Stands root s (ms ++ ls) ∧ Ladder root (ms ++ ls) := by
  induction h generalizing u ls with
  | leaf slot => exact ⟨u, [], by rw [Site.token?, ht], rfl, hu, hl⟩
  | @node slot span fs f _ ih =>
    have hnext : Ladder root (⟨u, f⟩ :: ls) := .cons hu ht hl
    have hchild : Stands root ⟨some u.index, u.base + Tree.sizes f.before, f.child⟩ (⟨u, f⟩ :: ls) :=
      ⟨Tree.child_mem_sites hu.mem ht, rfl, by simp⟩
    obtain ⟨s, ms, hs, hms, hstands, hladder⟩ := ih hchild rfl hnext
    refine ⟨s, ms ++ [⟨u, f⟩], hs, by simp [frames] at hms ⊢; exact hms, ?_, ?_⟩
    · simpa using hstands
    · simpa using hladder

theorem Tree.Holds.exists_ladder (h : root.Holds x fs) : ∃ s ls, s.token? = some x ∧
    frames ls = fs.reverse ∧ Stands root s ls ∧ Ladder root ls := by
  have hroot : Stands root ⟨none, 0, root⟩ [] := ⟨Tree.self_mem_sites none 0 root, rfl, by simp⟩
  simpa using h.ladder hroot rfl .nil

namespace NodeTable

open Caret.Tree

/-! ## Parents -/

theorem parent_of_stands (h : Stands root s ls) : (ofTree root).parent (some s.index) = top ls := by
  rw [parent_ofTree h.mem, h.parent]

theorem parent_top (h : Ladder root ls) : (ofTree root).parent (top ls) = top ls.tail := by
  cases h with
  | nil => rfl
  | cons hu _ _ => exact parent_of_stands hu

theorem kind?_top (h : Ladder root ls) :
    (ofTree root).kind? (top ls) = ls.head?.map (.node ·.frame.kind) := by
  cases h with
  | nil => rfl
  | @cons u f ls slot span hu ht _ =>
    show (ofTree root).kind? (some u.index) = some (.node f.kind)
    rw [kind?_ofTree hu.mem, ht]
    rfl

theorem node?_top (h : Ladder root ls) :
    (ofTree root).node? (top ls) = ls.head?.map (·.frame.kind) := by
  rw [node?, kind?_top h]
  cases ls <;> rfl

/-! ## Walks -/

/-- A walk goes up through different entries. -/
theorem length_walk_lt (root : Tree) (n : Nat) {i : Nat} (hi : i < (ofTree root).size) :
    ((ofTree root).walk n (some i)).length + i < (ofTree root).size := by
  induction n generalizing i with
  | zero => simpa [walk] using hi
  | succ n ih =>
    rw [walk]
    cases hp : (ofTree root).parent (some i) with
    | none => simpa using hi
    | some p =>
      obtain ⟨s, -, u, hu, rfl, rfl, hc⟩ := exists_site_of_hasParent (i := i) (j := p) hp
      have hlt := hc.bounds.2
      have hsize := (Tree.index_mem_sites hu).2
      rw [Nat.zero_add, ← size_ofTree] at hsize
      have hwalk := ih hsize
      simp only [List.length_cons]
      omega

theorem parent_eq_none {t : NodeTable} {i : Nat} (h : t.size ≤ i) : t.parent (some i) = none := by
  have hget : t.entries[i]? = none := Array.getElem?_eq_none h
  rw [parent, get?, Option.bind_some, hget]
  rfl

/-- A table that is small enough is shallow. -/
theorem shallow_of_size_le {text : List Char} (h : (ofText text).size ≤ walkLimit) :
    (ofText text).Shallow := by
  rw [ofText_eq] at h ⊢
  generalize (SourceFile.ofText text).root = root at h ⊢
  intro i
  cases i with
  | none => simp [walk_none]
  | some i =>
    by_cases hi : i < (ofTree root).size
    · have := length_walk_lt root (walkLimit + 1) hi
      omega
    · rw [walk, parent_eq_none (Nat.le_of_not_lt hi)]
      exact Nat.zero_le _

theorem walk_of_stands (h : Stands root s ls) (hl : Ladder root ls) (n : Nat) :
    (ofTree root).walk n (some s.index) = (ls.take n).map (·.site.index) := by
  induction hl generalizing s n with
  | nil =>
    cases n with
    | zero => rfl
    | succ n => rw [walk, parent_of_stands h]; rfl
  | @cons u f ls slot span hu _ _ ih =>
    cases n with
    | zero => rfl
    | succ n =>
      rw [walk, parent_of_stands h]
      show u.index :: (ofTree root).walk n (some u.index) = _
      rw [ih hu]
      rfl

theorem ancestors_of_stands (hsh : (ofTree root).Shallow) (h : Stands root s ls)
    (hl : Ladder root ls) : (ofTree root).ancestors (some s.index) = ls.map (·.site.index) := by
  have hlength := hsh (some s.index)
  rw [walk_of_stands h hl, List.length_map, List.length_take] at hlength
  rw [ancestors, walk_of_stands h hl, List.take_of_length_le (by omega)]

/-- The nearest node of some kind is the first on the ladder. -/
theorem find?_ladder (p : NodeKind → Bool) (hl : Ladder root ls) :
    (ls.map (·.site.index)).find? (fun a => ((ofTree root).kind? (some a)).any (Kind.isNode p)) =
      top (climbTo p ls) := by
  induction hl with
  | nil => rfl
  | @cons u f ls slot span hu ht hl ih =>
    have hkind : (ofTree root).kind? (some u.index) = some (.node f.kind) :=
      kind?_top (.cons hu ht hl)
    rw [List.map_cons, List.find?_cons, hkind, climbTo, List.dropWhile_cons]
    by_cases hp : p f.kind = true
    · simp [hp, top]
    · simpa [hp, climbTo] using ih

theorem nodeAbove_of_stands (hsh : (ofTree root).Shallow) (h : Stands root s ls)
    (hl : Ladder root ls) (p : NodeKind → Bool) :
    (ofTree root).nodeAbove (some s.index) p = top (climbTo p ls) := by
  rw [nodeAbove, ancestor?, ancestors_of_stands hsh h hl, find?_ladder p hl]

theorem nodeAbove_top (hsh : (ofTree root).Shallow) (hl : Ladder root ls) (p : NodeKind → Bool) :
    (ofTree root).nodeAbove (top ls) p = top (climbTo p ls.tail) := by
  cases hl with
  | nil => rfl
  | cons hu _ hl => exact nodeAbove_of_stands hsh hu hl p

theorem isNode_top (hl : Ladder root ls) (p : NodeKind → Bool) :
    (ofTree root).isNode p (top ls) = (ls.head?.any (p ·.frame.kind)) := by
  rw [isNode, node?_top hl]
  cases ls <;> rfl

end NodeTable

end Caret
