import Caret.Proofs.CleanText
import Caret.Proofs.Receivers
/-!
# Where nodes start

A node starts where its first token does, and tokens start in the order of the text. So a node
starts before every node behind it. The entry of a node stands behind the entries of all that is in
it, though: what is numbered by entries is numbered by ends.
-/

namespace Caret

open Tree

namespace Tree

/-- Every node with tokens starts where its first token does. -/
inductive StartsAtToken : Tree → Prop
  | leaf (s t) : StartsAtToken (leaf s t)
  | node {s k span ts} : (∀ x, (tokensAll ts).head? = some x → span.start = x.start) →
      (∀ t ∈ ts, StartsAtToken t) → StartsAtToken (node s k span ts)

theorem startsAtToken_bare {t : Tree} : t.bare.StartsAtToken ↔ t.StartsAtToken := by
  cases t with
  | leaf s token => exact iff_of_true (.leaf _ _) (.leaf _ _)
  | node s k span ts =>
    constructor
    · intro h
      cases h with | node hspan hts => exact .node hspan hts
    · intro h
      cases h with | node hspan hts => exact .node hspan hts

end Tree

/-- The token that is next when a node begins is the first in the node. -/
theorem Reads.startsAtToken {c d : Cursor} {ts : List Tree} (h : Reads c ts d) :
    ∀ t ∈ ts, t.StartsAtToken := by
  induction h with
  | refl | report => simp
  | take => simpa using .leaf _ _
  | append _ _ ih ih' =>
    intro t ht
    exact (List.mem_append.1 ht).elim (ih t) (ih' t)
  | relabel _ hr ih =>
    intro u hu
    obtain ⟨t, ht, hb⟩ := List.mem_map.1 (hr ▸ List.mem_map_of_mem hu)
    exact startsAtToken_bare.1 (hb ▸ startsAtToken_bare.2 (ih t ht))
  | @close c d ts k hreads _ _ ih =>
    intro t ht
    rw [List.mem_singleton.1 ht]
    refine .node (fun x hx => ?_) ih
    have htokens := hreads.tokens
    obtain ⟨rest, hts⟩ := List.head?_eq_some_iff.1 hx
    rw [hts] at htokens
    rw [Cursor.next, ← htokens]
    rfl

theorem SourceFile.root_startsAtToken (text : List Char) : (ofText text).root.StartsAtToken := by
  have hreads := reads_declarations text
  refine .node (fun x hx => ?_) fun t ht => ?_
  · have htokens := root_tokens text
    simp only [ofText, tokens] at htokens
    rw [htokens, scan_eq_concat] at hx
    unfold Cursor.next
    change ((scan text).dropLast.head?.getD _).start = _
    cases hs : (scan text).dropLast with
    | nil =>
      rw [hs] at hx
      exact congrArg Token.start (Option.some.inj hx)
    | cons t ts =>
      rw [hs] at hx
      exact congrArg Token.start (Option.some.inj hx)
  · rcases List.mem_append.1 ht with ht | ht
    · exact hreads.startsAtToken t ht
    · rw [List.mem_singleton.1 ht]
      exact .leaf _ _

namespace NodeTable

/-- Where an entry starts. -/
def start (t : NodeTable) (i : Nat) : Nat := ((t.get? (some i)).map (·.span.start)).getD 0

section Sites

variable {root : Tree} {u v w : Site} {x y : Token}

theorem start_ofTree (hu : u ∈ root.sites none 0) :
    (ofTree root).start u.index = u.tree.span.start := by
  rw [start, get?_ofTree hu, Option.map_some, Option.getD_some, Site.span_entry]

theorem startsAtToken_of_mem_sites {parent : Ref} {base : Nat}
    (h : root.StartsAtToken) (hu : u ∈ root.sites parent base) : u.tree.StartsAtToken :=
  of_mem_sites (fun _ _ _ _ hnode => by cases hnode with | node _ inside => exact inside) h hu

/-- The tokens of a subtree are tokens of the tree, in the same order. -/
theorem tokens_sublist {parent : Ref} {base : Nat} (hu : u ∈ root.sites parent base) :
    u.tree.tokens.Sublist root.tokens := by
  refine of_mem_sites (p := fun t => t.tokens.Sublist root.tokens) (fun slot k span ts h t ht => ?_)
    (List.Sublist.refl _) hu
  obtain ⟨before, after, rfl⟩ := List.append_of_mem ht
  rw [Tree.tokens, tokensAll_append, tokensAll] at h
  exact ((List.sublist_append_left _ _).trans (List.sublist_append_right _ _)).trans h

section Ordered

variable (hstarts : root.StartsAtToken) (hsorted : root.tokens.Pairwise fun t t' => t.start < t'.start)

include hsorted in
/-- Tokens stand in the table as they do in the text. -/
theorem start_lt_of_index_lt (hv : v ∈ root.sites none 0) (hw : w ∈ root.sites none 0)
    (hx : v.token? = some x) (hy : w.token? = some y) (h : v.index < w.index) :
    x.start < y.start := by
  have hindex := root.pairwise_sites none 0
  rw [← filterMap_token_sites none 0 root, List.pairwise_filterMap] at hsorted
  obtain ⟨i, hi, rfl⟩ := List.getElem_of_mem hv
  obtain ⟨j, hj, rfl⟩ := List.getElem_of_mem hw
  rw [List.pairwise_iff_getElem] at hindex hsorted
  rcases Nat.lt_trichotomy i j with hij | rfl | hij
  · exact hsorted i j hi hj hij x hx y hy
  · exact absurd h (Nat.lt_irrefl _)
  · exact absurd (hindex j i hj hi hij) (Nat.lt_asymm h)

include hstarts in
/-- A subtree with tokens starts with one of them. -/
theorem exists_first (hu : u ∈ root.sites none 0) (hne : u.tree.tokens ≠ []) :
    ∃ v ∈ root.sites none 0, ∃ x, v.token? = some x ∧ u.base ≤ v.index ∧ v.index ≤ u.index ∧
      u.tree.tokens.head? = some x ∧ (ofTree root).start u.index = x.start := by
  obtain ⟨x, rest, hx⟩ := List.exists_cons_of_ne_nil hne
  have hmem : x ∈ (u.tree.sites u.parent u.base).filterMap Site.token? := by
    rw [filterMap_token_sites, hx]
    simp
  obtain ⟨v, hv, hxv⟩ := List.mem_filterMap.1 hmem
  have hindex := index_mem_sites hv
  refine ⟨v, sites_subset hu v hv, x, hxv, hindex.1, ?_, by rw [hx]; rfl, ?_⟩
  · unfold Site.index at *
    omega
  · have hstart := startsAtToken_of_mem_sites hstarts hu
    rw [start_ofTree hu]
    cases htree : u.tree with
    | leaf s t =>
      rw [htree] at hx
      cases hx
      rfl
    | node s k span ts =>
      rw [htree] at hx hstart
      cases hstart with | node hspan _ => exact hspan x (List.head?_eq_some_iff.2 ⟨rest, hx⟩)

include hstarts hsorted

/-- What stands behind a subtree starts behind it. -/
theorem start_lt_of_behind (hu : u ∈ root.sites none 0) (hw : w ∈ root.sites none 0)
    (hune : u.tree.tokens ≠ []) (hwne : w.tree.tokens ≠ []) (h : u.index < w.base) :
    (ofTree root).start u.index < (ofTree root).start w.index := by
  obtain ⟨v, hv, x, hx, -, hle, -, hstart⟩ := exists_first hstarts hu hune
  obtain ⟨v', hv', y, hy, hbase, -, -, hstart'⟩ := exists_first hstarts hw hwne
  rw [hstart, hstart']
  exact start_lt_of_index_lt hsorted hv hv' hx hy (by omega)

/-- What stands in a subtree behind one of its tokens starts behind it. -/
theorem start_lt_of_inside (hu : u ∈ root.sites none 0) (hw : w ∈ root.sites none 0)
    (hv : v ∈ root.sites none 0) (hx : v.token? = some x) (hmem : x ∈ w.tree.tokens)
    (hune : u.tree.tokens ≠ []) (h : v.index < u.base) :
    (ofTree root).start w.index < (ofTree root).start u.index := by
  obtain ⟨v', hv', y, hy, hbase, -, -, hstart⟩ := exists_first hstarts hu hune
  obtain ⟨-, -, z, -, -, -, hhead, hstart'⟩ :=
    exists_first hstarts hw (List.ne_nil_of_mem hmem)
  have hle : z.start ≤ x.start := by
    obtain ⟨rest, hrest⟩ := List.head?_eq_some_iff.1 hhead
    have hpairs := hsorted.sublist (tokens_sublist hw)
    rw [hrest] at hmem hpairs
    rcases List.mem_cons.1 hmem with rfl | hmem
    · exact Nat.le_refl _
    · exact Nat.le_of_lt ((List.pairwise_cons.1 hpairs).1 x hmem)
  rw [hstart, hstart']
  exact Nat.lt_of_le_of_lt hle (start_lt_of_index_lt hsorted hv hv' hx hy (by omega))

end Ordered

end Sites

end NodeTable

end Caret
