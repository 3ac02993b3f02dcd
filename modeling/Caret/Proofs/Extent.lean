import Caret.Proofs.SourceOrder
/-!
# What nodes span

A node is closed when its last token was read (`finish_node`), so it ends where that token ends; it
begins where its first token does (`Tree.StartsAtToken`). The tokens of a node follow each other
among the tokens of the table. Nothing was read between the start and the end of a node without
tokens: such a node spans nothing, and it is a declared name that is missing
(`NodeTable.ofText_exact`).
-/

namespace Caret

open Tree

namespace Cursor

/-- The unread tokens follow each other behind those that were read. -/
structure InOrder (c : Cursor) : Prop where
  ascending : (c.rest ++ [Token.endOfFile c.length]).Pairwise fun t u => t.stop ≤ u.start
  behind : c.readEnd ≤ c.next.start

theorem next_report (c : Cursor) (problem : Problem) : (c.report problem).next = c.next := by
  unfold Cursor.report
  split <;> rfl

/-- The next token is the first that is left, the end of the file included. -/
theorem exists_next (c : Cursor) : ∃ later, c.rest ++ [Token.endOfFile c.length] = c.next :: later := by
  unfold Cursor.next
  cases c.rest with
  | nil => exact ⟨[], rfl⟩
  | cons t rest => exact ⟨rest ++ [Token.endOfFile c.length], rfl⟩

end Cursor

namespace Tree

/-- Every node ends where its last token does; one without tokens spans nothing. -/
inductive EndsAtToken : Tree → Prop
  | leaf (s t) : EndsAtToken (leaf s t)
  | node {s k span ts} :
      span.stop = ((tokensAll ts).getLast?.map Token.stop).getD span.start →
      (∀ t ∈ ts, EndsAtToken t) → EndsAtToken (node s k span ts)

theorem endsAtToken_bare {t : Tree} : t.bare.EndsAtToken ↔ t.EndsAtToken := by
  cases t with
  | leaf s token => exact iff_of_true (.leaf _ _) (.leaf _ _)
  | node s k span ts =>
    constructor
    · intro h
      cases h with | node hspan hts => exact .node hspan hts
    · intro h
      cases h with | node hspan hts => exact .node hspan hts

end Tree

namespace Reads

variable {c d : Cursor} {ts : List Tree}

theorem inOrder (h : Reads c ts d) : c.InOrder → d.InOrder := by
  induction h with
  | refl => exact id
  | report c problem =>
    intro h
    have hlength : (c.report problem).length = c.length := by unfold Cursor.report; split <;> rfl
    have hend : (c.report problem).readEnd = c.readEnd := by unfold Cursor.report; split <;> rfl
    refine ⟨?_, ?_⟩
    · rw [rest_report, hlength]
      exact h.ascending
    · rw [hend, c.next_report]
      exact h.behind
  | @take c t rest hr =>
    intro h
    have hascending := h.ascending
    rw [hr, List.cons_append, List.pairwise_cons] at hascending
    refine ⟨hascending.2, hascending.1 _ ?_⟩
    obtain ⟨later, hlater⟩ := Cursor.exists_next { c with rest, readEnd := t.stop }
    rw [hlater]
    exact List.mem_cons_self ..
  | append _ _ ih ih' => exact fun h => ih' (ih h)
  | relabel _ _ ih => exact ih
  | close _ _ _ _ ih => exact ih

/-- The end that a cursor keeps is that of the token read last. -/
theorem readEnd (h : Reads c ts d) :
    d.readEnd = ((tokensAll ts).getLast?.map Token.stop).getD c.readEnd := by
  induction h with
  | refl => rfl
  | report c problem =>
    unfold Cursor.report
    split <;> rfl
  | take => rfl
  | @append _ _ _ ts us _ _ ih ih' =>
    rw [tokensAll_append, List.getLast?_append, ih', ih]
    cases (tokensAll us).getLast? <;> rfl
  | relabel _ hr ih => rw [← tokensAll_map_bare, hr, tokensAll_map_bare, ih]
  | close _ _ _ _ ih => simpa [tokensAll, Tree.tokens] using ih

/-- No token that is read ends before the first one starts. -/
theorem start_le_stop (h : Reads c ts d) (hc : c.InOrder) {x : Token} (hx : x ∈ tokensAll ts) :
    c.next.start ≤ x.stop := by
  obtain ⟨later, hlater⟩ := c.exists_next
  have hmem : x ∈ c.next :: later := by
    rw [← hlater, ← h.tokens]
    exact List.mem_append_left _ (List.mem_append_left _ hx)
  have hascending := hc.ascending
  rw [hlater] at hascending
  have hself (y : Token) : y.start ≤ y.stop := Nat.le_add_right _ _
  rcases List.mem_cons.1 hmem with rfl | hmem
  · exact hself _
  · exact (hself _).trans (((List.pairwise_cons.1 hascending).1 x hmem).trans (hself x))

theorem endsAtToken (h : Reads c ts d) : c.InOrder → ∀ t ∈ ts, t.EndsAtToken := by
  induction h with
  | refl | report => simp
  | take => simpa using fun _ => .leaf _ _
  | append hts _ ih ih' =>
    intro h t ht
    exact (List.mem_append.1 ht).elim (ih h t) (ih' (hts.inOrder h) t)
  | relabel _ hr ih =>
    intro h u hu
    obtain ⟨t, ht, hb⟩ := List.mem_map.1 (hr ▸ List.mem_map_of_mem hu)
    exact endsAtToken_bare.1 (hb ▸ endsAtToken_bare.2 (ih h t ht))
  | @close c d ts k hreads _ _ ih =>
    intro h t ht
    rw [List.mem_singleton.1 ht]
    refine .node ?_ (ih h)
    rw [hreads.readEnd]
    cases hlast : (tokensAll ts).getLast? with
    | none => exact Nat.max_eq_right h.behind
    | some x => exact Nat.max_eq_left (hreads.start_le_stop h (List.mem_of_getLast? hlast))

end Reads

/-- The cursor before a text is in order. -/
theorem Grammar.inOrder_startOf (text : List Char) : (startOf text).InOrder where
  ascending := by
    have hascending := scan_ascending text
    rwa [scan_eq_concat] at hascending
  behind := Nat.zero_le _

theorem SourceFile.root_endsAtToken (text : List Char) : (ofText text).root.EndsAtToken := by
  have hreads := reads_declarations text
  refine .node ?_ fun t ht => ?_
  · rw [tokensAll_append, List.getLast?_append]
    rfl
  · rcases List.mem_append.1 ht with ht | ht
    · exact hreads.endsAtToken (Grammar.inOrder_startOf text) t ht
    · rw [List.mem_singleton.1 ht]
      exact .leaf _ _

namespace NodeTable

/-- Where an entry ends. -/
def stop (t : NodeTable) (i : Nat) : Nat := ((t.get? (some i)).map (·.span.stop)).getD 0

section Sites

variable {root : Tree} {u : Site} {parent : Ref} {base : Nat}

theorem stop_ofTree (hu : u ∈ root.sites none 0) :
    (ofTree root).stop u.index = u.tree.span.stop := by
  rw [stop, get?_ofTree hu, Option.map_some, Option.getD_some, Site.span_entry]

theorem endsAtToken_of_mem_sites (h : root.EndsAtToken) (hu : u ∈ root.sites parent base) :
    u.tree.EndsAtToken :=
  of_mem_sites (fun _ _ _ _ hnode => by cases hnode with | node _ inside => exact inside) h hu

/-- The subtrees of a subtree follow each other among those of the tree. -/
theorem exists_sites_eq (hu : u ∈ root.sites parent base) :
    ∃ xs ys, root.sites parent base = xs ++ (u.tree.sites u.parent u.base ++ ys) := by
  induction root using induct generalizing parent base with
  | leaf slot token =>
    obtain rfl := List.mem_singleton.1 hu
    exact ⟨[], [], rfl⟩
  | node slot k span children ih =>
    rcases List.mem_append.1 hu with hu | hu
    · obtain ⟨before, t, after, rfl, hu⟩ := mem_sitesAll.1 hu
      obtain ⟨xs, ys, hsites⟩ := ih t (by simp) hu
      rw [Tree.sites, sitesAll_append, sitesAll, hsites]
      simp only [List.append_assoc]
      rw [← List.append_assoc]
      exact ⟨_, _, rfl⟩
    · obtain rfl := List.mem_singleton.1 hu
      exact ⟨[], [], by simp⟩

/-- The tokens of a subtree follow each other in the text and in the table. -/
theorem exists_tokens_eq (hu : u ∈ root.sites none 0) :
    ∃ (before after : List Token) (left right : List Nat),
      root.tokens = before ++ (u.tree.tokens ++ after) ∧ before.length = left.length ∧
      (ofTree root).tokens.toList =
        left ++ (((u.tree.sites u.parent u.base).filter (·.token?.isSome)).map Site.index ++ right) ∧
      (∀ i ∈ left, i < u.base) ∧ ∀ i ∈ right, u.index < i := by
  obtain ⟨xs, ys, hsites⟩ := exists_sites_eq hu
  have hpairs := root.pairwise_sites none 0
  rw [hsites, List.pairwise_append, List.pairwise_append] at hpairs
  obtain ⟨-, ⟨-, -, hright⟩, hleft⟩ := hpairs
  have hpos := u.tree.size_pos
  obtain ⟨v, hv, hbase⟩ : ∃ v ∈ u.tree.sites u.parent u.base, v.index = u.base :=
    exists_site (Nat.le_refl _) (by omega)
  refine ⟨xs.filterMap Site.token?, ys.filterMap Site.token?,
    (xs.filter (·.token?.isSome)).map Site.index, (ys.filter (·.token?.isSome)).map Site.index,
    ?_, ?_, ?_, fun i hi => ?_, fun i hi => ?_⟩
  · rw [← filterMap_token_sites none 0 root, hsites, List.filterMap_append, List.filterMap_append,
      filterMap_token_sites]
  · rw [List.length_map, List.length_filterMap_eq_countP, List.countP_eq_length_filter]
  · rw [tokens_ofTree, leafSites, hsites, List.filter_append, List.filter_append, List.map_append,
      List.map_append]
  · obtain ⟨s, hs, rfl⟩ := List.mem_map.1 hi
    rw [← hbase]
    exact hleft s (List.mem_filter.1 hs).1 v (List.mem_append_left _ hv)
  · obtain ⟨s, hs, rfl⟩ := List.mem_map.1 hi
    exact hright u (self_mem_sites _ _ _) s (List.mem_filter.1 hs).1

/-- The tokens of a subtree are those below it, from a place on. -/
theorem exists_place (hu : u ∈ root.sites none 0) : ∃ first,
    (∀ m x, u.tree.tokens[m]? = some x → root.tokens[first + m]? = some x) ∧
      ∀ n j, (ofTree root).tokens[n]? = some j →
        ((ofTree root).Below j u.index ↔ first ≤ n ∧ n < first + u.tree.tokens.length) := by
  obtain ⟨before, after, left, right, hroot, hbefore, htokens, hleft, hright⟩ := exists_tokens_eq hu
  have hlength : (((u.tree.sites u.parent u.base).filter (·.token?.isSome)).map Site.index).length =
      u.tree.tokens.length := by
    rw [List.length_map, ← filterMap_token_sites u.parent u.base u.tree,
      List.length_filterMap_eq_countP, List.countP_eq_length_filter]
  refine ⟨before.length, fun m x hx => ?_, fun n j hj => ?_⟩
  · obtain ⟨hm, -⟩ := List.getElem?_eq_some_iff.1 hx
    rw [hroot, List.getElem?_append_right (Nat.le_add_right _ _), Nat.add_sub_cancel_left,
      List.getElem?_append_left hm, hx]
  rw [below_iff hu, ← hlength, hbefore]
  rw [← Array.getElem?_toList, htokens, List.getElem?_append] at hj
  split at hj
  · have := hleft j (List.mem_of_getElem? hj)
    omega
  · rw [List.getElem?_append] at hj
    split at hj
    · obtain ⟨s, hs, rfl⟩ := List.mem_map.1 (List.mem_of_getElem? hj)
      have hindex := index_mem_sites (List.mem_filter.1 hs).1
      unfold Site.index at *
      omega
    · have := hright j (List.mem_of_getElem? hj)
      have := u.base_le_index
      omega

theorem start_of_place {n : Nat} {x : Token} (h : root.tokens[n]? = some x) :
    (ofTree root).tokens[n]?.map (ofTree root).start = some x.start := by
  obtain ⟨s, hs, hx, hn⟩ := exists_leafSite h
  rw [hn, Option.map_some, start_ofTree hs, ← Site.span_entry, Site.entry_of_token hx]
  rfl

theorem stop_of_place {n : Nat} {x : Token} (h : root.tokens[n]? = some x) :
    (ofTree root).tokens[n]?.map (ofTree root).stop = some x.stop := by
  obtain ⟨s, hs, hx, hn⟩ := exists_leafSite h
  rw [hn, Option.map_some, stop_ofTree hs, ← Site.span_entry, Site.entry_of_token hx]
  rfl

end Sites

/-- The tokens below a node stand at the places from `first` to `last`, and the node reaches from
the start of the first to the end of the last. -/
structure Spans (t : NodeTable) (i first last : Nat) : Prop where
  le : first ≤ last
  below : ∀ n j : Nat, t.tokens[n]? = some j → (t.Below j i ↔ first ≤ n ∧ n ≤ last)
  start : t.tokens[first]?.map t.start = some (t.start i)
  stop : t.tokens[last]?.map t.stop = some (t.stop i)

/-- No token is below a node, and it spans nothing. -/
structure SpansNothing (t : NodeTable) (i : Nat) : Prop where
  below : ∀ n j : Nat, t.tokens[n]? = some j → ¬t.Below j i
  stop : t.stop i = t.start i

section Nodes

variable (text : List Char) {u : Site} {slot : Slot} {k : NodeKind} {span : Span} {ts : List Tree}
  (hu : u ∈ (SourceFile.ofText text).root.sites none 0) (htree : u.tree = .node slot k span ts)

include hu htree

theorem exists_spans (hne : tokensAll ts ≠ []) :
    ∃ first last, (ofTree (SourceFile.ofText text).root).Spans u.index first last := by
  have hends := endsAtToken_of_mem_sites (SourceFile.root_endsAtToken text) hu
  have hstarts := startsAtToken_of_mem_sites (SourceFile.root_startsAtToken text) hu
  have hstart : (ofTree (SourceFile.ofText text).root).start u.index = span.start := by
    rw [start_ofTree hu, htree]
    rfl
  have hstop : (ofTree (SourceFile.ofText text).root).stop u.index = span.stop := by
    rw [stop_ofTree hu, htree]
    rfl
  obtain ⟨first, hplace, hbelow⟩ := exists_place hu
  rw [htree] at hends hstarts hplace hbelow
  cases hends with
  | node hend _ =>
  cases hstarts with
  | node hbegin _ =>
  obtain ⟨init, y, hconcat⟩ := (List.eq_nil_or_concat' (tokensAll ts)).resolve_left hne
  have hlength : (tokensAll ts).length = init.length + 1 := by rw [hconcat]; simp
  obtain ⟨x, hx⟩ : ∃ x, (tokensAll ts)[0]? = some x :=
    ⟨_, List.getElem?_eq_getElem (by omega)⟩
  have hlast : (tokensAll ts)[init.length]? = some y := by rw [hconcat]; simp
  refine ⟨first, first + init.length, Nat.le_add_right _ _, fun n j hj => ?_, ?_, ?_⟩
  · have hiff := hbelow n j hj
    rw [Tree.tokens, hlength] at hiff
    rw [hiff]
    omega
  · rw [hstart, hbegin x (by rw [List.head?_eq_getElem?]; exact hx)]
    exact start_of_place (hplace 0 x hx)
  · rw [hstop, hend, hconcat, List.getLast?_concat]
    exact stop_of_place (hplace _ y hlast)

theorem spansNothing (hnil : tokensAll ts = []) :
    (ofTree (SourceFile.ofText text).root).SpansNothing u.index where
  below := fun n j hj hb => by
    obtain ⟨first, -, hbelow⟩ := exists_place hu
    have := (hbelow n j hj).1 hb
    rw [htree, Tree.tokens, hnil, List.length_nil] at this
    omega
  stop := by
    have hends := endsAtToken_of_mem_sites (SourceFile.root_endsAtToken text) hu
    rw [htree] at hends
    cases hends with
    | node hend _ =>
    rw [hnil] at hend
    rw [start_ofTree hu, stop_ofTree hu, htree]
    exact hend

end Nodes

/-- Every node reaches from the start of its first token to the end of its last one, and its tokens
follow each other. Only a declared name may have no token, and then it is empty. -/
theorem ofText_exact (text : List Char) {i : Nat} {k : NodeKind}
    (h : (ofText text).node? (some i) = some k) :
    (∃ first last, (ofText text).Spans i first last) ∨
      (k = .variableDeclarator ∧ (ofText text).SpansNothing i) := by
  rw [ofText_eq] at h ⊢
  obtain ⟨u, hu, rfl, hk⟩ := exists_site_of_node h
  obtain ⟨slot, span, ts, htree⟩ := eq_node_of_kind hk
  by_cases hnil : tokensAll ts = []
  · -- only a declared name may have no token
    refine .inr ⟨?_, spansNothing text hu htree hnil⟩
    by_contra hne
    refine ((SourceFile.root_wellFormed text).of_mem_sites hu).tokens_ne_nil ?_ ?_
    · rw [hk]
      exact fun heq => hne (Kind.node.inj heq)
    · rw [htree]
      exact hnil
  · exact .inl (exists_spans text hu htree hnil)

/-- A field with a name that is missing. -/
theorem ofText_exact_field :
    ∃ first last, (ofText "class A{int x,;}".toList).Spans 10 first last :=
  (ofText_exact "class A{int x,;}".toList (i := 10) (k := .fieldDeclaration)
    (by decide +kernel)).resolve_right fun h => nomatch h.1

end NodeTable

end Caret
