import Caret.Proofs.CleanDeclarations
import Caret.Proofs.TokenOrder
import Caret.Proofs.TypedData
import Mathlib.Data.List.Sort
/-!
# Texts without diagnostics

If a text is read without a diagnostic, nothing is missing from its tree: every node has the children
that its kind asks for, and a body is only missing right before a closing brace
(`NodeTable.ofText_whole`).

Of the parsers alone it is only known that a body may also be missing at the end of the file. But
statements stand in blocks, and a block without a report has its closing brace.
-/

namespace Caret

open Pattern Tree

/-- A node is whole, and lacks a body only before a closing brace. -/
abbrev WholeNode : NodeKind → List Tree → TokenKind → Prop := NodeKind.Whole (· == .closeBrace)

/-! ## Bodies before the end of the file -/

theorem kindAfter_ne {ts : List Token} {next k : TokenKind} (hn : ts = [] → next ≠ k)
    (ht : ∀ x ∈ ts, x.kind ≠ k) : kindAfter ts next ≠ k := by
  cases ts with
  | nil => exact hn rfl
  | cons x xs => exact ht x (List.mem_cons_self ..)

theorem NodeKind.Whole.beforeBrace {k : NodeKind} {ts : List Tree} {next : TokenKind}
    (h : k.Whole (fun k => !Grammar.continuesBraces k) ts next) (hn : next ≠ .endOfFile) :
    WholeNode k ts next := by
  refine ⟨h.covers, fun hk => (h.body hk).imp_right fun hends => ?_⟩
  simpa [Grammar.continuesBraces, hn] using hends

section Sharpen

variable {next : TokenKind} {t : Tree}

/-- The file does not end right behind a node in a tree that it does not end behind. -/
theorem Throughout.beforeBrace
    (h : Throughout (NodeKind.Whole fun k => !Grammar.continuesBraces k) next t)
    (hn : next ≠ .endOfFile) (ht : ∀ x ∈ t.tokens, x.kind ≠ .endOfFile) :
    Throughout WholeNode next t := by
  induction h with
  | leaf s t => exact .leaf s t
  | node hk _ ih =>
    refine .node (hk.beforeBrace hn) ?_
    rintro before u after rfl
    simp only [tokens, tokensAll_append, tokensAll, List.mem_append] at ht
    exact ih before u after rfl (kindAfter_ne (fun _ => hn) fun x hx => ht x (.inr (.inr hx)))
      fun x hx => ht x (.inr (.inl hx))

theorem NodeKind.takesBody_of_allows {k : NodeKind} {t : Tree} {ts : List Tree}
    (hc : k.whole.Covers ts) (ht : t ∈ ts) (hk : k.takesBody = false) (hb : k ≠ .block) :
    ∀ l, t.kind = .node l → l.takesBody = false := by
  intro l hl
  have ho : k.whole.onlyNodes (!·.takesBody) := by
    cases k <;> first | rfl | exact absurd rfl hb | cases hk
  have hallows := hc.allows t ht
  rw [hl] at hallows
  simpa using of_allows_node ho hallows

/-- A closing brace follows the statements of a block. -/
theorem Throughout.inBlock {ts : List Tree}
    (h : ThroughoutAll (NodeKind.Whole fun k => !Grammar.continuesBraces k) next ts)
    (hc : (NodeKind.whole .block).Covers ts) (ht : ∀ x ∈ tokensAll ts, x.kind ≠ .endOfFile) :
    ThroughoutAll WholeNode next ts := by
  obtain ⟨us, vs, rfl, -, hclose⟩ := covers_seq.1 hc
  obtain ⟨brace, rfl, -⟩ := covers_leaf.1 hclose
  intro before u after he
  rcases List.eq_nil_or_concat' after with rfl | ⟨late, v, rfl⟩
  · obtain ⟨-, hlast⟩ := List.append_inj' he rfl
    rw [← List.singleton_inj.1 hlast]
    exact .leaf _ _
  · have hu := h before u _ he
    rw [he, tokensAll_append, tokensAll] at ht
    simp only [List.mem_append] at ht
    rw [← List.cons_append, ← List.append_assoc] at he
    obtain ⟨-, hlast⟩ := List.append_inj' he rfl
    have hne : tokensAll (late ++ [v]) ≠ [] := by
      rw [← List.singleton_inj.1 hlast, tokensAll_append]
      simp [tokensAll, tokens]
    exact hu.beforeBrace (kindAfter_ne (fun hnil => absurd hnil hne) fun x hx =>
      ht x (.inr (.inr hx))) fun x hx => ht x (.inr (.inl hx))

/-- In a tree that is no branch or loop itself all of them stand in blocks. -/
theorem Throughout.sharpen
    (h : Throughout (NodeKind.Whole fun k => !Grammar.continuesBraces k) next t)
    (ht : ∀ x ∈ t.tokens, x.kind ≠ .endOfFile)
    (hk : ∀ k, t.kind = .node k → k.takesBody = false) : Throughout WholeNode next t := by
  induction h with
  | leaf s t => exact .leaf s t
  | @node next s k span ts hwhole hu ih =>
    have hbody : k.takesBody = false := hk k rfl
    refine .node (.of_covers hwhole.covers hbody) ?_
    by_cases hb : k = .block
    · subst hb
      exact Throughout.inBlock hu hwhole.covers ht
    · rintro before u after rfl
      refine ih before u after rfl (fun x hx => ht x ?_)
        (NodeKind.takesBody_of_allows hwhole.covers (by simp) hbody hb)
      simp [tokens, tokensAll_append, tokensAll, hx]

end Sharpen

/-- Without diagnostics all nodes of the tree are whole. -/
theorem SourceFile.root_whole {text : List Char} (h : (ofText text).diagnostics = []) :
    Throughout WholeNode .endOfFile (ofText text).root := by
  obtain ⟨hreads, hclean⟩ := Grammar.clean_declarations (P := Parser.Any) (Grammar.startOf text) trivial
  obtain ⟨hwhole, hcovers⟩ := hclean (List.reverse_eq_nil_iff.1 h)
  rw [Grammar.kind_declarations] at hwhole
  have htokens : ∀ x ∈ tokensAll (Grammar.declarations (Grammar.startOf text)).1,
      x.kind ≠ .endOfFile := by
    intro x hx
    refine scan_dropLast_kind text x ?_
    change x ∈ (Grammar.startOf text).rest
    rw [← hreads.tokens]
    exact List.mem_append_left _ hx
  refine .node (.of_covers (hcovers.seq (covers_leaf.2 ⟨_, rfl, rfl⟩)) rfl) ?_
  refine ThroughoutAll.append (fun before u after he => ?_) (.single (.leaf _ _))
  rw [he] at htokens hcovers
  refine (hwhole before u after he).sharpen (fun x hx => htokens x ?_) fun l hl => ?_
  · simp [tokensAll_append, tokensAll, hx]
  · have hallows := hcovers.allows u (by simp)
    rw [hl] at hallows
    have ho : (many (Pattern.node .item NodeKind.isOuter)).onlyNodes (!·.takesBody) := rfl
    simpa using of_allows_node ho hallows

/-! ## Nodes of a table -/

section Sites

variable {R : NodeKind → List Tree → TokenKind → Prop} {next : TokenKind} {t : Tree} {parent : Ref}
  {base : Nat} {u : Site} {slot : Slot} {k : NodeKind} {span : Span} {ts : List Tree}

/-- What holds throughout a tree holds of each of its nodes, whose subtrees stand together, with the
tokens behind them. -/
theorem Throughout.at_subtree (h : Throughout R next t) (hu : u ∈ t.sites parent base)
    (ht : u.tree = .node slot k span ts) : ∃ before after,
      t.sites parent base = before ++ (u.tree.sites u.parent u.base ++ after) ∧
        R k ts (kindAfter (after.filterMap Site.token?) next) := by
  induction h generalizing parent base with
  | leaf s t =>
    rw [List.mem_singleton.1 hu] at ht
    cases ht
  | @node next s l sp children hk _ ih =>
    rcases List.mem_append.1 hu with hu | hu
    · obtain ⟨bs, v, as, rfl, hu⟩ := mem_sitesAll.1 hu
      obtain ⟨before, after, he, hR⟩ := ih bs v as rfl hu
      let up := some (base + sizes (bs ++ v :: as))
      let self : Site := ⟨parent, base, .node s l sp (bs ++ v :: as)⟩
      refine ⟨sitesAll up base bs ++ before,
        after ++ (sitesAll up (base + sizes bs + v.size) as ++ [self]), ?_, ?_⟩
      · rw [sites, sitesAll_append, sitesAll, he]
        simp [up, self]
      · have hself : [self].filterMap Site.token? = [] := rfl
        rw [List.filterMap_append, List.filterMap_append, filterMap_token_sitesAll, hself,
          List.append_nil, kindAfter_append]
        exact hR
    · obtain rfl := List.mem_singleton.1 hu
      cases ht
      exact ⟨[], [], by simp, hk⟩

/-- So it does with the tokens behind the node itself. -/
theorem Throughout.at_site (h : Throughout R next t) (hu : u ∈ t.sites parent base)
    (ht : u.tree = .node slot k span ts) : ∃ before after,
      t.sites parent base = before ++ u :: after ∧
        R k ts (kindAfter (after.filterMap Site.token?) next) := by
  obtain ⟨before, after, he, hR⟩ := h.at_subtree hu ht
  refine ⟨before ++ sitesAll (some (u.base + sizes ts)) u.base ts, after, ?_, hR⟩
  rw [he, ht, sites]
  simp [← ht]

end Sites

/-- The slots that must be filled are slots of the data. -/
theorem NodeKind.mem_slots_of_required (k : NodeKind) :
    ∀ s ∈ k.required, s ∈ k.slots.map (·.1) := by
  cases k <;> decide

theorem Child.exists_filling {cs : List Child} {slot : Slot × Bool} {c : Child} (hc : c ∈ cs)
    (hs : c.slot = slot.1) : ∃ j, (slot.1, some j) ∈ filling cs slot := by
  unfold filling listIn inSlot
  split
  · refine ⟨c.index, List.mem_map_of_mem ?_⟩
    exact List.mem_map_of_mem (List.mem_filter.2 ⟨hc, by simp [hs]⟩)
  · have hfind : (cs.find? (·.slot == slot.1)).isSome := List.find?_isSome.2 ⟨c, hc, by simp [hs]⟩
    obtain ⟨d, hd⟩ := Option.isSome_iff_exists.1 hfind
    exact ⟨d.index, by simp [hd]⟩

theorem Site.exists_child {u : Site} {slot : Slot} {k : NodeKind} {span : Span} {ts : List Tree}
    {t : Tree} (hu : u.tree = .node slot k span ts) (ht : t ∈ ts) :
    ∃ v ∈ u.children, v.tree = t := by
  rw [← map_tree_childSites (some u.index) u.base ts] at ht
  rw [children, hu]
  exact List.mem_map.1 ht

/-- The children around one of them stand before and behind it. -/
theorem Site.exists_split {u : Site} {slot : Slot} {k : NodeKind} {span : Span} {t : Tree}
    {before after : List Tree} (hu : u.tree = .node slot k span (before ++ t :: after)) :
    ∃ us v vs, u.children = us ++ v :: vs ∧ us.map (·.tree) = before ∧ v.tree = t ∧
      vs.map (·.tree) = after ∧ (∀ w ∈ us, w.index < v.base) ∧ ∀ w ∈ vs, v.index < w.base := by
  have htrees := map_tree_childSites (some u.index) u.base (before ++ t :: after)
  have hpairs := pairwise_childSites (some u.index) u.base (before ++ t :: after)
  have hall : u.children = childSites (some u.index) u.base (before ++ t :: after) := by
    rw [children, hu, Tree.children]
  rw [← hall] at htrees hpairs
  obtain ⟨us, rest, hsplit, hus, hrest⟩ := List.map_eq_append_iff.1 htrees
  obtain ⟨v, vs, rfl, hv, hvs⟩ := List.map_eq_cons_iff.1 hrest
  rw [hsplit, List.pairwise_append, List.pairwise_cons] at hpairs
  obtain ⟨-, ⟨hlate, -⟩, hearly⟩ := hpairs
  exact ⟨us, v, vs, hsplit, hus, hv, hvs, fun w hw => hearly w hw v (by simp), hlate⟩

namespace NodeTable

/-- The children of an entry in their order. -/
def children (t : NodeTable) (i : Nat) : List Nat :=
  (List.range t.size).filter fun j => t.parent (some j) == some i

/-- The kinds of the children of an entry. -/
def childKinds (t : NodeTable) (i : Nat) : List Kind :=
  (t.children i).filterMap fun j => t.kind? (some j)

/-- The second entry is the first token behind the first entry. -/
def FirstTokenBehind (t : NodeTable) (i j : Nat) : Prop :=
  i < j ∧ (t.token? (some j)).isSome ∧ ∀ m, i < m → m < j → t.token? (some m) = none

/-- Nothing is missing from the nodes of a table. -/
structure Whole (t : NodeTable) : Prop where
  /-- The children of a node are those that its kind asks for. -/
  children : ∀ i k, t.node? (some i) = some k →
    ∃ ts, k.whole.Covers ts ∧ ts.map Tree.kind = t.childKinds i
  /-- No declaration breaks off. -/
  unbroken : ∀ i, t.node? (some i) ≠ some .incompleteMember
  /-- Each slot that must be filled is filled with a child that fits it. -/
  filled : ∀ i k, t.node? (some i) = some k → ∀ s ∈ k.required, ∃ j l,
    (s, some j) ∈ (t.data (some i)).slots ∧ t.parent (some j) = some i ∧
      t.kind? (some j) = some l ∧ k.fits l s
  /-- A branch or loop has a statement for its body, or a closing brace is right behind it. -/
  body : ∀ i k, t.node? (some i) = some k → k.takesBody →
    (∃ j, t.parent (some j) = some i ∧ t.isNode NodeKind.isStatement (some j)) ∨
      ∃ j, t.FirstTokenBehind i j ∧ t.token? (some j) = some .closeBrace

variable {root : Tree} {u : Site} {i : Nat} {k : NodeKind}

/-- An entry that is a node stands for a node of the tree. -/
theorem exists_nodeSite (h : (ofTree root).node? (some i) = some k) :
    ∃ u ∈ root.sites none 0, u.index = i ∧ ∃ slot span ts, u.tree = .node slot k span ts := by
  obtain ⟨u, hu, hi, hk⟩ := exists_site_of_node h
  exact ⟨u, hu, hi, Tree.eq_node_of_kind hk⟩

theorem parent_of_mem_children {v : Site} (hu : u ∈ root.sites none 0) (hv : v ∈ u.children) :
    (ofTree root).parent (some v.index) = some u.index := by
  rw [parent_ofTree (Site.mem_sites_of_mem_children hu hv)]
  obtain ⟨_, _, _, _, _, -, hp, -⟩ := Site.mem_children.1 hv
  exact hp

theorem children_ofTree (hu : u ∈ root.sites none 0) :
    (ofTree root).children u.index = u.children.map Site.index := by
  refine List.Pairwise.eq_of_mem_iff (r := (· < ·)) (List.pairwise_lt_range.filter _) ?_ fun j => ?_
  · exact List.pairwise_map.2 ((Tree.pairwise_childSites _ _ _).imp fun {a b} h =>
      Nat.lt_of_lt_of_le h b.base_le_index)
  · rw [children, List.mem_filter, List.mem_range, beq_iff_eq, List.mem_map]
    constructor
    · rintro ⟨-, hp⟩
      obtain ⟨s, -, v, hv, rfl, hi, hc⟩ := exists_site_of_hasParent hp
      rw [Tree.site_unique hv hu hi] at hc
      exact ⟨s, Site.mem_children.2 hc, rfl⟩
    · rintro ⟨s, hs, rfl⟩
      have hlt := (Tree.index_mem_sites (Site.mem_sites_of_mem_children hu hs)).2
      rw [size_ofTree]
      exact ⟨by omega, parent_of_mem_children hu hs⟩

/-- The kinds of the children of an entry are those of the children of its node. -/
theorem childKinds_ofTree {slot : Slot} {span : Span} {ts : List Tree}
    (hu : u ∈ root.sites none 0) (ht : u.tree = .node slot k span ts) :
    (ofTree root).childKinds u.index = ts.map Tree.kind := by
  have hkinds : u.children.filterMap (fun s => (ofTree root).kind? (some s.index)) =
      u.children.filterMap fun s => some s.tree.kind :=
    List.filterMap_congr fun s hs => kind?_ofTree (Site.mem_sites_of_mem_children hu hs)
  rw [childKinds, children_ofTree hu, List.filterMap_map]
  refine hkinds.trans ?_
  have hmap : u.children.map (fun s => s.tree.kind) = (u.children.map (·.tree)).map Tree.kind := by
    simp
  rw [List.filterMap_eq_map', hmap, Site.children, Tree.map_tree_childSites, ht]
  rfl

/-! ## Whole tables -/

/-- Some child fills a slot that must be filled. -/
theorem exists_filling (hroot : root.WellFormed) (hu : u ∈ root.sites none 0)
    (hk : (ofTree root).node? (some u.index) = some k) {slot : Slot} {span : Span} {ts : List Tree}
    (ht : u.tree = .node slot k span ts) (hc : k.whole.Covers ts) {s : Slot} (hs : s ∈ k.required) :
    ∃ j l, (s, some j) ∈ ((ofTree root).data (some u.index)).slots ∧
      (ofTree root).parent (some j) = some u.index ∧ (ofTree root).kind? (some j) = some l ∧
        k.fits l s := by
  obtain ⟨t, hmem, hslot⟩ := hc.demands (k.demands_required s hs)
  obtain ⟨v, hv, rfl⟩ := Site.exists_child ht hmem
  obtain ⟨⟨s, list⟩, hsl, rfl⟩ := List.mem_map.1 (k.mem_slots_of_required s hs)
  have hchild : v.asChild ∈ u.children.map Site.asChild := List.mem_map_of_mem hv
  obtain ⟨j, hj⟩ := Child.exists_filling hchild hslot
  have hdata : (s, some j) ∈ ((ofTree root).data (some u.index)).slots := by
    rw [data_ofTree hu, Site.data_entry ht, Data.slots_ofChildren]
    exact List.mem_flatMap.2 ⟨(s, list), hsl, hj⟩
  obtain ⟨hp, owner, l, ho, hl, hfits⟩ := ofTree_fits hroot _ _ _ hdata
  rw [hk, Option.some.injEq] at ho
  exact ⟨j, l, hdata, hp, hl, ho ▸ hfits⟩

/-- What stands between two entries of the table stands between them in the list of subtrees. -/
theorem mem_between {before between late : List Site} {v w : Site}
    (hsites : root.sites none 0 = before ++ u :: (between ++ v :: late))
    (hw : w ∈ root.sites none 0) (hu : u.index < w.index) (hv : w.index < v.index) :
    w ∈ between := by
  have hpairs := root.pairwise_sites none 0
  simp only [hsites, List.pairwise_append, List.pairwise_cons, List.mem_append, List.mem_cons]
    at hpairs
  obtain ⟨-, ⟨-, -, ⟨hlate, -⟩, -⟩, hbefore⟩ := hpairs
  rw [hsites] at hw
  simp only [List.mem_append, List.mem_cons] at hw
  rcases hw with hw | rfl | hw | rfl | hw
  · exact absurd (hbefore w hw u (.inl rfl)) (by omega)
  · exact absurd hu (Nat.lt_irrefl _)
  · exact hw
  · exact absurd hv (Nat.lt_irrefl _)
  · exact absurd (hlate w hw) (by omega)

/-- The first token behind an entry is the first of the leaves behind it. -/
theorem firstTokenBehind_of_leaves {before after : List Site} {x : Token} {xs : List Token}
    (hsites : root.sites none 0 = before ++ u :: after)
    (hx : after.filterMap Site.token? = x :: xs) :
    ∃ j, (ofTree root).FirstTokenBehind u.index j ∧
      (ofTree root).token? (some j) = some x.kind := by
  obtain ⟨between, v, late, rfl, hnone, hv, -⟩ := List.filterMap_eq_cons_iff.1 hx
  have hmem : v ∈ root.sites none 0 := by simp [hsites]
  have htoken : (ofTree root).token? (some v.index) = some x.kind := by
    rw [token?_ofTree hmem, hv]
    rfl
  have hlt : u.index < v.index := by
    have hpairs := root.pairwise_sites none 0
    rw [hsites, List.pairwise_append, List.pairwise_cons] at hpairs
    exact hpairs.2.1.1 v (by simp)
  refine ⟨v.index, ⟨hlt, by rw [htoken]; rfl, fun m hum hmv => ?_⟩, htoken⟩
  have hm : m < (ofTree root).size := by
    have := (Tree.index_mem_sites hmem).2
    rw [size_ofTree]
    omega
  obtain ⟨w, hw, rfl⟩ := exists_site_of_lt hm
  rw [token?_ofTree hw, hnone w (mem_between hsites hw hum hmv)]
  rfl

theorem exists_firstTokenBehind {before after : List Site} {kind : TokenKind}
    (hsites : root.sites none 0 = before ++ u :: after)
    (hk : kindAfter (after.filterMap Site.token?) .endOfFile = kind) (hne : kind ≠ .endOfFile) :
    ∃ j, (ofTree root).FirstTokenBehind u.index j ∧ (ofTree root).token? (some j) = some kind := by
  cases hf : after.filterMap Site.token? with
  | nil =>
    rw [hf] at hk
    exact absurd hk.symm hne
  | cons x xs =>
    rw [hf] at hk
    exact hk ▸ firstTokenBehind_of_leaves hsites hf

/-- Nothing is missing from the table of a text that is read without diagnostics. -/
theorem ofText_whole (text : List Char) (h : (SourceFile.ofText text).diagnostics = []) :
    (ofText text).Whole := by
  have hroot := SourceFile.root_wellFormed text
  have hwhole := SourceFile.root_whole h
  rw [ofText_eq]
  generalize (SourceFile.ofText text).root = root at *
  have exists_whole {i : Nat} {k : NodeKind} (hk : (ofTree root).node? (some i) = some k) :
      ∃ u ∈ root.sites none 0, u.index = i ∧ ∃ slot span ts, u.tree = .node slot k span ts ∧
        ∃ before after, root.sites none 0 = before ++ u :: after ∧
          WholeNode k ts (kindAfter (after.filterMap Site.token?) .endOfFile) := by
    obtain ⟨u, hu, hi, slot, span, ts, ht⟩ := exists_nodeSite hk
    exact ⟨u, hu, hi, slot, span, ts, ht, hwhole.at_site hu ht⟩
  refine ⟨fun i k hk => ?_, fun i hk => ?_, fun i k hk s hs => ?_, fun i k hk hb => ?_⟩
  · obtain ⟨u, hu, rfl, slot, span, ts, ht, before, after, hsites, hnode⟩ := exists_whole hk
    exact ⟨ts, hnode.covers, (childKinds_ofTree hu ht).symm⟩
  · obtain ⟨u, hu, rfl, slot, span, ts, ht, before, after, hsites, hnode⟩ := exists_whole hk
    exact not_covers_never hnode.covers
  · obtain ⟨u, hu, rfl, slot, span, ts, ht, before, after, hsites, hnode⟩ := exists_whole hk
    exact exists_filling hroot hu hk ht hnode.covers hs
  · obtain ⟨u, hu, rfl, slot, span, ts, ht, before, after, hsites, hnode⟩ := exists_whole hk
    rcases hnode.body hb with ⟨t, hmem, hstatement⟩ | hends
    · obtain ⟨v, hv, rfl⟩ := Site.exists_child ht hmem
      refine .inl ⟨v.index, parent_of_mem_children hu hv, ?_⟩
      rw [isNode, node?_ofTree (Site.mem_sites_of_mem_children hu hv)]
      exact hstatement
    · exact .inr (exists_firstTokenBehind hsites (eq_of_beq hends) (by decide))

/-- A text with a branch, a call and operators. -/
def branchingText : List Char :=
  "class C : B \x7b int P => -x; C(int a) \x7b if (a + 1) M(a); else \x7b \x7d \x7d \x7d".toList

theorem ofText_whole_branching :
    (SourceFile.ofText branchingText).diagnostics = [] ∧ (ofText branchingText).Whole :=
  ⟨by decide +kernel, ofText_whole branchingText (by decide +kernel)⟩

/-- A text with a branch that has neither a condition nor a body. -/
def emptyBranchText : List Char := "class C\x7bvoid M()\x7bif()\x7d\x7d".toList

theorem childKinds_emptyBranchText : (SourceFile.ofText emptyBranchText).diagnostics = [] ∧
    (ofText emptyBranchText).node? (some 13) = some .ifStatement ∧
    (ofText emptyBranchText).childKinds 13 =
      [.token .ifKeyword, .token .openParen, .token .closeParen] := by
  decide +kernel

end NodeTable

end Caret
