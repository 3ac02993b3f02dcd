import Caret.Proofs.DeclarationPatterns
import Caret.Proofs.ArenaOfText
/-!
# The tokens of a table

A token is added to the arena when it is read (`add_token`), so the entries of tokens stand in a
table in the order of the leaves, so the tokens that the table of a text lists are those that the
text is cut into (`ofText_lossless`).
-/

namespace Caret

namespace Site

/-- The token that the subtree is. -/
def token? (s : Site) : Option Token :=
  match s.tree with
  | .leaf _ t => some t
  | .node .. => none

theorem entry_of_token {s : Site} {t : Token} (h : s.token? = some t) :
    s.entry = Tree.leafEntry s.parent t := by
  cases hs : s.tree with
  | leaf slot u =>
    rw [token?, hs] at h
    rw [entry, hs, ← Option.some.inj h]
  | node =>
    rw [token?, hs] at h
    cases h

theorem isToken_entry (s : Site) : s.entry.isToken = s.token?.isSome := by
  unfold Entry.isToken token?
  rw [kind_entry]
  cases s.tree <;> rfl

end Site

namespace Tree

mutual

theorem filterMap_token_sites (parent : Ref) (base : Nat) (t : Tree) :
    (t.sites parent base).filterMap Site.token? = t.tokens := by
  cases t with
  | leaf => rfl
  | node _ _ _ children =>
    rw [sites, List.filterMap_append, filterMap_token_sitesAll, tokens]
    simp [Site.token?]

theorem filterMap_token_sitesAll (parent : Ref) (base : Nat) (ts : List Tree) :
    (sitesAll parent base ts).filterMap Site.token? = tokensAll ts := by
  cases ts with
  | nil => rfl
  | cons t ts =>
    rw [sitesAll, List.filterMap_append, filterMap_token_sites, filterMap_token_sitesAll, tokensAll]

end

/-- The subtrees of a child stand together among those of its parent, those of the children before
it on the left and those of the children behind it on the right. -/
theorem exists_sites_of_child {u v : Site} {slot : Slot} {k : NodeKind} {span : Span}
    {before after : List Tree} (ht : u.tree = .node slot k span (before ++ v.tree :: after))
    (hp : v.parent = some u.index) (hb : v.base = u.base + sizes before) : ∃ left right,
      u.tree.sites u.parent u.base = left ++ (v.tree.sites v.parent v.base ++ right) ∧
        left.filterMap Site.token? = tokensAll before ∧
        right.filterMap Site.token? = tokensAll after := by
  have hup : some (u.base + sizes (before ++ v.tree :: after)) = v.parent := by
    rw [hp, Site.index, ht, size]
    rfl
  refine ⟨sitesAll v.parent u.base before, sitesAll v.parent (v.base + v.tree.size) after ++ [u],
    ?_, filterMap_token_sitesAll .., ?_⟩
  · have hself :
        (⟨u.parent, u.base, .node slot k span (before ++ v.tree :: after)⟩ : Site) = u := by
      rw [← ht]
    rw [ht, sites, hup, sitesAll_append, sitesAll, hself, hb]
    simp
  · rw [List.filterMap_append, filterMap_token_sitesAll]
    simp [Site.token?, ht]

/-- The subtrees that are tokens. -/
def leafSites (t : Tree) : List Site := (t.sites none 0).filter (·.token?.isSome)

theorem map_token_leafSites (t : Tree) : t.leafSites.map Site.token? = t.tokens.map some := by
  rw [← filterMap_token_sites none 0 t, leafSites, List.map_filterMap_some_eq_filter_map_isSome,
    List.filter_map]
  rfl

end Tree

namespace NodeTable

theorem tokens_eq_filter (root : Tree) : (ofTree root).tokens =
    (Array.range (ofTree root).size).filter fun i =>
      ((ofTree root).entries[i]?).any Entry.isToken := rfl

theorem token?_ofTree {root : Tree} {s : Site} (h : s ∈ root.sites none 0) :
    (ofTree root).token? (some s.index) = s.token?.map (·.kind) := by
  rw [token?, kind?_ofTree h, Option.bind_some, Site.token?]
  cases s.tree <;> rfl

theorem name?_ofTree {root : Tree} {s : Site} (h : s ∈ root.sites none 0) {x : Token}
    (hx : s.token? = some x) (hk : x.kind = .identifier) :
    (ofTree root).name? (some s.index) = some (Data.plainName x.text) := by
  rw [name?, data_ofTree h, Site.entry_of_token hx]
  simp [Tree.leafEntry, hk]

/-- The tokens that a table lists are the leaves of its tree. -/
theorem tokens_ofTree (root : Tree) :
    (ofTree root).tokens.toList = root.leafSites.map Site.index := by
  have hrange : (Array.range (ofTree root).size).toList =
      (root.sites none 0).map Site.index := by
    rw [Array.toList_range, size_ofTree, Tree.map_index_sites, List.range_eq_range']
  rw [tokens_eq_filter, Array.toList_filter, hrange, List.filter_map, Tree.leafSites]
  congr 1
  refine List.filter_congr fun s hs => ?_
  have hget := get?_ofTree hs
  simp only [get?, Option.bind_some] at hget
  rw [Function.comp, hget, Option.any_some, Site.isToken_entry]

/-- The token at a place of the text stands at the same place among the tokens of the table. -/
theorem exists_leafSite {root : Tree} {n : Nat} {token : Token}
    (h : root.tokens[n]? = some token) : ∃ s ∈ root.sites none 0, s.token? = some token ∧
      (ofTree root).tokens[n]? = some s.index := by
  have hmap := congrArg (·[n]?) root.map_token_leafSites
  simp only [List.getElem?_map, h, Option.map_some, Option.map_eq_some_iff] at hmap
  obtain ⟨s, hs, ht⟩ := hmap
  refine ⟨s, (List.mem_filter.1 (List.mem_of_getElem? hs)).1, ht, ?_⟩
  rw [← Array.getElem?_toList, tokens_ofTree, List.getElem?_map, hs]
  rfl

/-- What is listed at a place stands for the token at that place of the text. -/
theorem exists_leafSite_of_place {root : Tree} {n i : Nat}
    (h : (ofTree root).tokens[n]? = some i) : ∃ s ∈ root.sites none 0, ∃ x, s.index = i ∧
      s.token? = some x ∧ root.tokens[n]? = some x := by
  rw [← Array.getElem?_toList, tokens_ofTree, List.getElem?_map, Option.map_eq_some_iff] at h
  obtain ⟨s, hleaf, rfl⟩ := h
  have hmap := congrArg (·[n]?) root.map_token_leafSites
  simp only [List.getElem?_map, hleaf, Option.map_some] at hmap
  obtain ⟨x, hx, hs⟩ := Option.map_eq_some_iff.1 hmap.symm
  exact ⟨s, (List.mem_filter.1 (List.mem_of_getElem? hleaf)).1, x, rfl, hs.symm, hx⟩

/-- The table of a text has an entry for each of its tokens and no other, in their order: the end of
the file comes last, each entry has the kind and the place of its token, and a name is written as
the text at that place without `@`. -/
theorem ofText_lossless (text : List Char) :
    (ofText text).tokens.size = (scan text).length ∧
    (scan text).getLast? = some (.endOfFile (byteLength text)) ∧
    (∀ (n : Nat) (token : Token), (scan text)[n]? = some token → ∃ i before after,
      (ofText text).tokens[n]? = some i ∧
      (ofText text).kind? (some i) = some (.token token.kind) ∧
      ((ofText text).get? (some i)).map (·.span) = some ⟨token.start, token.stop⟩ ∧
      text = before ++ token.text ++ after ∧ byteLength before = token.start ∧
      (token.kind = .identifier →
        (ofText text).name? (some i) = some (Data.plainName token.text))) ∧
    (∀ i, ((ofText text).token? i).isSome → ∃ n ∈ (ofText text).tokens, i = some n) ∧
    (ofText text).tokens.toList.Pairwise (· < ·) := by
  have htokens := SourceFile.root_tokens text
  have hslice := scan_slice text
  have hlast := scan_eq_concat text
  rw [ofText_eq]
  generalize (SourceFile.ofText text).root = root at *
  refine ⟨?_, ?_, fun n token h => ?_, fun i hi => ?_, ?_⟩
  · have hlength := congrArg List.length root.map_token_leafSites
    rw [List.length_map, List.length_map, htokens] at hlength
    rw [← Array.length_toList, tokens_ofTree, List.length_map, hlength]
  · rw [hlast, List.getLast?_concat]
  · obtain ⟨before, after, htext, hstart⟩ := hslice token (List.mem_of_getElem? h)
    obtain ⟨s, hs, ht, hn⟩ := exists_leafSite (htokens ▸ h)
    have hget := get?_ofTree hs
    have hdata := data_ofTree hs
    rw [Site.entry_of_token ht] at hget hdata
    refine ⟨s.index, before, after, hn, ?_, ?_, htext, hstart, fun hk => ?_⟩
    · rw [kind?, hget]; rfl
    · rw [hget]; rfl
    · rw [name?, hdata]
      simp [Tree.leafEntry, hk]
  · cases i with
    | none => cases hi
    | some i =>
      refine ⟨i, ?_, rfl⟩
      rw [tokens_eq_filter, Array.mem_filter, Array.mem_range]
      simp only [token?, kind?, get?, Option.bind_some] at hi
      cases he : (ofTree root).entries[i]? with
      | none => simp [he] at hi
      | some e => exact ⟨(Array.getElem?_eq_some_iff.1 he).1, by simpa [he, Entry.isToken] using hi⟩
  · rw [tokens_eq_filter, Array.toList_filter, Array.toList_range]
    exact List.pairwise_lt_range.filter _

end NodeTable

end Caret
