import Caret.Proofs.ArenaTable
import Caret.Proofs.NodePattern
import Caret.Proofs.PostOrder
import Mathlib.Data.List.Basic
/-!
# Planting trees

`Arena.plant` takes the steps on an arena that make the entries of a tree: its tokens and nodes are
added in post-order, without parents, and each node adopts what came since its first token. A node
does not know its children when they are added, and no parent is known beforehand; but in the end
the entries of a well-formed tree stand in the table of the arena (`entries_plantAll`).
-/

namespace Caret

open Tree Pattern

namespace Arena

/-! ## The steps -/

mutual

/-- The arena after the steps that make a tree. -/
def plant (a : Arena) : Tree → Arena
  | .leaf _ t => a.addToken t.kind t.span (if t.kind = .identifier then some t.text else none)
  | .node _ kind span children =>
    let b := a.plantAll children
    (b.addNode kind span (.ofChildren kind (placed a.size children))).adopt a.size (some b.size)

/-- The arena after the steps that make some trees. -/
def plantAll (a : Arena) : List Tree → Arena
  | [] => a
  | t :: ts => (a.plant t).plantAll ts

end

theorem plantAll_append (a : Arena) (ts us : List Tree) :
    a.plantAll (ts ++ us) = (a.plantAll ts).plantAll us := by
  induction ts generalizing a with
  | nil => rfl
  | cons t ts ih => exact ih _

/-- The slot of a tree is no matter of its own. -/
@[simp] theorem plant_withSlot (a : Arena) (s : Slot) (t : Tree) :
    a.plant (t.withSlot s) = a.plant t := by
  cases t <;> rfl

theorem plantAll_map_withSlot (a : Arena) (s : Slot) (ts : List Tree) :
    a.plantAll (ts.map (withSlot s)) = a.plantAll ts := by
  induction ts generalizing a with
  | nil => rfl
  | cons t ts ih => simp [plantAll, ih]

@[simp] theorem size_adopt (a : Arena) (first : Nat) (parent : Ref) :
    (a.adopt first parent).size = a.size := rfl

@[simp] theorem size_addNode (a : Arena) (kind : NodeKind) (span : Span) (data : Data) :
    (a.addNode kind span data).size = a.size + 1 := by
  simp [addNode, flag, push, size]

mutual

theorem size_plant (a : Arena) (t : Tree) : (a.plant t).size = a.size + t.size := by
  cases t with
  | leaf => simp [plant, addToken, push, size, Tree.size]
  | node _ _ _ children => simp [plant, Tree.size, size_plantAll a children, Nat.add_assoc]

theorem size_plantAll (a : Arena) (ts : List Tree) :
    (a.plantAll ts).size = a.size + sizes ts := by
  cases ts with
  | nil => rfl
  | cons t ts => rw [plantAll, size_plantAll _ ts, size_plant a t, sizes, Nat.add_assoc]

end

theorem fits_ofChildren (k : NodeKind) (cs : List Child) : Fits (.node k) (.ofChildren k cs) :=
  fun _ h => (Data.shape?_ofChildren k cs).symm.trans h

mutual

theorem sound_plant {a : Arena} (h : a.Sound) (t : Tree) : (a.plant t).Sound := by
  cases t with
  | leaf => exact sound_addToken h _ _ _
  | node _ _ span children =>
    exact sound_adopt (sound_addNode (sound_plantAll h children) span (fits_ofChildren _ _)) _ _

theorem sound_plantAll {a : Arena} (h : a.Sound) (ts : List Tree) : (a.plantAll ts).Sound := by
  cases ts with
  | nil => exact h
  | cons t ts => exact sound_plantAll (sound_plant h t) ts

end

end Arena

/-! ## Adoption -/

/-- An entry below a parent, unless it has one already. -/
def Entry.below (parent : Nat) (e : Entry) : Entry :=
  if e.parent.isNone then { e with parent := some parent } else e

/-- A node that stands behind all entries adopts those from a place on. -/
theorem NodeTable.entries_adopt (t : NodeTable) {before among : List Entry} {e : Entry}
    (ht : t.entries.toList = before ++ among ++ [e]) :
    (t.adopt before.length (some (before.length + among.length))).entries.toList =
      before ++ among.map (Entry.below (before.length + among.length)) ++ [e] := by
  refine List.ext_getElem? fun i => ?_
  simp only [adopt, Array.toList_mapIdx, ht, Option.getD_some, List.getElem?_mapIdx,
    List.getElem?_append, List.length_append, List.length_map, List.getElem?_map]
  by_cases hbefore : i < before.length
  · rw [if_pos (by omega), if_pos hbefore, if_pos (by omega), if_pos hbefore]
    cases before[i]? <;> simp [show ¬before.length ≤ i by omega]
  · by_cases hamong : i < before.length + among.length
    · rw [if_pos hamong, if_neg hbefore, if_pos hamong, if_neg hbefore]
      cases among[i - before.length]? <;>
        simp [Entry.below, hamong, show before.length ≤ i by omega]
    · rw [if_neg hamong, if_neg hamong]
      cases [e][i - (before.length + among.length)]? <;> simp [hamong]

namespace Tree

mutual

theorem parent_ne_none {p base : Nat} {t : Tree} {e : Entry} (h : e ∈ t.entries (some p) base) :
    e.parent ≠ none := by
  cases t with
  | leaf =>
    rw [List.mem_singleton.1 h]
    exact Option.some_ne_none p
  | node =>
    rcases List.mem_append.1 h with h | h
    · exact parent_ne_none_of_all h
    · rw [List.mem_singleton.1 h]
      exact Option.some_ne_none p

/-- What stands below a node has a parent. -/
theorem parent_ne_none_of_all {p base : Nat} {ts : List Tree} {e : Entry}
    (h : e ∈ entriesAll (some p) base ts) : e.parent ≠ none := by
  cases ts with
  | nil => cases h
  | cons t ts => exact (List.mem_append.1 h).elim parent_ne_none parent_ne_none_of_all

end

mutual

theorem map_below_entries (p base : Nat) (t : Tree) :
    (t.entries none base).map (Entry.below p) = t.entries (some p) base := by
  cases t with
  | leaf => rfl
  | node _ _ _ children =>
    have hinside : (entriesAll (some (base + sizes children)) base children).map (Entry.below p) =
        entriesAll (some (base + sizes children)) base children := by
      refine List.map_congr_left (g := id) (fun e he => ?_) |>.trans (List.map_id _)
      exact if_neg (by simpa using parent_ne_none_of_all he)
    rw [entries, entries, List.map_append, hinside]
    rfl

/-- Trees that are written without a parent and then adopted are written below the parent. -/
theorem map_below_entriesAll (p base : Nat) (ts : List Tree) :
    (entriesAll none base ts).map (Entry.below p) = entriesAll (some p) base ts := by
  cases ts with
  | nil => rfl
  | cons t ts =>
    rw [entriesAll, entriesAll, List.map_append, map_below_entries p base t,
      map_below_entriesAll p _ ts]

end

/-! ## Modifiers -/

theorem kind_entries_last (parent : Ref) (base : Nat) (t : Tree) :
    (t.entries parent base)[t.size - 1]?.map (·.kind) = some t.kind := by
  cases t with
  | leaf => rfl
  | node _ _ _ children =>
    have hlength := length_entriesAll (some (base + sizes children)) base children
    rw [entries, size, Nat.add_sub_cancel, List.getElem?_append_right (by omega), hlength,
      Nat.sub_self]
    rfl

/-- The kind of a child can be looked up where the child is placed. -/
theorem kind?_of_mem_placed {t : NodeTable} {parent : Ref} {before after : List Entry}
    {ts : List Tree} (ht : t.entries.toList = before ++ (entriesAll parent before.length ts ++ after))
    {c : Child} (hc : c ∈ placed before.length ts) : t.kind? (some c.index) = some c.kind := by
  induction ts generalizing before with
  | nil => cases hc
  | cons u us ih =>
    rw [entriesAll, List.append_assoc, ← List.append_assoc before] at ht
    rcases List.mem_cons.1 hc with rfl | hc
    · have hpos := u.size_pos
      have hlength := length_entries parent before.length u
      simp only [NodeTable.kind?, NodeTable.get?, Option.bind_some, ← Array.getElem?_toList, ht]
      have hplace : before.length + u.size - 1 - before.length = u.size - 1 := by omega
      rw [List.getElem?_append_left (by simp; omega), List.getElem?_append_right (by omega), hplace,
        kind_entries_last]
    · have hlength : (before ++ u.entries parent before.length).length = before.length + u.size := by
        rw [List.length_append, length_entries]
      rw [← hlength] at ht hc
      exact ih ht hc

/-- The data of a node list modifiers, or no child of the node is one. -/
theorem modifiers?_ofChildren (k : NodeKind) (cs : List Child) :
    (Data.ofChildren k cs).modifiers? = Child.someIn cs .modifier ∨
      (Data.ofChildren k cs).modifiers? = none ∧ k.pattern.lacks (· == .modifier) := by
  cases k <;> first | exact .inl rfl | exact .inr ⟨rfl, rfl⟩

theorem exists_of_mem_placed {base : Nat} {ts : List Tree} {c : Child} (hc : c ∈ placed base ts) :
    ∃ t ∈ ts, t.slot = c.slot := by
  rw [placed_eq none] at hc
  obtain ⟨s, hs, rfl⟩ := List.mem_map.1 hc
  obtain ⟨before, after, rfl, -⟩ := mem_childSites.1 hs
  exact ⟨s.tree, by simp, rfl⟩

/-- The modifiers that the data of a node list are the children in that slot. -/
theorem kinds_of_modifiers {k : NodeKind} {children : List Tree} (hk : k.pattern.Covers children)
    {t : NodeTable} {parent : Ref} {before after : List Entry}
    (ht : t.entries.toList =
      before ++ (entriesAll parent before.length children ++ after)) :
    ((Data.ofChildren k (placed before.length children)).modifiers?.getD []).filterMap t.token? =
      Child.tokensIn (placed before.length children) .modifier := by
  rcases modifiers?_ofChildren k (placed before.length children) with hm | ⟨hm, hlacks⟩
  · have hlisted : (Child.someIn (placed before.length children) .modifier).getD [] =
        Child.listIn (placed before.length children) .modifier := by
      unfold Child.someIn
      split <;> simp_all
    rw [hm, hlisted, Child.listIn, Child.tokensIn, List.filterMap_map]
    apply List.filterMap_congr
    intro c hc
    have hkind := kind?_of_mem_placed ht (List.mem_of_mem_filter hc)
    simp only [Function.comp, NodeTable.token?, hkind, Option.bind_some]
  · have hnone : (placed before.length children).filter (·.slot == .modifier) = [] := by
      refine List.filter_eq_nil_iff.2 fun c hc => ?_
      obtain ⟨t, ht, hs⟩ := exists_of_mem_placed hc
      simpa [hs] using hk.lacks hlacks t ht
    rw [hm, Child.tokensIn, hnone]
    rfl

end Tree

namespace Arena

/-! ## The entries of trees -/

mutual

theorem entries_plant {a : Arena} (h : a.Sound) {t : Tree} (ht : t.WellFormed) :
    (a.plant t).table.entries.toList = a.table.entries.toList ++ t.entries none a.size := by
  cases ht with
  | leaf s x =>
    rw [plant, table_addToken h]
    by_cases hx : x.kind = .identifier
    · simp [NodeTable.addToken, entries, leafEntry, hx, Data.ofToken]
    · have hdata : Data.ofToken x.kind none = .none := by
        unfold Data.ofToken
        split <;> simp_all
      simp [NodeTable.addToken, entries, leafEntry, hx, hdata]
  | @node s k span children hk hin =>
    have hb := sound_plantAll h children
    have hlength : a.table.entries.toList.length = a.size := size_table h
    have hchildren := entries_plantAll h hin
    have hsize := size_plantAll a children
    have hfits := fits_ofChildren k (placed a.size children)
    rw [plant, table_adopt (sound_addNode hb span hfits), table_addNode hb span hfits]
    rw [← hlength] at hchildren hsize ⊢
    let e := nodeEntry none k span (placed a.table.entries.toList.length children)
    have hadded : ((a.plantAll children).table.addNode (.node k) span
        (Data.ofChildren k (placed a.table.entries.toList.length children)).modifiers?
        (.ofChildren k (placed a.table.entries.toList.length children))).entries.toList =
          a.table.entries.toList ++ entriesAll none a.table.entries.toList.length children ++ [e] := by
      have hpushed (x : Entry) : ((a.plantAll children).table.entries.push x).toList =
          a.table.entries.toList ++ (entriesAll none a.table.entries.toList.length children ++ [x]) := by
        rw [Array.toList_push, hchildren, List.append_assoc]
      simp only [NodeTable.addNode, hpushed]
      rw [kinds_of_modifiers hk (hpushed _), ← List.append_assoc]
      rfl
    have hstop : (a.plantAll children).size =
        a.table.entries.toList.length +
          (entriesAll none a.table.entries.toList.length children).length := by
      rw [hsize, length_entriesAll]
    rw [hstop, NodeTable.entries_adopt _ hadded, map_below_entriesAll, length_entriesAll, entries,
      List.append_assoc]

theorem entries_plantAll {a : Arena} (h : a.Sound) {ts : List Tree} (hts : ∀ t ∈ ts, t.WellFormed) :
    (a.plantAll ts).table.entries.toList = a.table.entries.toList ++ entriesAll none a.size ts := by
  cases ts with
  | nil => simp [plantAll, entriesAll]
  | cons t ts =>
    rw [plantAll, entries_plantAll (sound_plant h t) fun u hu => hts u (by simp [hu]),
      entries_plant h (hts t (by simp)), size_plant, entriesAll, List.append_assoc]

end

end Arena

namespace NodeTable

/-! ## The tokens of a table -/

/-- The numbers of the entries that are tokens. -/
def tokenPlaces (entries : List Entry) : List Nat :=
  (List.range entries.length).filter fun i => (entries[i]?).any Entry.isToken

theorem tokenPlaces_concat (entries : List Entry) (e : Entry) : tokenPlaces (entries ++ [e]) =
    tokenPlaces entries ++ if e.isToken then [entries.length] else [] := by
  have hbefore : (List.range entries.length).filter
      (fun i => ((entries ++ [e])[i]?).any Entry.isToken) = tokenPlaces entries := by
    refine List.filter_congr fun i hi => ?_
    rw [List.getElem?_append_left (List.mem_range.1 hi)]
  rw [tokenPlaces, List.length_append, List.length_singleton, List.range_succ, List.filter_append,
    hbefore]
  cases h : e.isToken <;> simp [h]

theorem tokenPlaces_congr {es fs : List Entry} (h : es.map (·.kind) = fs.map (·.kind)) :
    tokenPlaces es = tokenPlaces fs := by
  have hlength : es.length = fs.length := by simpa using congrArg List.length h
  rw [tokenPlaces, tokenPlaces, hlength]
  refine List.filter_congr fun i _ => ?_
  have hkind := congrArg (·[i]?) h
  simp only [List.getElem?_map] at hkind
  cases he : es[i]? <;> cases hf : fs[i]? <;> simp_all [Entry.isToken]

/-- The table lists all its tokens, in the order of their numbers. -/
def Listed (t : NodeTable) : Prop := t.tokens.toList = tokenPlaces t.entries.toList

variable {t : NodeTable}

theorem Listed.addToken (h : t.Listed) (kind : TokenKind) (span : Span)
    (text : Option (List Char)) : (t.addToken kind span text).Listed := by
  simp only [Listed, NodeTable.addToken, Array.toList_push, tokenPlaces_concat, Array.length_toList]
  rw [h]
  rfl

theorem Listed.addNode (h : t.Listed) (kind : NodeKind) (span : Span)
    (modifiers : Option (List Ref)) (data : Data) :
    (t.addNode (.node kind) span modifiers data).Listed := by
  simp only [Listed, NodeTable.addNode, Array.toList_push, tokenPlaces_concat]
  rw [h]
  exact (List.append_nil _).symm

theorem Listed.adopt (h : t.Listed) (first : Nat) (parent : Ref) :
    (t.adopt first parent).Listed := by
  refine h.trans (tokenPlaces_congr ?_)
  refine List.ext_getElem? fun i => ?_
  simp only [NodeTable.adopt, Array.toList_mapIdx, List.getElem?_map, List.getElem?_mapIdx,
    Option.map_map]
  congr 1
  funext e
  simp only [Function.comp]
  split <;> rfl

theorem listed_ofTree (root : Tree) : (ofTree root).Listed := by
  simp [Listed, ofTree, tokenPlaces]

end NodeTable

namespace Arena

mutual

theorem listed_plant {a : Arena} (h : a.Sound) (hl : a.table.Listed) (t : Tree) :
    (a.plant t).table.Listed := by
  cases t with
  | leaf =>
    rw [plant, table_addToken h]
    exact hl.addToken _ _ _
  | node _ kind span children =>
    have hb := sound_plantAll h children
    have hfits := fits_ofChildren kind (placed a.size children)
    rw [plant, table_adopt (sound_addNode hb span hfits), table_addNode hb span hfits]
    exact ((listed_plantAll h hl children).addNode _ _ _ _).adopt _ _

theorem listed_plantAll {a : Arena} (h : a.Sound) (hl : a.table.Listed) (ts : List Tree) :
    (a.plantAll ts).table.Listed := by
  cases ts with
  | nil => exact hl
  | cons t ts => exact listed_plantAll (sound_plant h t) (listed_plant h hl t) ts

end

/-- What is left when a well-formed tree is planted in the empty arena is the table of the tree. -/
theorem table_plant {root : Tree} (h : root.WellFormed) :
    { (empty.plant root).table with root := some (root.size - 1) } = NodeTable.ofTree root := by
  have hentries : (empty.plant root).table.entries = (NodeTable.ofTree root).entries := by
    rw [NodeTable.entries_ofTree, ← Array.toList_inj, entries_plant sound_empty h]
    simp [table, empty, size]
  have htokens : (empty.plant root).table.tokens = (NodeTable.ofTree root).tokens := by
    have hempty : empty.table.Listed := by simp [NodeTable.Listed, table, empty, NodeTable.tokenPlaces]
    rw [← Array.toList_inj, listed_plant sound_empty hempty root, hentries,
      NodeTable.listed_ofTree root]
  simp only [hentries, htokens, ← NodeTable.root_ofTree]

end Arena

end Caret
