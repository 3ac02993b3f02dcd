import Caret.Proofs.Holes
import Caret.Proofs.TokenBefore
import Caret.Proofs.TypedData
import Mathlib.Data.List.Forall2
/-!
# Tables that differ in one block

Two trees are the same but for what is in one block (`Tree.OneHole`). Their tables then are the same
but for the entries of what is in the block: as many others stand there, and the entries behind it
have other numbers (`renumber`). So every other entry is found in both tables, under another number
perhaps, and what it refers to has the new number too (`NodeTable.SameOutside`). Only where the
entries stand in the text is not told.
-/

namespace Caret

/-! ## Other numbers -/

/-- The new number of an entry, where the `count` entries from `first` on are replaced by `count'`
others. -/
def renumber (first count count' i : Nat) : Nat := if i < first then i else i - count + count'

theorem renumber_of_lt {first count count' i : Nat} (h : i < first) :
    renumber first count count' i = i := if_pos h

theorem renumber_add {first count count' i : Nat} (h : first + count ≤ i) :
    renumber first count count' i + count = i + count' := by
  rw [renumber, if_neg (by omega)]
  omega

theorem renumber_lt_iff {first count count' i j : Nat} (hi : i < first ∨ first + count ≤ i)
    (hj : j < first ∨ first + count ≤ j) :
    renumber first count count' i < renumber first count count' j ↔ i < j := by
  unfold renumber
  split <;> split <;> omega

variable {φ : Nat → Nat}

/-- Of `size` entries from `base` on, the `count` from the place `first` on are replaced by `count'`
others; those before them keep their numbers and those behind them move. -/
structure Shifts (φ : Nat → Nat) (base first count count' size : Nat) : Prop where
  before : ∀ j < first, φ (base + j) = base + j
  behind : ∀ j, first + count ≤ j → j < size → φ (base + j) + count = base + j + count'

namespace Shifts

variable {base first count count' size : Nat}

theorem renumber (first count count' size : Nat) :
    Shifts (Caret.renumber first count count') 0 first count count' size where
  before j hj := by
    rw [Nat.zero_add]
    exact renumber_of_lt hj
  behind j hj _ := by
    rw [Nat.zero_add]
    exact renumber_add hj

/-! The entries consist of `l`, of `m` that hold all that are replaced, and of others. -/

section Parts

variable {l m m' : Nat} (h : Shifts φ base (l + first) count count' size)

include h

theorem left : ∀ j < l, φ (base + j) = base + j := fun j hj => h.before j (by omega)

theorem inner (hm : l + m ≤ size) : Shifts φ (base + l) first count count' m where
  before j hj := by
    rw [Nat.add_assoc]
    exact h.before _ (by omega)
  behind j hj hlt := by
    rw [Nat.add_assoc base]
    exact h.behind _ (by omega) (by omega)

theorem right (hm : first + count ≤ m) (hm' : m' + count = m + count') :
    ∀ j, l + m + j < size → φ (base + l + m + j) = base + l + m' + j := by
  intro j hj
  have hmoved := h.behind (l + m + j) (by omega) hj
  rw [← Nat.add_assoc, ← Nat.add_assoc] at hmoved
  omega

end Parts

theorem last {size' : Nat} (h : Shifts φ base first count count' size)
    (hlt : first + count < size) (hsize : size' + count = size + count') :
    φ (base + size - 1) = base + size' - 1 := by
  have hmoved := h.behind (size - 1) (by omega) (by omega)
  rw [show base + size - 1 = base + (size - 1) by omega]
  omega

end Shifts

namespace Data

/-- References with other numbers. -/
def renumberedRefs (φ : Nat → Nat) (refs : List Ref) : List Ref := refs.map (Option.map φ)

/-- Data that refer to entries by other numbers. -/
def renumbered (φ : Nat → Nat) : Data → Data
  | none => none
  | name text => name text
  | list items => list (renumberedRefs φ items)
  | space p => space ⟨p.name.map φ, renumberedRefs φ p.members⟩
  | type p => type ⟨p.attributes.map (renumberedRefs φ), p.modifiers.map (renumberedRefs φ),
      p.name.map φ, p.bases.map φ, renumberedRefs φ p.members⟩
  | method p => method ⟨p.attributes.map (renumberedRefs φ), p.modifiers.map (renumberedRefs φ),
      p.type.map φ, p.name.map φ, p.parameters.map φ, p.body.map φ⟩
  | constructor p => constructor ⟨p.attributes.map (renumberedRefs φ),
      p.modifiers.map (renumberedRefs φ), p.name.map φ, p.parameters.map φ, p.initializer.map φ,
      p.body.map φ⟩
  | initializer p => initializer ⟨p.colon.map φ, p.keyword.map φ, p.arguments.map φ⟩
  | variableList p => variableList ⟨p.attributes.map (renumberedRefs φ),
      p.modifiers.map (renumberedRefs φ), p.type.map φ, renumberedRefs φ p.declarators⟩
  | declarator p => declarator ⟨p.name.map φ, p.initializer.map φ⟩
  | property p => property ⟨p.attributes.map (renumberedRefs φ),
      p.modifiers.map (renumberedRefs φ), p.type.map φ, p.name.map φ,
      renumberedRefs φ p.accessors, p.body.map φ, p.initializer.map φ⟩
  | accessor p => accessor ⟨p.modifiers.map (renumberedRefs φ), p.keyword.map φ, p.body.map φ⟩
  | parameter p => parameter ⟨p.attributes.map (renumberedRefs φ),
      p.modifiers.map (renumberedRefs φ), p.type.map φ, p.name.map φ, p.initializer.map φ⟩
  | typeReference p => typeReference ⟨p.name.map φ, p.isArray⟩
  | operation p => operation ⟨p.left.map φ, p.operator.map φ, p.right.map φ⟩
  | call p => call ⟨p.expression.map φ, p.arguments.map φ⟩
  | wrapped expression => wrapped (expression.map φ)

end Data

namespace Child

/-- The child with another number. -/
def renumbered (φ : Nat → Nat) (c : Child) : Child := { c with index := φ c.index }

theorem inSlot_renumbered (cs : List Child) (s : Slot) :
    inSlot (cs.map (renumbered φ)) s = (inSlot cs s).map φ := by
  simp only [inSlot, List.find?_map, Option.map_map]
  rfl

theorem listIn_renumbered (cs : List Child) (s : Slot) :
    listIn (cs.map (renumbered φ)) s = Data.renumberedRefs φ (listIn cs s) := by
  simp only [listIn, Data.renumberedRefs, List.filter_map, List.map_map]
  rfl

theorem someIn_renumbered (cs : List Child) (s : Slot) :
    someIn (cs.map (renumbered φ)) s = (someIn cs s).map (Data.renumberedRefs φ) := by
  unfold someIn
  rw [listIn_renumbered]
  cases listIn cs s <;> rfl

theorem tokensIn_renumbered (cs : List Child) (s : Slot) :
    tokensIn (cs.map (renumbered φ)) s = tokensIn cs s := by
  simp only [tokensIn, List.filter_map, List.filterMap_map]
  rfl

end Child

open Child in
theorem Data.ofChildren_renumbered (k : NodeKind) (cs : List Child) :
    Data.ofChildren k (cs.map (Child.renumbered φ)) = (Data.ofChildren k cs).renumbered φ := by
  cases k <;> simp only [Data.ofChildren, NodeKind.shape?, Data.renumbered, inSlot_renumbered,
    listIn_renumbered, someIn_renumbered, List.any_map, Function.comp_def, Child.renumbered]

/-- The second entry is the first with other numbers, but for what it holds. -/
structure Site.Moves (φ : Nat → Nat) (s s' : Site) : Prop where
  index : s'.index = φ s.index
  parent : s'.parent = s.parent.map φ
  kind : s'.tree.kind = s.tree.kind

/-- The second entry is the first with other numbers. -/
structure Site.Renumbers (φ : Nat → Nat) (s s' : Site) : Prop extends Site.Moves φ s s' where
  modifiers : s'.entry.modifiers = s.entry.modifiers
  data : s'.entry.data = s.entry.data.renumbered φ

namespace Tree

/-! ## Trees that are the same -/

/-- The trees differ in no more than places. -/
abbrev Same : Tree → Tree → Prop := SameBut fun _ _ => False

/-- So do the trees of two forests. -/
abbrev AllSame : List Tree → List Tree → Prop := AllSameBut fun _ _ => False

section Same

mutual

theorem size_same {t u : Tree} (h : Same t u) : u.size = t.size := by
  cases h with
  | leaf => rfl
  | node s k span span' h => rw [size, size, sizes_same h]
  | hole s span span' h => exact h.elim

theorem sizes_same {ts us : List Tree} (h : AllSame ts us) : sizes us = sizes ts := by
  cases h with
  | nil => rfl
  | cons ht hts => rw [sizes, sizes, size_same ht, sizes_same hts]

end

/-- The children of nodes that are the same have other numbers. -/
theorem placed_same {ts us : List Tree} (h : AllSame ts us) {base base' : Nat}
    (hφ : ∀ j < sizes ts, φ (base + j) = base' + j) :
    placed base' us = (placed base ts).map (Child.renumbered φ) := by
  induction ts generalizing us base base' with
  | nil =>
    cases h
    rfl
  | cons t ts ih =>
    cases h with
    | @cons _ u _ us ht hts =>
      rw [sizes] at hφ
      have hpos := t.size_pos
      have hroot := hφ (t.size - 1) (by omega)
      have hrest : placed (base' + t.size) us =
          (placed (base + t.size) ts).map (Child.renumbered φ) :=
        ih hts fun j hj => by rw [Nat.add_assoc, hφ _ (by omega), Nat.add_assoc]
      rw [placed, placed, List.map_cons, size_same ht, hrest, ← ht.slot, ← ht.kind, Child.renumbered,
        Nat.add_sub_assoc hpos, Nat.add_sub_assoc hpos, hroot]

theorem renumbers_node {ts us : List Tree} {parent : Ref} {base base' : Nat} (s : Slot)
    (k : NodeKind) (span span' : Span) (hroot : φ (base + sizes ts) = base' + sizes us)
    (hplaced : placed base' us = (placed base ts).map (Child.renumbered φ)) :
    Site.Renumbers φ ⟨parent, base, node s k span ts⟩
      ⟨parent.map φ, base', node s k span' us⟩ := by
  refine ⟨⟨?_, rfl, rfl⟩, ?_, ?_⟩
  · simp only [Site.index, size, ← Nat.add_assoc, Nat.add_sub_cancel, hroot]
  · simp only [Site.entry, nodeEntry, hplaced, Child.tokensIn_renumbered]
  · simp only [Site.entry, nodeEntry, hplaced, Data.ofChildren_renumbered]

mutual

/-- The subtrees of trees that are the same have other numbers. -/
theorem sites_same {t u : Tree} (h : Same t u) {parent : Ref} {base base' : Nat}
    (hφ : ∀ j < t.size, φ (base + j) = base' + j) :
    List.Forall₂ (Site.Renumbers φ) (t.sites parent base) (u.sites (parent.map φ) base') := by
  cases h with
  | @leaf s x y h =>
    have hkind : x.kind = y.kind := congrArg Prod.fst h
    have htext : x.text = y.text := congrArg Prod.snd h
    refine .cons ⟨⟨(hφ 0 (Nat.zero_lt_one)).symm, rfl, congrArg Kind.token hkind.symm⟩, rfl, ?_⟩ .nil
    simp only [Site.entry, leafEntry, hkind, htext]
    split <;> rfl
  | @node s k span span' ts us h =>
    rw [size] at hφ
    have hinner : ∀ j < sizes ts, φ (base + j) = base' + j := fun j hj => hφ j (by omega)
    have hroot : φ (base + sizes ts) = base' + sizes us := by
      rw [sizes_same h]
      exact hφ _ (Nat.lt_succ_self _)
    have hall : List.Forall₂ (Site.Renumbers φ) (sitesAll (some (base + sizes ts)) base ts)
        (sitesAll (some (φ (base + sizes ts))) base' us) := sitesAll_same h hinner
    rw [hroot] at hall
    exact List.rel_append hall
      (.cons (renumbers_node s k span span' hroot (placed_same h hinner)) .nil)
  | hole s span span' h => exact h.elim

theorem sitesAll_same {ts us : List Tree} (h : AllSame ts us) {parent : Ref} {base base' : Nat}
    (hφ : ∀ j < sizes ts, φ (base + j) = base' + j) :
    List.Forall₂ (Site.Renumbers φ) (sitesAll parent base ts)
      (sitesAll (parent.map φ) base' us) := by
  cases h with
  | nil => exact .nil
  | @cons t u ts us ht hts =>
    rw [sizes] at hφ
    refine List.rel_append (sites_same ht fun j hj => hφ j (by omega)) ?_
    rw [size_same ht]
    exact sitesAll_same hts fun j hj => by rw [Nat.add_assoc, hφ _ (by omega), Nat.add_assoc]

end

end Same

/-! ## One block that differs -/

/-- The trees differ in no more than places, and in what is in one block: `ts` in the first tree,
where `first` entries stand before it, and `us` in the second. -/
inductive OneHole (ts us : List Tree) : (first : Nat) → Tree → Tree → Prop
  | block (s span span') : OneHole ts us 0 (node s .block span ts) (node s .block span' us)
  | node (s k span span') {before before' after after' : List Tree} {t u : Tree} {first : Nat} :
      AllSame before before' → OneHole ts us first t u → AllSame after after' →
      OneHole ts us (sizes before + first) (node s k span (before ++ t :: after))
        (node s k span' (before' ++ u :: after'))

section Marked

/-! ### A marked token

Where a token stands at one place only, and what may differ begins with it, no more than one block
differs. -/

variable {hole : List Tree → List Tree → Prop} {x : Token}

mutual

theorem same_of_not_mem (hhole : ∀ ts us, hole ts us → x ∈ tokensAll ts) {t u : Tree}
    (h : SameBut hole t u) (hx : x ∉ t.tokens) : Same t u := by
  cases h with
  | leaf s h => exact .leaf s h
  | node s k span span' h => exact .node s k span span' (allSame_of_not_mem hhole h hx)
  | hole s span span' h => exact absurd (hhole _ _ h) hx

theorem allSame_of_not_mem (hhole : ∀ ts us, hole ts us → x ∈ tokensAll ts) {ts us : List Tree}
    (h : AllSameBut hole ts us) (hx : x ∉ tokensAll ts) : AllSame ts us := by
  cases h with
  | nil => exact .nil
  | cons ht hts =>
    rw [tokensAll, List.mem_append, not_or] at hx
    exact .cons (same_of_not_mem hhole ht hx.1) (allSame_of_not_mem hhole hts hx.2)

end

mutual

theorem oneHole_of_nodup (hhole : ∀ ts us, hole ts us → x ∈ tokensAll ts) {t u : Tree}
    (h : SameBut hole t u) (hn : t.tokens.Nodup) :
    Same t u ∨ ∃ ts us first, hole ts us ∧ OneHole ts us first t u := by
  cases h with
  | leaf s h => exact .inl (.leaf s h)
  | node s k span span' h =>
    rcases oneHoles_of_nodup hhole h hn with
      h | ⟨before, _, after, _, _, _, rfl, rfl, hb, ⟨ts, us, first, hts, h⟩, ha⟩
    · exact .inl (.node s k span span' h)
    · exact .inr ⟨ts, us, _, hts, .node s k span span' hb h ha⟩
  | hole s span span' h => exact .inr ⟨_, _, 0, h, .block s span span'⟩

theorem oneHoles_of_nodup (hhole : ∀ ts us, hole ts us → x ∈ tokensAll ts) {ts us : List Tree}
    (h : AllSameBut hole ts us) (hn : (tokensAll ts).Nodup) : AllSame ts us ∨
      ∃ before t after before' u after', ts = before ++ t :: after ∧ us = before' ++ u :: after' ∧
        AllSame before before' ∧ (∃ vs ws first, hole vs ws ∧ OneHole vs ws first t u) ∧
        AllSame after after' := by
  cases h with
  | nil => exact .inl .nil
  | @cons t u ts us ht hts =>
    rw [tokensAll, List.nodup_append] at hn
    obtain ⟨hn, hn', hdisjoint⟩ := hn
    by_cases hx : x ∈ t.tokens
    · have hrest := allSame_of_not_mem hhole hts fun hx' => hdisjoint x hx x hx' rfl
      rcases oneHole_of_nodup hhole ht hn with ht | ht
      · exact .inl (.cons ht hrest)
      · exact .inr ⟨[], t, ts, [], u, us, rfl, rfl, .nil, ht, hrest⟩
    · have hfirst := same_of_not_mem hhole ht hx
      rcases oneHoles_of_nodup hhole hts hn' with
        hts | ⟨before, v, after, before', w, after', rfl, rfl, hb, hv, ha⟩
      · exact .inl (.cons hfirst hts)
      · exact .inr ⟨t :: before, v, after, u :: before', w, after', rfl, rfl, .cons hfirst hb, hv,
          ha⟩

end

end Marked

namespace OneHole

variable {ts us : List Tree} {t u : Tree} {first : Nat}

theorem size (h : OneHole ts us first t u) : u.size + sizes ts = t.size + sizes us := by
  induction h with
  | block => simp only [Tree.size]; omega
  | node s k span span' hbefore _ hafter ih =>
    simp only [Tree.size, sizes_append, sizes, sizes_same hbefore, sizes_same hafter]
    omega

/-- The block stands behind what is in it. -/
theorem first_add_lt (h : OneHole ts us first t u) : first + sizes ts < t.size := by
  induction h with
  | block => simp only [Tree.size]; omega
  | node => simp only [Tree.size, sizes_append, sizes]; omega

theorem slot (h : OneHole ts us first t u) : t.slot = u.slot := by
  cases h <;> rfl

theorem kind (h : OneHole ts us first t u) : t.kind = u.kind := by
  cases h <;> rfl

/-- The entries `xs` before what is in a block, the block itself and the entries `ys` behind it are
those of the second tree with other numbers; the block holds `ts`. -/
structure Parts (φ : Nat → Nat) (ts : List Tree) (xs xs' : List Site) (block block' : Site)
    (ys ys' : List Site) : Prop where
  before : List.Forall₂ (Site.Renumbers φ) xs xs'
  moves : block.Moves φ block'
  kind : block.tree.kind = .node .block
  children : block.tree.children = ts
  behind : List.Forall₂ (Site.Renumbers φ) ys ys'

/-- The children have other numbers. -/
theorem placed {before before' after after' : List Tree} {base : Nat}
    (h : OneHole ts us first t u) (hbefore : AllSame before before') (hafter : AllSame after after')
    (hleft : ∀ j < sizes before, φ (base + j) = base + j)
    (hinner : Shifts φ (base + sizes before) first (sizes ts) (sizes us) t.size)
    (hright : ∀ j < sizes after,
      φ (base + sizes before + t.size + j) = base + sizes before + u.size + j) :
    placed base (before' ++ u :: after') =
      (placed base (before ++ t :: after)).map (Child.renumbered φ) := by
  have hindex := hinner.last h.first_add_lt h.size
  rw [placed_append, placed_append, Tree.placed, Tree.placed, List.map_append, List.map_cons,
    placed_same hbefore hleft, sizes_same hbefore, placed_same hafter hright, ← h.slot, ← h.kind]
  simp only [Child.renumbered, hindex]

/-- The numbers of the children and of their parent: those of the entries before the subtree that
differs stay, and the later ones move by as much as the block has grown. -/
theorem shifts_children {before before' after after' : List Tree} {base : Nat}
    (h : OneHole ts us first t u) (hbefore : AllSame before before') (hafter : AllSame after after')
    (s : Slot) (k : NodeKind) (span : Span)
    (hφ : Shifts φ base (sizes before + first) (sizes ts) (sizes us)
      (Tree.node s k span (before ++ t :: after)).size) :
    (∀ j < sizes before, φ (base + j) = base + j) ∧
      Shifts φ (base + sizes before) first (sizes ts) (sizes us) t.size ∧
      (∀ j < sizes after,
        φ (base + sizes before + t.size + j) = base + sizes before + u.size + j) ∧
      φ (base + sizes (before ++ t :: after)) = base + sizes (before' ++ u :: after') := by
  have htotal (ts us : List Tree) (t : Tree) (n : Nat) :
      n + sizes (ts ++ t :: us) = n + sizes ts + t.size + sizes us := by
    rw [sizes_append, sizes]
    omega
  have hsize : (Tree.node s k span (before ++ t :: after)).size =
      sizes before + t.size + (sizes after + 1) := by
    rw [Tree.size, ← Nat.zero_add (sizes _), htotal]
    omega
  rw [hsize] at hφ
  have hbehind := hφ.right (Nat.le_of_lt h.first_add_lt) h.size
  refine ⟨hφ.left, hφ.inner (by omega), fun j hj => hbehind j (by omega), ?_⟩
  rw [htotal, htotal, sizes_same hbefore, sizes_same hafter]
  exact hbehind _ (by omega)

/-- The subtrees have other numbers, but for those in the block. -/
theorem sites (h : OneHole ts us first t u) {parent : Ref} {base : Nat}
    (hφ : Shifts φ base first (sizes ts) (sizes us) t.size) :
    ∃ xs xs' block block' ys ys', Parts φ ts xs xs' block block' ys ys' ∧
      block.base = base + first ∧
      t.sites parent base = xs ++ (sitesAll (some block.index) block.base ts ++ block :: ys) ∧
      u.sites (parent.map φ) base =
        xs' ++ (sitesAll (some block'.index) block'.base us ++ block' :: ys') := by
  induction h generalizing parent base with
  | block s span span' =>
    have hindex (ts : List Tree) (span : Span) (parent : Ref) :
        Site.index ⟨parent, base, .node s .block span ts⟩ = base + sizes ts := by
      simp [Site.index, Tree.size]
    have hroot := hφ.behind (sizes ts) (by omega) (by simp [Tree.size])
    refine ⟨[], [], ⟨parent, base, .node s .block span ts⟩,
      ⟨parent.map φ, base, .node s .block span' us⟩, [], [],
      ⟨.nil, ⟨?_, rfl, rfl⟩, rfl, rfl, .nil⟩, rfl, ?_, ?_⟩
    · rw [hindex, hindex]
      omega
    · rw [hindex]
      rfl
    · rw [hindex]
      rfl
  | @node s k span span' before before' after after' t u first hbefore h hafter ih =>
    obtain ⟨hleft, hinner, hright, htop⟩ := h.shifts_children hbefore hafter s k span hφ
    obtain ⟨xs, xs', block, block', ys, ys', hparts, hbase, ht, hu⟩ :=
      @ih (some (base + sizes (before ++ t :: after))) _ hinner
    have hself : Site.Renumbers φ ⟨parent, base, .node s k span (before ++ t :: after)⟩
        ⟨parent.map φ, base, .node s k span' (before' ++ u :: after')⟩ :=
      renumbers_node s k span span' htop (h.placed hbefore hafter hleft hinner hright)
    have hxs : List.Forall₂ (Site.Renumbers φ)
        (sitesAll (some (base + sizes (before ++ t :: after))) base before)
        (sitesAll (some (φ (base + sizes (before ++ t :: after)))) base before') :=
      sitesAll_same hbefore hleft
    have hys : List.Forall₂ (Site.Renumbers φ)
        (sitesAll (some (base + sizes (before ++ t :: after))) (base + sizes before + t.size) after)
        (sitesAll (some (φ (base + sizes (before ++ t :: after)))) (base + sizes before + u.size)
          after') := sitesAll_same hafter hright
    rw [Option.map_some, htop] at hu
    rw [htop] at hxs hys
    refine ⟨_, _, block, block', _, _, { hparts with
      before := List.rel_append hxs hparts.before
      behind := List.rel_append hparts.behind (List.rel_append hys (.cons hself .nil)) },
      by omega, ?_, ?_⟩
    · rw [Tree.sites, sitesAll_append, sitesAll, ht]
      simp only [List.append_assoc, List.cons_append]
    · rw [Tree.sites, sitesAll_append, sitesAll, sizes_same hbefore, hu]
      simp only [List.append_assoc, List.cons_append]

/-! ### In a table -/

variable {root root' : Tree} {s : Site}

/-- The new numbers of the entries outside of the block. -/
abbrev number (ts us : List Tree) (first : Nat) : Nat → Nat := renumber first (sizes ts) (sizes us)

/-- The entries of a tree and those of the tree that differs in one block. -/
theorem rootSites (h : OneHole ts us first root root') : ∃ xs xs' block block' ys ys',
    Parts (number ts us first) ts xs xs' block block' ys ys' ∧ block.base = first ∧
      root.sites none 0 = xs ++ (sitesAll (some block.index) block.base ts ++ block :: ys) ∧
      root'.sites none 0 =
        xs' ++ (sitesAll (some block'.index) block'.base us ++ block' :: ys') := by
  obtain ⟨xs, xs', block, block', ys, ys', hparts, hbase, hsites⟩ :=
    @sites _ _ _ _ _ _ h none 0 (.renumber _ _ _ _)
  exact ⟨xs, xs', block, block', ys, ys', hparts, by omega, hsites⟩

namespace Parts

variable {xs xs' ys ys' : List Site} {block block' : Site}

/-- The block is the entry behind what is in it. -/
theorem index (h : Parts φ ts xs xs' block block' ys ys') :
    block.index = block.base + sizes ts := by
  obtain ⟨slot, span, us, htree⟩ := eq_node_of_kind h.kind
  have hts := h.children
  rw [htree, Tree.children] at hts
  rw [Site.index, htree, Tree.size, hts]
  rfl

end Parts

/-- The block is an entry. -/
theorem exists_block (h : OneHole ts us first root root') : ∃ block ∈ root.sites none 0,
    block.base = first ∧ block.index = first + sizes ts ∧ block.tree.kind = .node .block ∧
      block.tree.children = ts := by
  obtain ⟨xs, _, block, _, ys, _, hparts, rfl, hroot, -⟩ := h.rootSites
  exact ⟨block, by simp [hroot], rfl, hparts.index, hparts.kind, hparts.children⟩

/-- What is first in the block is an entry. -/
theorem head_mem_sites (h : OneHole (t :: ts) us first root root') :
    ⟨some (first + sizes (t :: ts)), first, t⟩ ∈ root.sites none 0 := by
  obtain ⟨block, hblock, rfl, hindex, hkind, hchildren⟩ := h.exists_block
  obtain ⟨slot, span, vs, htree⟩ := eq_node_of_kind hkind
  have hvs : vs = [] ++ t :: ts := by rw [← hchildren, htree]; rfl
  rw [← hindex]
  exact child_mem_sites hblock (htree.trans (by rw [hvs]))

theorem exists_renumbered {xs xs' : List Site} (h : List.Forall₂ (Site.Renumbers φ) xs xs')
    (hs : s ∈ xs) : ∃ s' ∈ xs', s.Renumbers φ s' := by
  induction h with
  | nil => cases hs
  | cons hst _ ih =>
    rcases List.mem_cons.1 hs with rfl | hs
    · exact ⟨_, List.mem_cons_self .., hst⟩
    · obtain ⟨s', hs', hr⟩ := ih hs
      exact ⟨s', List.mem_cons_of_mem _ hs', hr⟩

/-- An entry outside of the block is found in both tables. -/
theorem exists_moved (h : OneHole ts us first root root') (hs : s ∈ root.sites none 0)
    (ho : s.index < first ∨ first + sizes ts ≤ s.index) :
    ∃ s' ∈ root'.sites none 0, s.Moves (number ts us first) s' ∧
      (s.index ≠ first + sizes ts → s.Renumbers (number ts us first) s') := by
  obtain ⟨xs, xs', block, block', ys, ys', hparts, rfl, hroot, hroot'⟩ := h.rootSites
  have hmoved {zs zs' : List Site} (hz : List.Forall₂ (Site.Renumbers (number ts us block.base)) zs zs')
      (hs : s ∈ zs) (hsub : ∀ s' ∈ zs', s' ∈ root'.sites none 0) : ∃ s' ∈ root'.sites none 0,
        s.Moves (number ts us block.base) s' ∧
          (s.index ≠ block.base + sizes ts → s.Renumbers (number ts us block.base) s') := by
    obtain ⟨s', hs', hr⟩ := exists_renumbered hz hs
    exact ⟨s', hsub s' hs', hr.toMoves, fun _ => hr⟩
  rw [hroot, List.mem_append, List.mem_append, List.mem_cons] at hs
  rcases hs with hs | hs | rfl | hs
  · exact hmoved hparts.before hs fun s' hs' => by simp [hroot', hs']
  · have hindex := index_mem_sitesAll hs
    omega
  · exact ⟨block', by simp [hroot'], hparts.moves, fun hne => absurd hparts.index hne⟩
  · exact hmoved hparts.behind hs fun s' hs' => by simp [hroot', hs']

theorem map_index_leaves {ys ys' : List Site} (h : List.Forall₂ (Site.Renumbers φ) ys ys') :
    (ys'.filter (·.token?.isSome)).map Site.index =
      ((ys.filter (·.token?.isSome)).map Site.index).map φ := by
  induction h with
  | nil => rfl
  | @cons s s' _ _ hs _ ih =>
    have hleaf : s'.token?.isSome = s.token?.isSome := by
      rw [← Site.isToken_entry, ← Site.isToken_entry, Entry.isToken, Entry.isToken, Site.kind_entry,
        Site.kind_entry, hs.kind]
    rw [List.filter_cons, List.filter_cons, hleaf]
    split
    · rw [List.map_cons, List.map_cons, List.map_cons, ih, hs.index]
    · exact ih

/-- Trees that are the same have as many tokens. -/
theorem length_tokens_same (h : Same root root') : root'.tokens.length = root.tokens.length := by
  have hsites : List.Forall₂ (Site.Renumbers id) (root.sites none 0) (root'.sites none 0) :=
    sites_same h fun _ _ => rfl
  rw [← NodeTable.size_tokens, ← NodeTable.size_tokens, ← Array.length_toList,
    ← Array.length_toList, NodeTable.tokens_ofTree, NodeTable.tokens_ofTree, leafSites, leafSites,
    map_index_leaves hsites, List.length_map]

/-- The tokens behind the block have the new numbers. -/
theorem tokens_behind (h : OneHole ts us first root root') : ∃ early early' late : List Nat,
    ∃ before behind : List Token, root.tokens = before ++ (tokensAll ts ++ behind) ∧
      (NodeTable.ofTree root).tokens.toList = early ++ late ∧
      (NodeTable.ofTree root').tokens.toList = early' ++ late.map (number ts us first) ∧
      late.length = behind.length ∧ ∀ i ∈ late, first + sizes ts < i := by
  obtain ⟨xs, xs', block, block', ys, ys', hparts, rfl, hroot, hroot'⟩ := h.rootSites
  have hnone {b : Site} (hb : b.tree.kind = .node .block) : b.token? = none := by
    obtain ⟨slot, span, us, htree⟩ := eq_node_of_kind hb
    rw [Site.token?, htree]
  have hkind' : block'.tree.kind = .node .block := hparts.moves.kind.trans hparts.kind
  have hsplit (root : Tree) (xs zs ys : List Site) (b : Site) (hb : b.tree.kind = .node .block)
      (hroot : root.sites none 0 = xs ++ (zs ++ b :: ys)) :
      root.tokens = xs.filterMap Site.token? ++
        (zs.filterMap Site.token? ++ ys.filterMap Site.token?) ∧
      (NodeTable.ofTree root).tokens.toList =
        ((xs ++ zs).filter (·.token?.isSome)).map Site.index ++
          (ys.filter (·.token?.isSome)).map Site.index := by
    rw [← filterMap_token_sites none 0 root, NodeTable.tokens_ofTree, leafSites, hroot]
    simp [hnone hb]
  obtain ⟨htokens, hlist⟩ := hsplit root _ _ _ _ hparts.kind hroot
  obtain ⟨-, hlist'⟩ := hsplit root' _ _ _ _ hkind' hroot'
  rw [filterMap_token_sitesAll] at htokens
  rw [map_index_leaves hparts.behind] at hlist'
  refine ⟨_, _, _, _, _, htokens, hlist, hlist', ?_, fun i hi => ?_⟩
  · rw [List.length_map, List.length_filterMap_eq_countP, List.countP_eq_length_filter]
  · obtain ⟨s, hs, rfl⟩ := List.mem_map.1 hi
    have hpairs := pairwise_sites root none 0
    rw [hroot, List.pairwise_append, List.pairwise_append, List.pairwise_cons] at hpairs
    rw [← hparts.index]
    exact hpairs.2.1.2.1.1 s (List.mem_filter.1 hs).1

/-- The tokens behind the block have the new numbers, and as many other places as the second block
has more tokens. -/
theorem tokens_shift (h : OneHole ts us first root root') {before inside behind : List Token}
    {x : Token} {more n i : Nat} (hroot : root.tokens = before ++ x :: (inside ++ behind))
    (hts : tokensAll ts = x :: inside) (hn : root.tokens.Nodup)
    (hmore : root'.tokens.length = root.tokens.length + more)
    (hplace : before.length + inside.length < n)
    (hi : (NodeTable.ofTree root).tokens[n]? = some i) :
    first + sizes ts < i ∧
      (NodeTable.ofTree root').tokens[n + more]? = some (number ts us first i) := by
  obtain ⟨early, early', late, before', behind', hsplit, hlist, hlist', hlate, hbehind⟩ :=
    h.tokens_behind
  have hsame : behind' = behind := by
    rw [hroot, List.nodup_append, List.nodup_cons] at hn
    obtain ⟨-, ⟨hnot', -⟩, hdisjoint⟩ := hn
    have hnot : x ∉ before := fun hmem => hdisjoint _ hmem _ (List.mem_cons_self ..) rfl
    rw [hroot, hts, List.cons_append] at hsplit
    exact (List.append_cancel_left ((List.append_cons_inj_of_notMem hnot hnot').1 hsplit).2.2).symm
  have hlength := NodeTable.size_tokens root
  have hlength' := NodeTable.size_tokens root'
  rw [← Array.length_toList, hlist, hroot] at hlength
  rw [← Array.length_toList, hlist', hmore, hroot] at hlength'
  simp only [List.length_append, List.length_cons, List.length_map] at hlength hlength'
  rw [hsame] at hlate
  rw [← Array.getElem?_toList, hlist, List.getElem?_append_right (by omega)] at hi
  refine ⟨hbehind i (List.mem_of_getElem? hi), ?_⟩
  rw [← Array.getElem?_toList, hlist', List.getElem?_append_right (by omega),
    show n + more - early'.length = n - early.length by omega, List.getElem?_map, hi]
  rfl

end OneHole

end Tree

namespace NodeTable

/-! ## Tables that are the same outside of one entry -/

/-- The entry is not below `block`; it may be `block` itself. -/
def Outside (t : NodeTable) (block i : Nat) : Prop := i = block ∨ ¬t.Below i block

/-- The second table is the first, but for what is below `block` and what `block` holds. All other
entries have new numbers in the same order. -/
structure SameOutside (t t' : NodeTable) (block : Nat) (φ : Nat → Nat) : Prop where
  order : ∀ i j, t.Outside block i → t.Outside block j → (φ i < φ j ↔ i < j)
  kind : ∀ i, t.Outside block i → t'.kind? (some (φ i)) = t.kind? (some i)
  parent : ∀ i, t.Outside block i → t'.parent (some (φ i)) = (t.parent (some i)).map φ
  modifiers : ∀ i, t.Outside block i → i ≠ block →
    t'.modifiers (some (φ i)) = t.modifiers (some i)
  data : ∀ i, t.Outside block i → i ≠ block →
    t'.data (some (φ i)) = (t.data (some i)).renumbered φ
  name : ∀ i, t.Outside block i → t'.declaredName? (some (φ i)) = t.declaredName? (some i)

variable {root root' : Tree} {ts us : List Tree} {first i : Nat}

theorem outside_iff (h : Tree.OneHole ts us first root root') :
    (ofTree root).Outside (first + Tree.sizes ts) i ↔ i < first ∨ first + Tree.sizes ts ≤ i := by
  obtain ⟨block, hblock, hbase, hindex, -⟩ := h.exists_block
  rw [Outside, ← hindex, below_iff hblock, hbase, hindex]
  omega

/-- An entry outside of the block is in both tables or in none. -/
theorem moved_cases (h : Tree.OneHole ts us first root root')
    (ho : (ofTree root).Outside (first + Tree.sizes ts) i) :
    ((ofTree root).size ≤ i ∧
      (ofTree root').size ≤ Tree.OneHole.number ts us first i) ∨
    ∃ s ∈ root.sites none 0, s.index = i ∧ ∃ s' ∈ root'.sites none 0,
      s.Moves (Tree.OneHole.number ts us first) s' ∧
        (i ≠ first + Tree.sizes ts → s.Renumbers (Tree.OneHole.number ts us first) s') := by
  rw [outside_iff h] at ho
  by_cases hi : i < (ofTree root).size
  · obtain ⟨s, hs, rfl⟩ := exists_site_of_lt hi
    obtain ⟨s', hs', hmoved⟩ := h.exists_moved hs ho
    exact .inr ⟨s, hs, rfl, s', hs', hmoved⟩
  · have hsize := h.size
    have hlt := h.first_add_lt
    rw [size_ofTree] at hi
    have hnumber : Tree.OneHole.number ts us first i + Tree.sizes ts = i + Tree.sizes us :=
      renumber_add (by omega)
    exact .inl ⟨by rw [size_ofTree]; omega, by rw [size_ofTree]; omega⟩

theorem get?_eq_none {t : NodeTable} (h : t.size ≤ i) : t.get? (some i) = none :=
  Array.getElem?_eq_none h

/-- A block has no name. -/
theorem name?_of_block (h : (ofTree root).kind? (some i) = some (.node .block)) :
    (ofTree root).name? (some i) = none ∧ (ofTree root).declaredName? (some i) = none := by
  have hshape := ofTree_shape i _ h
  unfold name? declaredName?
  cases hd : (ofTree root).data (some i) <;> rw [hd] at hshape <;> cases hshape
  exact ⟨rfl, rfl⟩

/-- What a name refers to has its new number. -/
theorem declaredName?_renumbered {t t' : NodeTable} {r r' : Ref} {φ : Nat → Nat}
    (hdata : t'.data r' = (t.data r).renumbered φ)
    (hname : ∀ j, (Slot.name, some j) ∈ (t.data r).slots →
      t'.name? (some (φ j)) = t.name? (some j)) : t'.declaredName? r' = t.declaredName? r := by
  have hmap (part : Ref) (h : (Slot.name, part) ∈ (t.data r).slots) :
      t'.name? (part.map φ) = t.name? part := by
    cases part with
    | none => rfl
    | some j => exact hname j h
  unfold declaredName?
  rw [hdata]
  cases hd : t.data r <;> rw [hd] at hmap <;> try rfl
  all_goals exact hmap _ (by simp [Data.slots])

theorem parent_of_slots {slot : Slot} {j : Nat}
    (h : (slot, some j) ∈ ((ofTree root).data (some i)).slots) :
    (ofTree root).parent (some j) = some i := by
  by_cases hi : i < (ofTree root).size
  · obtain ⟨u, hu, rfl⟩ := exists_site_of_lt hi
    obtain ⟨owner, -, -, v, hv, -, rfl⟩ := exists_child_of_slots hu h
    obtain ⟨_, _, _, _, _, -, hparent, -⟩ := Site.mem_children.1 hv
    rw [parent_ofTree (Site.mem_sites_of_mem_children hu hv), hparent]
  · rw [data_eq_none (Nat.le_of_not_lt hi)] at h
    cases h

section Moved

variable (h : Tree.OneHole ts us first root root')

include h

theorem kind?_block : (ofTree root).kind? (some (first + Tree.sizes ts)) = some (.node .block) := by
  obtain ⟨block, hblock, -, hindex, hkind, -⟩ := h.exists_block
  rw [← hindex, kind?_ofTree hblock, hkind]

variable (ho : (ofTree root).Outside (first + Tree.sizes ts) i)

include ho

theorem kind?_moved : (ofTree root').kind? (some (Tree.OneHole.number ts us first i)) =
    (ofTree root).kind? (some i) := by
  rcases moved_cases h ho with ⟨hi, hi'⟩ | ⟨s, hs, rfl, s', hs', hmoves, -⟩
  · rw [kind?, kind?, get?_eq_none hi, get?_eq_none hi']
  · rw [← hmoves.index, kind?_ofTree hs, kind?_ofTree hs', hmoves.kind]

theorem parent_moved : (ofTree root').parent (some (Tree.OneHole.number ts us first i)) =
    ((ofTree root).parent (some i)).map (Tree.OneHole.number ts us first) := by
  rcases moved_cases h ho with ⟨hi, hi'⟩ | ⟨s, hs, rfl, s', hs', hmoves, -⟩
  · rw [parent, parent, get?_eq_none hi, get?_eq_none hi']
    rfl
  · rw [← hmoves.index, parent_ofTree hs, parent_ofTree hs', hmoves.parent]

theorem modifiers_moved (hne : i ≠ first + Tree.sizes ts) :
    (ofTree root').modifiers (some (Tree.OneHole.number ts us first i)) =
      (ofTree root).modifiers (some i) := by
  rcases moved_cases h ho with ⟨hi, hi'⟩ | ⟨s, hs, rfl, s', hs', hmoves, hr⟩
  · rw [modifiers, modifiers, get?_eq_none hi, get?_eq_none hi']
  · rw [← hmoves.index, modifiers, modifiers, get?_ofTree hs, get?_ofTree hs']
    exact (hr hne).modifiers

theorem data_moved (hne : i ≠ first + Tree.sizes ts) :
    (ofTree root').data (some (Tree.OneHole.number ts us first i)) =
      ((ofTree root).data (some i)).renumbered (Tree.OneHole.number ts us first) := by
  rcases moved_cases h ho with ⟨hi, hi'⟩ | ⟨s, hs, rfl, s', hs', hmoves, hr⟩
  · rw [data_eq_none hi, data_eq_none hi']
    rfl
  · rw [← hmoves.index, data_ofTree hs, data_ofTree hs', (hr hne).data]

theorem name?_moved : (ofTree root').name? (some (Tree.OneHole.number ts us first i)) =
    (ofTree root).name? (some i) := by
  by_cases hi : i = first + Tree.sizes ts
  · subst hi
    rw [(name?_of_block (kind?_block h)).1,
      (name?_of_block ((kind?_moved h ho).trans (kind?_block h))).1]
  · rw [name?, name?, data_moved h ho hi]
    cases (ofTree root).data (some i) <;> rfl

theorem declaredName?_moved :
    (ofTree root').declaredName? (some (Tree.OneHole.number ts us first i)) =
      (ofTree root).declaredName? (some i) := by
  by_cases hi : i = first + Tree.sizes ts
  · subst hi
    rw [(name?_of_block (kind?_block h)).2,
      (name?_of_block ((kind?_moved h ho).trans (kind?_block h))).2]
  · refine declaredName?_renumbered (data_moved h ho hi) fun j hj => name?_moved h ?_
    by_cases hblock : j = first + Tree.sizes ts
    · exact .inl hblock
    · -- the entry would be below the block if its name is
      refine .inr fun hbelow => (ho.resolve_left hi) ?_
      obtain hj' | ⟨p, hp, hbelow⟩ := Relation.ReflTransGen.cases_head hbelow
      · exact absurd hj' hblock
      · rw [HasParent, parent_of_slots hj, Option.some.injEq] at hp
        exact hp ▸ hbelow

end Moved

/-- The tables of trees that differ in one block are the same outside of the block. -/
theorem sameOutside_ofTree (h : Tree.OneHole ts us first root root') :
    SameOutside (ofTree root) (ofTree root') (first + Tree.sizes ts)
      (Tree.OneHole.number ts us first) where
  order _ _ hi hj := renumber_lt_iff ((outside_iff h).1 hi) ((outside_iff h).1 hj)
  kind _ := kind?_moved h
  parent _ := parent_moved h
  modifiers _ := modifiers_moved h
  data _ := data_moved h
  name _ := declaredName?_moved h

end NodeTable

end Caret
