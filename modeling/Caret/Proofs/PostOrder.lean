import Caret.Table.Layout
import Mathlib.Logic.Relation
/-!
# Where the trees stand in a table

Each entry of the table of a tree stands for one of its subtrees. `Tree.sites` lists the subtrees
in the order of the entries, each with the number of its parent and the number that its own entries
begin with. The entries of a subtree stand together and end with its root, so to be below an entry
is to stand in the block of entries that ends with it (`below_iff`).
-/

namespace Caret

/-- A subtree in a table: its parent, and the number from which on its entries stand. -/
structure Site where
  parent : Ref
  base : Nat
  tree : Tree

namespace Site

/-- The number of the root of the subtree. -/
def index (s : Site) : Nat := s.base + s.tree.size - 1

/-- The entry of the root of the subtree. -/
def entry (s : Site) : Entry :=
  match s.tree with
  | .leaf _ t => Tree.leafEntry s.parent t
  | .node _ k span children => Tree.nodeEntry s.parent k span (Tree.placed s.base children)

@[simp] theorem parent_entry (s : Site) : s.entry.parent = s.parent := by
  unfold entry; split <;> rfl

@[simp] theorem kind_entry (s : Site) : s.entry.kind = s.tree.kind := by
  unfold entry; split <;> simp_all [Tree.leafEntry, Tree.nodeEntry, Tree.kind]

@[simp] theorem span_entry (s : Site) : s.entry.span = s.tree.span := by
  unfold entry; split <;> simp_all [Tree.leafEntry, Tree.nodeEntry, Tree.span]

/-- An entry holds data of the shape that its kind asks for. -/
theorem shape_entry (s : Site) : s.entry.data.shape? = s.entry.kind.shape? := by
  unfold entry
  split
  · rename_i slot t _
    by_cases hk : t.kind = .identifier
    · simp [Tree.leafEntry, hk, Kind.shape?, Data.shape?]
    · simp [Tree.leafEntry, hk, Kind.shape?, Data.shape?]
  · exact Data.shape?_ofChildren _ _

theorem base_le_index (s : Site) : s.base ≤ s.index := by
  have := s.tree.size_pos
  unfold index
  omega

end Site

namespace Tree

mutual

/-- The subtrees of a tree that is written from `base` on below `parent`. -/
def sites (parent : Ref) (base : Nat) : Tree → List Site
  | leaf s t => [⟨parent, base, leaf s t⟩]
  | node s k span children =>
    sitesAll (some (base + sizes children)) base children ++ [⟨parent, base, node s k span children⟩]

/-- The subtrees of some trees that are written from `base` on below `parent`. -/
def sitesAll (parent : Ref) (base : Nat) : List Tree → List Site
  | [] => []
  | t :: ts => sites parent base t ++ sitesAll parent (base + size t) ts

end

mutual

theorem entries_eq (parent : Ref) (base : Nat) (t : Tree) :
    t.entries parent base = (t.sites parent base).map Site.entry := by
  cases t with
  | leaf => rfl
  | node _ _ _ children =>
    rw [entries, sites, entriesAll_eq, List.map_append]
    rfl

theorem entriesAll_eq (parent : Ref) (base : Nat) (ts : List Tree) :
    entriesAll parent base ts = (sitesAll parent base ts).map Site.entry := by
  cases ts with
  | nil => rfl
  | cons t ts => rw [entriesAll, sitesAll, entries_eq, entriesAll_eq, List.map_append]

end

theorem length_sites (parent : Ref) (base : Nat) (t : Tree) :
    (t.sites parent base).length = t.size := by
  rw [← length_entries parent base t, entries_eq, List.length_map]

theorem sitesAll_append (parent : Ref) (base : Nat) (ts us : List Tree) :
    sitesAll parent base (ts ++ us) =
      sitesAll parent base ts ++ sitesAll parent (base + sizes ts) us := by
  induction ts generalizing base with
  | nil => simp [sitesAll, sizes]
  | cons t ts ih => simp [sitesAll, sizes, ih, Nat.add_assoc]

/-- The whole tree stands last. -/
theorem self_mem_sites (parent : Ref) (base : Nat) (t : Tree) :
    ⟨parent, base, t⟩ ∈ t.sites parent base := by
  cases t <;> simp [sites]

/-- The subtrees of some trees are those of each of them. -/
theorem mem_sitesAll {parent : Ref} {base : Nat} {ts : List Tree} {s : Site} :
    s ∈ sitesAll parent base ts ↔ ∃ before t after, ts = before ++ t :: after ∧
      s ∈ t.sites parent (base + sizes before) := by
  constructor
  · intro h
    induction ts generalizing base with
    | nil => simp [sitesAll] at h
    | cons t ts ih =>
      rcases List.mem_append.1 h with h | h
      · exact ⟨[], t, ts, rfl, h⟩
      · obtain ⟨before, u, after, rfl, hs⟩ := ih h
        exact ⟨t :: before, u, after, rfl, by rwa [sizes, ← Nat.add_assoc]⟩
  · rintro ⟨before, t, after, rfl, h⟩
    rw [sitesAll_append, sitesAll]
    exact List.mem_append_right _ (List.mem_append_left _ h)

/-! ## The numbers of the entries -/

mutual

/-- The subtrees are listed by the numbers of their roots. -/
theorem map_index_sites (parent : Ref) (base : Nat) (t : Tree) :
    (t.sites parent base).map Site.index = List.range' base t.size := by
  cases t with
  | leaf => simp [sites, Site.index, size]
  | node s k span children =>
    rw [sites, List.map_append, map_index_sitesAll, size, ← List.range'_append]
    simp [Site.index, size]

theorem map_index_sitesAll (parent : Ref) (base : Nat) (ts : List Tree) :
    (sitesAll parent base ts).map Site.index = List.range' base (sizes ts) := by
  cases ts with
  | nil => rfl
  | cons t ts =>
    rw [sitesAll, List.map_append, map_index_sites, map_index_sitesAll, sizes, ← List.range'_append]
    simp

end

theorem pairwise_sites (t : Tree) (parent : Ref) (base : Nat) :
    (t.sites parent base).Pairwise fun s u => s.index < u.index := by
  refine List.pairwise_map.1 ?_
  rw [map_index_sites]
  exact List.pairwise_lt_range'

variable {parent : Ref} {base : Nat} {t : Tree}

/-- The entry that stands at a number is that of the subtree with the number. -/
theorem getElem?_sites_of_mem {s : Site} (h : s ∈ t.sites parent base) :
    (t.sites parent base)[s.index - base]? = some s := by
  obtain ⟨i, hi, hs⟩ := List.getElem_of_mem h
  have hx : ((t.sites parent base).map Site.index)[i]? = some s.index := by
    rw [List.getElem?_map, List.getElem?_eq_getElem hi, hs]
    rfl
  rw [map_index_sites] at hx
  rw [List.getElem?_range' (by rwa [length_sites] at hi)] at hx
  rw [← Option.some.inj hx, Nat.one_mul, Nat.add_sub_cancel_left, List.getElem?_eq_getElem hi, hs]

theorem site_unique {s s' : Site} (h : s ∈ t.sites parent base) (h' : s' ∈ t.sites parent base)
    (hi : s.index = s'.index) : s = s' := by
  have hs := getElem?_sites_of_mem h
  rw [hi, getElem?_sites_of_mem h'] at hs
  exact (Option.some.inj hs).symm

theorem index_mem_sites {s : Site} (h : s ∈ t.sites parent base) :
    base ≤ s.index ∧ s.index < base + t.size := by
  have hi : s.index ∈ (t.sites parent base).map Site.index := List.mem_map_of_mem h
  rw [map_index_sites, List.mem_range'_1] at hi
  exact hi

theorem index_mem_sitesAll {ts : List Tree} {s : Site} (h : s ∈ sitesAll parent base ts) :
    base ≤ s.index ∧ s.index < base + sizes ts := by
  have hi : s.index ∈ (sitesAll parent base ts).map Site.index := List.mem_map_of_mem h
  rw [map_index_sitesAll, List.mem_range'_1] at hi
  exact hi

theorem exists_site {i : Nat} (hb : base ≤ i) (hi : i < base + t.size) :
    ∃ s ∈ t.sites parent base, s.index = i := by
  have hm : i ∈ List.range' base t.size := List.mem_range'_1.2 ⟨hb, hi⟩
  rw [← map_index_sites parent base t] at hm
  exact List.mem_map.1 hm

/-! ## Parents and children -/

/-- The first subtree stands as a child right below the second. -/
def ChildOf (s u : Site) : Prop :=
  ∃ slot k span before after, u.tree = node slot k span (before ++ s.tree :: after) ∧
    s.parent = some u.index ∧ s.base = u.base + sizes before

theorem ChildOf.bounds {s u : Site} (h : ChildOf s u) : u.base ≤ s.base ∧ s.index < u.index := by
  obtain ⟨slot, k, span, before, after, ht, -, hb⟩ := h
  unfold Site.index
  rw [ht, size, sizes_append, sizes, hb]
  have := s.tree.size_pos
  omega

mutual

/-- Induction on trees, where the hypothesis is for all children of a node. -/
theorem induct {P : Tree → Prop} (leaf : ∀ s t, P (.leaf s t))
    (node : ∀ s k span children, (∀ t ∈ children, P t) → P (.node s k span children)) :
    ∀ t, P t
  | .leaf s t => leaf s t
  | .node s k span children => node s k span children (inductAll leaf node children)

theorem inductAll {P : Tree → Prop} (leaf : ∀ s t, P (.leaf s t))
    (node : ∀ s k span children, (∀ t ∈ children, P t) → P (.node s k span children)) :
    ∀ ts : List Tree, ∀ t ∈ ts, P t
  | [] => by simp
  | u :: us => List.forall_mem_cons.2 ⟨induct leaf node u, inductAll leaf node us⟩

end

/-- What passes from a node to its children passes to all subtrees. -/
theorem of_mem_sites {p : Tree → Prop}
    (hp : ∀ slot k span ts, p (.node slot k span ts) → ∀ u ∈ ts, p u) (ht : p t) {s : Site}
    (h : s ∈ t.sites parent base) : p s.tree := by
  induction t using induct generalizing parent base with
  | leaf slot token =>
    rw [List.mem_singleton.1 h]
    exact ht
  | node slot k span children ih =>
    rcases List.mem_append.1 h with h | h
    · obtain ⟨before, u, after, rfl, hs⟩ := mem_sitesAll.1 h
      exact ih u (by simp) (hp _ _ _ _ ht u (by simp)) hs
    · rw [List.mem_singleton.1 h]
      exact ht

/-- The subtrees of a subtree are subtrees. -/
theorem sites_subset {s : Site} (h : s ∈ t.sites parent base) :
    ∀ u ∈ s.tree.sites s.parent s.base, u ∈ t.sites parent base := by
  induction t using induct generalizing parent base with
  | leaf slot token =>
    obtain rfl := List.mem_singleton.1 h
    exact fun _ => id
  | node slot k span children ih =>
    rcases List.mem_append.1 h with h | h
    · obtain ⟨before, t, after, rfl, hs⟩ := mem_sitesAll.1 h
      intro u hu
      refine List.mem_append_left _ (mem_sitesAll.2 ⟨before, t, after, rfl, ?_⟩)
      exact ih t (by simp) hs u hu
    · obtain rfl := List.mem_singleton.1 h
      exact fun _ => id

/-- The children of a subtree are subtrees. -/
theorem child_mem_sites {u : Site} (h : u ∈ t.sites parent base) {slot : Slot} {k : NodeKind}
    {span : Span} {before after : List Tree} {c : Tree}
    (hu : u.tree = .node slot k span (before ++ c :: after)) :
    ⟨some u.index, u.base + sizes before, c⟩ ∈ t.sites parent base := by
  refine sites_subset h _ ?_
  have hi : u.index = u.base + sizes (before ++ c :: after) := by
    simp [Site.index, hu, size]
  rw [hu, hi]
  refine List.mem_append_left _ (mem_sitesAll.2 ⟨before, c, after, rfl, self_mem_sites _ _ _⟩)

/-- The children of a node that stands from `base` on. -/
def childSites (parent : Ref) (base : Nat) : List Tree → List Site
  | [] => []
  | t :: ts => ⟨parent, base, t⟩ :: childSites parent (base + t.size) ts

theorem childSites_append (parent : Ref) (base : Nat) (ts us : List Tree) :
    childSites parent base (ts ++ us) =
      childSites parent base ts ++ childSites parent (base + sizes ts) us := by
  induction ts generalizing base with
  | nil => simp [childSites, sizes]
  | cons t ts ih => simp [childSites, sizes, ih, Nat.add_assoc]

theorem mem_childSites {parent : Ref} {base : Nat} {ts : List Tree} {s : Site} :
    s ∈ childSites parent base ts ↔ ∃ before after, ts = before ++ s.tree :: after ∧
      s.parent = parent ∧ s.base = base + sizes before := by
  constructor
  · intro h
    induction ts generalizing base with
    | nil => simp [childSites] at h
    | cons t ts ih =>
      rcases List.mem_cons.1 h with rfl | h
      · exact ⟨[], ts, rfl, rfl, rfl⟩
      · obtain ⟨before, after, rfl, hp, hb⟩ := ih h
        exact ⟨t :: before, after, rfl, hp, by rw [hb, sizes, Nat.add_assoc]⟩
  · rintro ⟨before, after, rfl, rfl, hb⟩
    induction before generalizing base with
    | nil =>
      have : base = s.base := hb.symm
      subst this
      exact List.mem_cons_self ..
    | cons t before ih =>
      exact List.mem_cons_of_mem _ (ih (by rw [hb, sizes, Nat.add_assoc]))

/-- What is read off a child is its slot, its kind and its number. -/
theorem placed_eq (parent : Ref) (base : Nat) (ts : List Tree) :
    placed base ts =
      (childSites parent base ts).map fun s => ⟨s.tree.slot, s.tree.kind, s.index⟩ := by
  induction ts generalizing base with
  | nil => rfl
  | cons t ts ih => rw [placed, childSites, List.map_cons, ih]; rfl

theorem placed_append (base : Nat) (ts us : List Tree) :
    placed base (ts ++ us) = placed base ts ++ placed (base + sizes ts) us := by
  rw [placed_eq none, childSites_append, List.map_append, ← placed_eq, ← placed_eq]

theorem map_tree_childSites (parent : Ref) (base : Nat) (ts : List Tree) :
    (childSites parent base ts).map (·.tree) = ts := by
  induction ts generalizing base with
  | nil => rfl
  | cons t ts ih => rw [childSites, List.map_cons, ih]

/-- The blocks of the children of a node follow each other. -/
theorem pairwise_childSites (parent : Ref) (base : Nat) (ts : List Tree) :
    (childSites parent base ts).Pairwise fun s u => s.index < u.base := by
  induction ts generalizing base with
  | nil => exact .nil
  | cons t ts ih =>
    refine List.pairwise_cons.2 ⟨fun u hu => ?_, ih _⟩
    obtain ⟨before, after, -, -, hb⟩ := mem_childSites.1 hu
    have := t.size_pos
    simp only [Site.index, hb]
    omega

/-- Every subtree but the whole tree is a child of a subtree. -/
theorem exists_childOf {s : Site} (h : s ∈ t.sites parent base) :
    s = ⟨parent, base, t⟩ ∨ ∃ u ∈ t.sites parent base, ChildOf s u := by
  induction t using induct generalizing parent base with
  | leaf slot token => exact .inl (List.mem_singleton.1 h)
  | node slot k span children ih =>
    rcases List.mem_append.1 h with h | h
    · obtain ⟨before, t, after, rfl, hs⟩ := mem_sitesAll.1 h
      right
      rcases ih t (by simp) hs with rfl | ⟨u, hu, hc⟩
      · exact ⟨_, self_mem_sites _ _ _, slot, k, span, before, after, rfl, by
          simp [Site.index, size], rfl⟩
      · exact ⟨u, List.mem_append_left _ (mem_sitesAll.2 ⟨before, t, after, rfl, hu⟩), hc⟩
    · exact .inl (List.mem_singleton.1 h)

end Tree

namespace NodeTable

/-! ## The table of a tree -/

variable {root : Tree} {s u : Site} {i : Nat}

theorem size_ofTree (root : Tree) : (ofTree root).size = root.size := by
  rw [size, entries_ofTree, List.size_toArray, Tree.length_entries]

theorem get?_ofTree (h : s ∈ root.sites none 0) :
    (ofTree root).get? (some s.index) = some s.entry := by
  have hs := Tree.getElem?_sites_of_mem h
  simp only [get?, entries_ofTree, Option.bind_some, List.getElem?_toArray]
  rw [Tree.entries_eq, List.getElem?_map, ← Nat.sub_zero s.index, hs]
  rfl

theorem kind?_ofTree (h : s ∈ root.sites none 0) :
    (ofTree root).kind? (some s.index) = some s.tree.kind := by
  rw [kind?, get?_ofTree h, Option.map_some, Site.kind_entry]

theorem node?_ofTree (h : s ∈ root.sites none 0) :
    (ofTree root).node? (some s.index) = s.tree.kind.node? := by
  rw [node?, kind?_ofTree h, Option.bind_some]

theorem exists_site_of_lt (h : i < (ofTree root).size) : ∃ s ∈ root.sites none 0, s.index = i :=
  Tree.exists_site (Nat.zero_le _) (by rwa [Nat.zero_add, ← size_ofTree])

theorem index_lt_size (h : s ∈ root.sites none 0) : s.index < (ofTree root).size := by
  rw [size_ofTree]
  simpa using (Tree.index_mem_sites h).2

/-- What is found stands for a subtree. -/
theorem exists_site_of_get? (h : (ofTree root).get? (some i) ≠ none) :
    ∃ s ∈ root.sites none 0, s.index = i :=
  exists_site_of_lt (Nat.lt_of_not_le fun hle => h (Array.getElem?_eq_none hle))

/-- An entry of some kind stands for a subtree of that kind. -/
theorem exists_site_of_kind {k : Kind} (h : (ofTree root).kind? (some i) = some k) :
    ∃ s ∈ root.sites none 0, s.index = i ∧ s.tree.kind = k := by
  have hget : (ofTree root).get? (some i) ≠ none := fun hn => by simp [kind?, hn] at h
  obtain ⟨s, hs, rfl⟩ := exists_site_of_get? hget
  rw [kind?_ofTree hs, Option.some.injEq] at h
  exact ⟨s, hs, rfl, h⟩

theorem exists_site_of_node {k : NodeKind} (h : (ofTree root).node? (some i) = some k) :
    ∃ s ∈ root.sites none 0, s.index = i ∧ s.tree.kind = .node k := by
  obtain ⟨kind, hkind, hk⟩ := Option.bind_eq_some_iff.1 h
  obtain ⟨s, hs, hi, rfl⟩ := exists_site_of_kind hkind
  refine ⟨s, hs, hi, ?_⟩
  cases hs : s.tree.kind <;> rw [hs] at hk <;> cases hk
  rfl

theorem parent_ofTree (h : s ∈ root.sites none 0) :
    (ofTree root).parent (some s.index) = s.parent := by
  rw [parent, get?_ofTree h, Option.bind_some, Site.parent_entry]

/-- An entry answers with its own data. -/
theorem data_ofTree (h : s ∈ root.sites none 0) :
    (ofTree root).data (some s.index) = s.entry.data := by
  have hs := s.shape_entry
  unfold data
  simp only [get?_ofTree h, ← hs]
  cases s.entry.data <;> simp [Data.shape?]

/-- The parent of an entry stands for the tree that the subtree of the entry is a child of. -/
theorem parent_eq_some (h : s ∈ root.sites none 0) (hp : s.parent = some i) :
    ∃ u ∈ root.sites none 0, Tree.ChildOf s u ∧ u.index = i := by
  rcases Tree.exists_childOf h with rfl | ⟨u, hu, hc⟩
  · cases hp
  · refine ⟨u, hu, hc, ?_⟩
    obtain ⟨_, _, _, _, _, -, hq, -⟩ := hc
    rw [hp] at hq
    exact (Option.some.inj hq).symm

/-! ## Descendants -/

/-- The second entry is the parent of the first. -/
def HasParent (t : NodeTable) (i j : Nat) : Prop := t.parent (some i) = some j

/-- The first entry is the second, or below it. -/
def Below (t : NodeTable) : Nat → Nat → Prop := Relation.ReflTransGen t.HasParent

theorem exists_site_of_hasParent {j : Nat} (h : (ofTree root).HasParent i j) :
    ∃ s ∈ root.sites none 0, ∃ u ∈ root.sites none 0,
      s.index = i ∧ u.index = j ∧ Tree.ChildOf s u := by
  have hget : (ofTree root).get? (some i) ≠ none := fun hn => by simp [HasParent, parent, hn] at h
  obtain ⟨s, hs, rfl⟩ := exists_site_of_get? hget
  rw [HasParent, parent_ofTree hs] at h
  obtain ⟨u, hu, hc, hj⟩ := parent_eq_some hs h
  exact ⟨s, hs, u, hu, rfl, hj, hc⟩

/-- What is below an entry stands in the block of the entry. -/
theorem bounds_of_below (hu : u ∈ root.sites none 0) (h : (ofTree root).Below i u.index) :
    ∃ s ∈ root.sites none 0, s.index = i ∧ u.base ≤ s.base ∧ i ≤ u.index := by
  induction h using Relation.ReflTransGen.head_induction_on with
  | refl => exact ⟨u, hu, rfl, Nat.le_refl _, Nat.le_refl _⟩
  | head hp _ ih =>
    obtain ⟨v, hv, rfl, hb, hi⟩ := ih
    obtain ⟨s, hs, v', hv', rfl, hj, hc⟩ := exists_site_of_hasParent hp
    obtain rfl := Tree.site_unique hv' hv hj
    have := hc.bounds
    exact ⟨s, hs, rfl, by omega, by omega⟩

/-- What stands in the block of an entry is below it. -/
theorem below_of_bounds (hu : u ∈ root.sites none 0) {i : Nat} (hb : u.base ≤ i)
    (hi : i ≤ u.index) : (ofTree root).Below i u.index := by
  induction hd : u.index - i using Nat.strongRecOn generalizing i with
  | ind d ih =>
    have hsize := u.tree.size_pos
    have hlt : i < u.base + u.tree.size := by unfold Site.index at hi; omega
    obtain ⟨s, hs, rfl⟩ : ∃ s ∈ u.tree.sites u.parent u.base, s.index = i :=
      Tree.exists_site hb hlt
    rcases Tree.exists_childOf hs with rfl | ⟨v, hv, hc⟩
    · exact .refl
    · have hbounds := hc.bounds
      have hv' := Tree.index_mem_sites hv
      have hle : v.index ≤ u.index := by
        have : u.index + 1 = u.base + u.tree.size := by unfold Site.index; omega
        omega
      have hp : (ofTree root).HasParent s.index v.index := by
        obtain ⟨_, _, _, _, _, -, hp, -⟩ := hc
        rw [HasParent, parent_ofTree (Tree.sites_subset hu s hs), hp]
      exact .head hp (ih (u.index - v.index) (by omega) (by omega) hle rfl)

/-- To be below an entry is to stand in its block. -/
theorem below_iff (hu : u ∈ root.sites none 0) (i : Nat) :
    (ofTree root).Below i u.index ↔ u.base ≤ i ∧ i ≤ u.index := by
  constructor
  · intro h
    obtain ⟨s, -, rfl, hb, hi⟩ := bounds_of_below hu h
    have := s.base_le_index
    exact ⟨by omega, hi⟩
  · rintro ⟨hb, hi⟩
    exact below_of_bounds hu hb hi

end NodeTable

end Caret
