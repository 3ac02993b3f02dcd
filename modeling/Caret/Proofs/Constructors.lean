import Caret.Proofs.Lineage
import Caret.Proofs.MemberNames
import Caret.Proofs.Mirroring
import Caret.Proofs.Tiling
/-!
# Constructors in tables

Each constructor of a table is a member of a type and has its name, and a name with a parenthesis
behind it begins a constructor if it is written as the name of the type
(`NodeTable.ofText_constructors`). The parser (`parse_member_declaration`) compares what is written,
while the names in a table have no sign `@` before them: in a class `C` a member `@C()` is no
constructor, although its name is that of the class.
-/

namespace Caret

open Tree

/-! ## Spellings of names -/

/-- The character at the offset is the sign of a name that is no keyword. -/
def EscapedAt (text : List Char) (offset : Nat) : Prop :=
  ∃ before after, text = before ++ '@' :: after ∧ byteLength before = offset

namespace Piece

theorem punctuation_ne_identifier {c : Char} {d : Option Char} {piece : Piece}
    (h : punctuation c d = some piece) : piece.kind ≠ some .identifier := by
  unfold punctuation at h
  split at h <;> first | (obtain rfl := Option.some.inj h; simp) | cases h

/-- Behind its first character a name has no sign. -/
theorem not_mem_take_of_identifier {c : Char} {cs : List Char}
    (h : (first c cs).kind = some .identifier) : '@' ∉ cs.take (first c cs).more := by
  have hlexeme : first c cs = lexeme c cs := by
    unfold first at h ⊢
    cases hg : gap c cs with
    | some piece => simp [hg, gap_kind hg] at h
    | none =>
      cases hp : punctuation c cs.head? with
      | some piece => simp [hg, hp, punctuation_ne_identifier hp] at h
      | none => rfl
  rw [hlexeme] at h ⊢
  unfold lexeme at h ⊢
  split at h
  · cases h
  · split at h
    · cases h
    · split at h
      · rename_i hs hd hn
        rw [if_neg hs, if_neg hd, if_pos hn, take_run]
        intro hmem
        exact absurd (List.mem_takeWhile_imp hmem) (by decide)
      · cases h

end Piece

theorem scanFrom_identifier (offset skip : Nat) (cs : List Char) :
    ∀ x ∈ scanFrom offset skip cs, x.kind = .identifier → '@' ∉ x.text.tail := by
  induction cs generalizing offset skip with
  | nil =>
    intro x hx hk
    rw [List.mem_singleton.1 hx] at hk
    cases hk
  | cons c cs ih =>
    cases skip with
    | succ skip => exact ih _ _
    | zero =>
      simp only [scanFrom]
      cases hk : (Piece.first c cs).kind with
      | none => exact ih _ _
      | some kind =>
        intro x hx hkind
        rcases List.mem_cons.1 hx with rfl | hx
        · exact Piece.not_mem_take_of_identifier (hk.trans (congrArg some hkind))
        · exact ih _ _ x hx hkind

/-- Names are written in the same way if they are the same and both have a sign or none. -/
theorem text_eq_iff {s t : List Char} (hs : '@' ∉ s.tail) (ht : '@' ∉ t.tail) :
    s = t ↔ Data.plainName s = Data.plainName t ∧ (s.head? = some '@' ↔ t.head? = some '@') := by
  have hplain {s : List Char} (hs : '@' ∉ s.tail) :
      Data.plainName s = if s.head? = some '@' then s.tail else s := by
    cases s with
    | nil => rfl
    | cons c cs =>
      have hcs : cs.dropWhile (· == '@') = cs := by
        cases cs with
        | nil => rfl
        | cons d ds => simp [show d ≠ '@' by rintro rfl; simp at hs]
      by_cases hc : c = '@'
      · subst hc
        simp [Data.plainName, hcs]
      · simp [Data.plainName, hc]
  refine ⟨by rintro rfl; exact ⟨rfl, Iff.rfl⟩, fun ⟨hst, hsign⟩ => ?_⟩
  rw [hplain hs, hplain ht] at hst
  by_cases h : s.head? = some '@'
  · have h' := hsign.1 h
    rw [if_pos h, if_pos h'] at hst
    obtain ⟨us, rfl⟩ := List.head?_eq_some_iff.1 h
    obtain ⟨vs, rfl⟩ := List.head?_eq_some_iff.1 h'
    exact congrArg ('@' :: ·) hst
  · rwa [if_neg h, if_neg fun h' => h (hsign.2 h')] at hst

/-- A name has a sign if there is one in the text where the name starts. -/
theorem escapedAt_iff {text : List Char} {x : Token} (hx : x ∈ scan text) (hne : x.text ≠ []) :
    EscapedAt text x.start ↔ x.text.head? = some '@' := by
  obtain ⟨before, after, htext, hstart⟩ := scan_slice text x hx
  obtain ⟨c, cs, hcs⟩ := List.exists_cons_of_ne_nil hne
  constructor
  · rintro ⟨before', after', htext', hstart'⟩
    rw [htext, List.append_assoc] at htext'
    obtain ⟨-, hrest⟩ := append_inj_of_byteLength htext' (hstart.trans hstart'.symm)
    rw [hcs] at hrest ⊢
    rw [(List.cons.inj hrest).1]
    rfl
  · intro hhead
    obtain ⟨us, hus⟩ := List.head?_eq_some_iff.1 hhead
    exact ⟨before, us ++ after, by rw [htext, hus]; simp, hstart⟩

/-! ## Tokens behind attributes and modifiers -/

namespace NodeKind

/-- A constructor is a member of a type. -/
theorem isType_of_allows_constructor {k : NodeKind} {s : Slot}
    (h : k.pattern.allows s (.node .constructorDeclaration)) :
    k.isTypeDeclaration ∧ s = .member := by
  have htype : k.isTypeDeclaration := by
    have honly : k.isTypeDeclaration ∨ k.pattern.onlyNodes (· != .constructorDeclaration) := by
      cases k <;> decide
    refine honly.resolve_right fun ho => ?_
    have hne := Pattern.of_allows_node ho h
    simp at hne
  refine ⟨htype, ?_⟩
  by_contra hs
  have hfills : k.pattern.fills s (· != .node .constructorDeclaration) := by
    cases k <;> first | cases htype; done | (cases s <;> first | exact absurd rfl hs | decide)
  have hne := Pattern.of_allows_fills hfills (by decide) h
  simp at hne

/-- Attributes and modifiers are listed in the data of all declarations in types. -/
theorem mem_slots_of_inHead {k : NodeKind} {s : Slot} (hk : k.isInner) (hs : Pattern.inHead s) :
    (s, true) ∈ k.slots := by
  have hslot : s = .attribute ∨ s = .modifier := by
    simpa [Pattern.inHead, Bool.or_eq_true] using hs
  rcases hslot with rfl | rfl <;> cases k <;> first | cases hk; done | decide

end NodeKind

/-- A list in the data refers to all children in its slot. -/
theorem Data.mem_refsIn_ofChildren {k : NodeKind} {cs : List Child} {s : Slot}
    (h : (s, true) ∈ k.slots) {c : Child} (hc : c ∈ cs) (hs : c.slot = s) :
    c.index ∈ (Data.ofChildren k cs).refsIn s := by
  rw [refsIn, slots_ofChildren, List.filter_flatMap, List.filterMap_flatMap]
  refine List.mem_flatMap.2 ⟨_, h, ?_⟩
  have hall : (Child.filling cs (s, true)).filter (·.1 == s) = Child.filling cs (s, true) :=
    List.filter_eq_self.2 fun r hr => by
      simp only [Child.filling, if_true, List.mem_map] at hr
      obtain ⟨-, -, rfl⟩ := hr
      exact beq_self_eq_true s
  rw [hall]
  exact Child.index_mem_refs_filling hc hs (by simp)

namespace NodeTable

/-- The attributes and modifiers of an entry. -/
def heads (t : NodeTable) (i : Nat) : List Nat :=
  (t.data (some i)).refsIn .attribute ++ (t.data (some i)).refsIn .modifier

/-- The second entry is the first token of the first behind its attributes and modifiers. -/
structure FirstBehindHead (t : NodeTable) (i j : Nat) : Prop where
  token : (t.token? (some j)).isSome
  below : t.Below j i
  behind : ∀ h ∈ t.heads i, h < j
  first : ∀ m, (t.token? (some m)).isSome → t.Below m i → (∀ h ∈ t.heads i, h < m) → j ≤ m

section Heads

variable {root : Tree} {v : Site} {slot : Slot} {k : NodeKind} {span : Span} {head rest : List Tree}
  (hv : v ∈ root.sites none 0) (ht : v.tree = .node slot k span (head ++ rest))

include hv ht

/-- The attributes and modifiers stand before the rest. -/
theorem lt_of_mem_heads (hrest : ∀ t ∈ rest, Pattern.inHead t.slot = false) {h : Nat}
    (hh : h ∈ (ofTree root).heads v.index) : h < v.base + sizes head := by
  obtain ⟨s, hs, hslot⟩ : ∃ s, Pattern.inHead s ∧
      (s, some h) ∈ ((ofTree root).data (some v.index)).slots := by
    rw [heads, List.mem_append] at hh
    rcases hh with hh | hh <;>
    · obtain ⟨⟨s, r⟩, hr, rfl⟩ := List.mem_filterMap.1 hh
      obtain ⟨hr, hs⟩ := List.mem_filter.1 hr
      exact ⟨s, by simp [Pattern.inHead, show s = _ from eq_of_beq hs], hr⟩
  obtain ⟨-, -, -, w, hw, rfl, rfl⟩ := exists_child_of_slots hv hslot
  rw [Site.children, ht, Tree.children, childSites_append, List.mem_append] at hw
  rcases hw with hw | hw
  · obtain ⟨before, after, hhead, -, hbase⟩ := mem_childSites.1 hw
    have hsizes := congrArg sizes hhead
    have hpos := w.tree.size_pos
    rw [sizes_append, sizes] at hsizes
    unfold Site.index
    omega
  · obtain ⟨before, after, rfl, -⟩ := mem_childSites.1 hw
    rw [hrest w.tree (by simp)] at hs
    cases hs

/-- What stands behind the attributes and modifiers stands in the rest. -/
theorem le_of_behind_heads (hk : k.isInner) (hhead : ∀ t ∈ head, Pattern.inHead t.slot) {j : Nat}
    (hj : v.base ≤ j) (h : ∀ h ∈ (ofTree root).heads v.index, h < j) : v.base + sizes head ≤ j := by
  rcases List.eq_nil_or_concat' head with rfl | ⟨init, t, rfl⟩
  · exact hj
  · have hchild : (⟨some v.index, v.base + sizes init, t⟩ : Site) ∈ v.children := by
      rw [Site.children, ht, Tree.children]
      exact mem_childSites.2 ⟨init, rest, by simp, rfl, rfl⟩
    have hin := hhead t (by simp)
    have hrefs : (Site.mk (some v.index) (v.base + sizes init) t).index ∈
        ((ofTree root).data (some v.index)).refsIn t.slot := by
      rw [data_ofTree hv, Site.data_entry ht]
      exact Data.mem_refsIn_ofChildren (NodeKind.mem_slots_of_inHead hk hin)
        (List.mem_map_of_mem hchild) rfl
    have hmem : (Site.mk (some v.index) (v.base + sizes init) t).index ∈
        (ofTree root).heads v.index := by
      have hslot : t.slot = .attribute ∨ t.slot = .modifier := by
        simpa [Pattern.inHead, Bool.or_eq_true] using hin
      rw [heads, List.mem_append]
      exact hslot.imp (fun hs => by rwa [hs] at hrefs) fun hs => by rwa [hs] at hrefs
    have hlt := h _ hmem
    have hpos := t.size_pos
    rw [sizes_append]
    simp only [Site.index, sizes] at *
    omega

omit hv in
/-- The entries of a node are those of its attributes and modifiers, those of the rest and its
own. -/
theorem exists_sites_of_node : ∃ up, v.tree.sites v.parent v.base =
    sitesAll up v.base head ++ (sitesAll up (v.base + sizes head) rest ++ [v]) := by
  have hnode : (⟨v.parent, v.base, .node slot k span (head ++ rest)⟩ : Site) = v := by rw [← ht]
  refine ⟨some (v.base + sizes (head ++ rest)), ?_⟩
  rw [ht, sites, sitesAll_append, hnode, List.append_assoc]

/-- No token of the rest stands before the first. -/
theorem no_token_before (hrest : ∀ t ∈ rest, Pattern.inHead t.slot = false) {up : Ref} {w : Site}
    {before after : List Site} (h : (ofTree root).FirstBehindHead v.index w.index)
    (hsites : v.tree.sites v.parent v.base =
      sitesAll up v.base head ++ (sitesAll up (v.base + sizes head) rest ++ [v]))
    (hsplit : sitesAll up (v.base + sizes head) rest = before ++ w :: after) :
    before.filterMap Site.token? = [] := by
  refine List.filterMap_eq_nil_iff.2 fun m hm => Option.not_isSome_iff_eq_none.1 fun hy => ?_
  obtain ⟨-, hhigh⟩ := (below_iff hv w.index).1 h.below
  have hpairs := v.tree.pairwise_sites v.parent v.base
  rw [hsites, hsplit, List.pairwise_append, List.pairwise_append, List.pairwise_append] at hpairs
  have hlt := hpairs.2.1.1.2.2 m hm w (by simp)
  have hmem : m ∈ v.tree.sites v.parent v.base := by
    rw [hsites, hsplit]
    simp [hm]
  have hindex := index_mem_sitesAll (hsplit ▸ List.mem_append_left _ hm)
  have hle := h.first m.index (by rw [token?_ofTree (sites_subset hv m hmem)]; simpa using hy)
    ((below_iff hv _).2 ⟨by omega, by omega⟩)
    fun i hi => Nat.lt_of_lt_of_le (lt_of_mem_heads hv ht hrest hi) hindex.1
  omega

/-- The first token behind the attributes and modifiers is the first of the rest. -/
theorem exists_rest (hk : k.isInner) (hhead : ∀ t ∈ head, Pattern.inHead t.slot)
    (hrest : ∀ t ∈ rest, Pattern.inHead t.slot = false) {j : Nat}
    (h : (ofTree root).FirstBehindHead v.index j) : ∃ before w after x,
      v.tree.sites v.parent v.base = before ++ w :: after ∧ w.index = j ∧ w.token? = some x ∧
        tokensAll rest = x :: after.filterMap Site.token? := by
  obtain ⟨hlow, hhigh⟩ := (below_iff hv j).1 h.below
  have hbase := le_of_behind_heads hv ht hk hhead hlow h.behind
  have hpos := v.tree.size_pos
  obtain ⟨w, hw, rfl⟩ : ∃ w ∈ v.tree.sites v.parent v.base, w.index = j :=
    exists_site hlow (by unfold Site.index at hhigh; omega)
  obtain ⟨x, hx⟩ : ∃ x, w.token? = some x := by
    have htoken := h.token
    rw [token?_ofTree (sites_subset hv w hw)] at htoken
    exact Option.isSome_iff_exists.1 (by simpa using htoken)
  have hleaf : v.token? = none := by simp [Site.token?, ht]
  obtain ⟨up, hsites⟩ := exists_sites_of_node ht
  have hmem : w ∈ sitesAll up (v.base + sizes head) rest := by
    rw [hsites, List.mem_append, List.mem_append, List.mem_singleton] at hw
    rcases hw with hw | hw | rfl
    · have hindex := index_mem_sitesAll hw
      omega
    · exact hw
    · rw [hleaf] at hx
      cases hx
  obtain ⟨before, after, hsplit⟩ := List.append_of_mem hmem
  have hnone := no_token_before hv ht hrest h hsites hsplit
  refine ⟨sitesAll up v.base head ++ before, w, after ++ [v], x, ?_, rfl, hx, ?_⟩
  · rw [hsites, hsplit]
    simp
  · rw [← filterMap_token_sitesAll up (v.base + sizes head) rest, hsplit, List.filterMap_append,
      hnone, List.nil_append, List.filterMap_cons, hx, List.filterMap_append,
      List.filterMap_cons, hleaf]
    exact congrArg (x :: ·) (List.append_nil _).symm

end Heads

/-! ## The token behind a token -/

theorem FirstTokenBehind.unique {t : NodeTable} {i j j' : Nat} (h : t.FirstTokenBehind i j)
    (h' : t.FirstTokenBehind i j') : j = j' := by
  rcases Nat.lt_trichotomy j j' with hlt | heq | hlt
  · have hsome := h.2.1
    rw [h'.2.2 j h.1 hlt] at hsome
    cases hsome
  · exact heq
  · have hsome := h'.2.1
    rw [h.2.2 j' h'.1 hlt] at hsome
    cases hsome

/-- The first token behind an entry is of the kind that the leaves behind it begin with. -/
theorem token?_of_firstTokenBehind {root : Tree} {u : Site} {before after : List Site} {j : Nat}
    (hsites : root.sites none 0 = before ++ u :: after)
    (h : (ofTree root).FirstTokenBehind u.index j) :
    (ofTree root).token? (some j) = some (kindAfter (after.filterMap Site.token?) .endOfFile) := by
  cases hx : after.filterMap Site.token? with
  | cons x xs =>
    obtain ⟨j', hj', htoken⟩ := firstTokenBehind_of_leaves hsites hx
    rw [h.unique hj', htoken]
    rfl
  | nil =>
    obtain ⟨k, hk⟩ := Option.isSome_iff_exists.1 h.2.1
    obtain ⟨z, hz, rfl, hkind⟩ := exists_site_of_kind (k := .token k) (by
      cases hj : (ofTree root).kind? (some j) with
      | none => simp [token?, hj] at hk
      | some kind => cases kind <;> simp_all [token?, Kind.token?])
    have hpairs := root.pairwise_sites none 0
    rw [hsites, List.pairwise_append, List.pairwise_cons] at hpairs
    have hlt := h.1
    rw [hsites, List.mem_append, List.mem_cons] at hz
    rcases hz with hz | rfl | hz
    · have := hpairs.2.2 z hz u (by simp)
      omega
    · omega
    · have hnone := List.filterMap_eq_nil_iff.1 hx z hz
      unfold Site.token? at hnone
      cases htree : z.tree <;> simp_all [Tree.kind]

/-! ## Names in tables -/

section Names

variable {root : Tree} {u : Site} {slot s : Slot} {k : NodeKind} {span : Span} {ts : List Tree}
  {x : Token}

/-- The name of a node is the first of its children in the slot for it. -/
theorem exists_nameSite (hu : u ∈ root.sites none 0)
    (hf : u.tree.children.find? (·.slot == .name) = some (.leaf s x)) : ∃ w ∈ root.sites none 0,
      w.token? = some x ∧ Child.inSlot (u.children.map Site.asChild) .name = some w.index := by
  rw [Site.find?_children, Option.map_eq_some_iff] at hf
  obtain ⟨w, hw, ht⟩ := hf
  refine ⟨w, Site.mem_sites_of_mem_children hu (List.mem_of_find?_eq_some hw), ?_, ?_⟩
  · rw [Site.token?, ht]
  · rw [Site.inSlot_children, hw]
    rfl

/-- The data of a type are read off its children. -/
theorem type?_ofTree (hu : u ∈ root.sites none 0) (ht : u.tree = .node slot k span ts)
    (hk : k.isTypeDeclaration) : ∃ parts, (ofTree root).type? (some u.index) = some parts ∧
      parts.name = Child.inSlot (u.children.map Site.asChild) .name ∧
      parts.members = Child.listIn (u.children.map Site.asChild) .member := by
  have hdata := data_ofTree hu
  rw [Site.data_entry ht] at hdata
  cases k <;> first
    | cases hk; done
    | exact ⟨_, by rw [type?, hdata]; rfl, rfl, rfl⟩

theorem exists_typeSite {c : Nat} {parts : TypeParts}
    (h : (ofTree root).type? (some c) = some parts) : ∃ u ∈ root.sites none 0, u.index = c ∧
      ∃ slot k span ts, u.tree = .node slot k span ts ∧ k.isTypeDeclaration := by
  have hdata : (ofTree root).data (some c) = .type parts := by
    unfold type? at h
    split at h <;> simp_all
  have hc : c < (ofTree root).size := by
    by_contra hsize
    rw [data_eq_none (Nat.le_of_not_lt hsize)] at hdata
    cases hdata
  obtain ⟨u, hu, rfl⟩ := exists_site_of_lt hc
  refine ⟨u, hu, rfl, ?_⟩
  rw [data_ofTree hu] at hdata
  cases ht : u.tree with
  | leaf slot x =>
    rw [Site.entry, ht] at hdata
    simp only [Tree.leafEntry] at hdata
    split at hdata <;> cases hdata
  | node slot k span ts =>
    refine ⟨slot, k, span, ts, rfl, ?_⟩
    have hshape := Data.shape?_ofChildren k (u.children.map Site.asChild)
    rw [← Site.data_entry ht, hdata] at hshape
    cases k <;> first | rfl | cases hshape

/-- The name of a type is an identifier. -/
theorem kind_of_name {t : Tree} (hk : k.isTypeDeclaration) (hcovers : k.pattern.Covers ts)
    (hf : ts.find? (·.slot == .name) = some t) : t.kind = .token .identifier := by
  have hfills : k.pattern.fills .name (· == .token .identifier) := by
    cases k <;> first | cases hk; done | decide
  have hslot : t.slot = .name := by simpa using List.find?_some hf
  have hallows := hcovers.allows t (List.mem_of_find?_eq_some hf)
  rw [hslot] at hallows
  have hkind := Pattern.of_allows_fills (p := (· == .token .identifier)) hfills t.kind_mem hallows
  exact eq_of_beq hkind

end Names

/-! ## Constructors in tables -/

/-- The constructors of a table are the members that have the names of their types. -/
structure ConstructorsByName (text : List Char) (t : NodeTable) : Prop where
  /-- Behind its attributes and modifiers a member of a type has a name and a parenthesis: it is a
  constructor if the name is that of the type and both have a sign before them or none. -/
  recognized : ∀ c parts n m i j, t.type? (some c) = some parts → parts.name = some n →
    some m ∈ parts.members → t.FirstBehindHead m i → t.token? (some i) = some .identifier →
    t.FirstTokenBehind i j → t.token? (some j) = some .openParen →
      (t.node? (some m) = some .constructorDeclaration ↔
        t.name? (some i) = t.declaredName? (some c) ∧
          (EscapedAt text (t.start i) ↔ EscapedAt text (t.start n)))
  /-- A constructor is a member of a type that has its name. -/
  named : ∀ m, t.node? (some m) = some .constructorDeclaration → ∃ c parts name,
    t.parent (some m) = some c ∧ t.type? (some c) = some parts ∧ some m ∈ parts.members ∧
      t.declaredName? (some m) = some name ∧ t.declaredName? (some c) = some name

section Constructors

variable {root : Tree} (hw : root.WellFormed)
  (hnamed : Throughout ConstructorsNamed .endOfFile root)

include hw hnamed

/-- What is known of a member of a type, with the token behind it. -/
theorem exists_member_tokens {u v : Site} {slot : Slot} {k : NodeKind} {span : Span}
    {ts : List Tree} (hu : u ∈ root.sites none 0) (ht : u.tree = .node slot k span ts)
    (hk : k.isTypeDeclaration) (hv : v ∈ u.children) (hs : v.tree.slot = .member) :
    ∃ l vspan head rest before after,
      v.tree = .node .member l vspan (head ++ rest) ∧ l.isInner ∧
      (∀ t ∈ head, Pattern.inHead t.slot) ∧ (∀ t ∈ rest, Pattern.inHead t.slot = false) ∧
      root.sites none 0 = before ++ (v.tree.sites v.parent v.base ++ after) ∧
      NamedAfter (writtenName ts) l rest (kindAfter (after.filterMap Site.token?) .endOfFile) := by
  have hwell := hw.of_mem_sites hu
  obtain ⟨xs, ys, hroot, hR⟩ := hnamed.at_subtree hu ht
  obtain ⟨slot', k', span', before, after, ht', hp, hb⟩ := Site.mem_children.1 hv
  obtain ⟨left, right, hsites, -, hright⟩ := exists_sites_of_child ht' hp hb
  rw [ht] at ht' hwell
  cases ht'
  cases hwell with
  | node covers _ =>
    have hfills : k.pattern.fills .member (Kind.isNode NodeKind.isInner) := by
      cases k <;> first | cases hk; done | decide
    have hallows := covers.allows v.tree (by simp)
    rw [hs] at hallows
    obtain ⟨l, hl, hinner⟩ := Kind.isNode_iff.1
      (Pattern.of_allows_fills hfills (Tree.kind_mem _) hallows)
    obtain ⟨vslot, vspan, us, hvt⟩ := eq_node_of_kind hl
    rw [hvt, Tree.slot] at hs
    subst hs
    obtain ⟨head, rest, rfl, hhead, hrest, hna⟩ := hR hk before v.tree after rfl l vspan us hvt
    refine ⟨l, vspan, head, rest, xs ++ left, right ++ ys, hvt, hinner, hhead, hrest, ?_, ?_⟩
    · rw [hroot, hsites]
      simp
    · rw [List.filterMap_append, hright, kindAfter_append]
      exact hna

omit hnamed in
/-- What a type refers to as its name is a token. -/
theorem exists_nameToken {u : Site} {slot : Slot} {k : NodeKind} {span : Span} {ts : List Tree}
    {n : Nat} (hu : u ∈ root.sites none 0) (ht : u.tree = .node slot k span ts)
    (hk : k.isTypeDeclaration) (hn : Child.inSlot (u.children.map Site.asChild) .name = some n) :
    ∃ s y, ts.find? (·.slot == .name) = some (.leaf s y) := by
  have hwell := hw.of_mem_sites hu
  rw [Site.inSlot_children, Option.map_eq_some_iff] at hn
  obtain ⟨w, hfind, -⟩ := hn
  have hf : u.tree.children.find? (·.slot == .name) = some w.tree := by
    rw [Site.find?_children, hfind]
    rfl
  rw [ht] at hwell hf
  cases hwell with
  | node covers _ =>
    have hkind := kind_of_name hk covers hf
    cases hwt : w.tree with
    | leaf s y => exact ⟨s, y, by rw [← hwt]; exact hf⟩
    | node => simp [hwt, Tree.kind] at hkind

omit hnamed in
/-- The name of a type in its table. -/
theorem exists_name_of_type {u : Site} {slot s : Slot} {k : NodeKind} {span : Span} {ts : List Tree}
    {y : Token} (hu : u ∈ root.sites none 0) (ht : u.tree = .node slot k span ts)
    (hk : k.isTypeDeclaration) (hf : ts.find? (·.slot == .name) = some (.leaf s y)) :
    ∃ parts, ∃ w ∈ root.sites none 0, (ofTree root).type? (some u.index) = some parts ∧
      parts.name = some w.index ∧ w.token? = some y ∧ y.kind = .identifier ∧
      (ofTree root).declaredName? (some u.index) = some (Data.plainName y.text) := by
  have hwell := hw.of_mem_sites hu
  have hfind : u.tree.children.find? (·.slot == .name) = some (.leaf s y) := by rw [ht]; exact hf
  obtain ⟨w, hwmem, hy, hin⟩ := exists_nameSite hu hfind
  obtain ⟨parts, hparts, hname, -⟩ := type?_ofTree hu ht hk
  rw [ht] at hwell
  cases hwell with
  | node covers _ =>
    have hykind : y.kind = .identifier := Kind.token.inj (kind_of_name hk covers hf)
    refine ⟨parts, w, hwmem, hparts, hname.trans hin, hy, hykind, ?_⟩
    have hdata : (ofTree root).data (some u.index) = .type parts := by
      unfold type? at hparts
      split at hparts <;> simp_all
    rw [declaredName?, hdata]
    change (ofTree root).name? parts.name = _
    rw [hname, hin]
    exact name?_ofTree hwmem hy hykind

omit hw hnamed in
/-- The name of a constructor in its table is what stands behind its modifiers. -/
theorem declaredName?_of_constructor {v : Site} {slot : Slot} {span : Span}
    {head later : List Tree} {x : Token} (hv : v ∈ root.sites none 0)
    (ht : v.tree = .node slot .constructorDeclaration span (head ++ .leaf .name x :: later))
    (hhead : ∀ t ∈ head, Pattern.inHead t.slot) (hx : x.kind = .identifier) :
    (ofTree root).declaredName? (some v.index) = some (Data.plainName x.text) := by
  have hnone : head.find? (·.slot == .name) = none := by
    refine List.find?_eq_none.2 fun t ht hname => ?_
    have hin := hhead t ht
    rw [eq_of_beq hname] at hin
    cases hin
  have hfind : v.tree.children.find? (·.slot == .name) = some (.leaf .name x) := by
    rw [ht, Tree.children, List.find?_append, hnone]
    rfl
  obtain ⟨w, hwmem, hxw, hin⟩ := exists_nameSite hv hfind
  rw [declaredName?, data_ofTree hv, Site.data_entry ht]
  change (ofTree root).name? (Child.inSlot _ .name) = _
  rw [hin]
  exact name?_ofTree hwmem hxw hx

theorem exists_names {c n m i j : Nat} {parts : TypeParts}
    (hparts : (ofTree root).type? (some c) = some parts) (hn : parts.name = some n)
    (hm : some m ∈ parts.members) (hi : (ofTree root).FirstBehindHead m i)
    (hkind : (ofTree root).token? (some i) = some .identifier)
    (hj : (ofTree root).FirstTokenBehind i j)
    (hparen : (ofTree root).token? (some j) = some .openParen) :
    ∃ w ∈ root.sites none 0, ∃ w' ∈ root.sites none 0, ∃ x y, w.index = i ∧ w'.index = n ∧
      w.token? = some x ∧ w'.token? = some y ∧ x.kind = .identifier ∧ y.kind = .identifier ∧
      (ofTree root).declaredName? (some c) = some (Data.plainName y.text) ∧
      ((ofTree root).node? (some m) = some .constructorDeclaration ↔ x.text = y.text) := by
  obtain ⟨u, hu, rfl, slot, k, span, ts, ht, hk⟩ := exists_typeSite hparts
  obtain ⟨parts', hparts', hname, hmembers⟩ := type?_ofTree hu ht hk
  rw [hparts, Option.some.injEq] at hparts'
  subst hparts'
  -- the name of the type
  obtain ⟨s, y, hf⟩ := exists_nameToken hw hu ht hk (hname.symm.trans hn)
  obtain ⟨parts', w', hw', hparts', hn', hy, hykind, hdeclared⟩ :=
    exists_name_of_type hw hu ht hk hf
  rw [hparts, Option.some.injEq] at hparts'
  subst hparts'
  rw [hn, Option.some.injEq] at hn'
  -- the member
  obtain ⟨v, hv, hs, rfl⟩ : ∃ v ∈ u.children, v.tree.slot = .member ∧ v.index = m := by
    rw [hmembers, Child.listIn, List.filter_map, List.map_map] at hm
    obtain ⟨v, hv, hindex⟩ := List.mem_map.1 hm
    obtain ⟨hv, hs⟩ := List.mem_filter.1 hv
    exact ⟨v, hv, eq_of_beq hs, Option.some.inj hindex⟩
  obtain ⟨l, vspan, head, rest, before, after, hvt, hinner, hhead, hrest, hsites, hna⟩ :=
    exists_member_tokens hw hnamed hu ht hk hv hs
  have hvmem := Site.mem_sites_of_mem_children hu hv
  obtain ⟨xs, w, ys, x, hvsites, rfl, hx, htokens⟩ := exists_rest hvmem hvt hinner hhead hrest hi
  have hwmem : w ∈ root.sites none 0 := sites_subset hvmem w (by simp [hvsites])
  have hxkind : x.kind = .identifier := by
    rw [token?_ofTree hwmem, hx] at hkind
    exact Option.some.inj hkind
  have hnext : kindAfter (ys.filterMap Site.token?)
      (kindAfter (after.filterMap Site.token?) .endOfFile) = .openParen := by
    have hroot : root.sites none 0 = (before ++ xs) ++ w :: (ys ++ after) := by
      rw [hsites, hvsites]
      simp
    rw [token?_of_firstTokenBehind hroot hj, List.filterMap_append, kindAfter_append] at hparen
    exact Option.some.inj hparen
  refine ⟨w, hwmem, w', hw', x, y, rfl, hn'.symm, hx, hy, hxkind, hykind, hdeclared, ?_⟩
  have hiff := hna.recognized x _ htokens hxkind hnext
  have hnode : (ofTree root).node? (some v.index) = some l := by
    rw [node?_ofTree hvmem, hvt]
    rfl
  have hwritten : writtenName ts = some y.text := by rw [writtenName, hf]
  rw [hnode, Option.some.injEq, hiff, hwritten, Option.some.injEq, eq_comm]

/-- A constructor has the name of the type that it is a member of. -/
theorem exists_named (hroot : root.kind = .node .compilationUnit) {m : Nat}
    (hm : (ofTree root).node? (some m) = some .constructorDeclaration) : ∃ c parts name,
      (ofTree root).parent (some m) = some c ∧ (ofTree root).type? (some c) = some parts ∧
        some m ∈ parts.members ∧ (ofTree root).declaredName? (some m) = some name ∧
        (ofTree root).declaredName? (some c) = some name := by
  obtain ⟨v, hvmem, rfl, hkind⟩ := exists_site_of_node hm
  obtain ⟨u, hu, hchild⟩ : ∃ u ∈ root.sites none 0, ChildOf v u := by
    rcases exists_childOf hvmem with rfl | h
    · rw [hroot] at hkind
      cases hkind
    · exact h
  have hv := Site.mem_children.2 hchild
  obtain ⟨slot, k, span, before, after, ht, -⟩ := hchild
  have hwell := hw.of_mem_sites hu
  rw [ht] at hwell
  cases hwell with
  | node covers _ =>
    have hallows := covers.allows v.tree (by simp)
    rw [hkind] at hallows
    obtain ⟨hk, hs⟩ := NodeKind.isType_of_allows_constructor hallows
    obtain ⟨l, vspan, head, rest, _, _, hvt, -, hhead, -, -, hna⟩ :=
      exists_member_tokens hw hnamed hu ht hk hv hs
    rw [hvt] at hkind
    obtain rfl : l = .constructorDeclaration := Kind.node.inj hkind
    obtain ⟨x, later, rfl, hx, hwritten⟩ := hna.named rfl
    obtain ⟨s, y, hf, htext⟩ : ∃ s y, (before ++ v.tree :: after).find? (·.slot == .name) =
        some (.leaf s y) ∧ y.text = x.text := by
      unfold writtenName at hwritten
      split at hwritten
      · rename_i s y hf
        exact ⟨s, y, hf, Option.some.inj hwritten⟩
      · cases hwritten
    obtain ⟨parts, -, -, hparts, -, -, -, hdeclared⟩ := exists_name_of_type hw hu ht hk hf
    obtain ⟨parts', hparts', -, hmembers⟩ := type?_ofTree hu ht hk
    rw [hparts, Option.some.injEq] at hparts'
    subst hparts'
    refine ⟨u.index, parts, _, parent_of_mem_children hu hv, hparts, ?_, ?_, htext ▸ hdeclared⟩
    · rw [hmembers, Child.listIn]
      exact List.mem_map.2 ⟨v.asChild, List.mem_filter.2 ⟨List.mem_map_of_mem hv, by
        simp [Site.asChild, hs]⟩, rfl⟩
    · exact declaredName?_of_constructor hvmem hvt hhead hx

end Constructors

/-- In the table of a text the constructors are the members with the names of their types. A name
with a sign before it and the same name without one are different here, though they are the same
name to all who look it up. -/
theorem ofText_constructors (text : List Char) : ConstructorsByName text (ofText text) := by
  have hw := SourceFile.root_wellFormed text
  have hnamed := SourceFile.root_constructorsNamed text
  have htokens := SourceFile.root_tokens text
  have hkind : (SourceFile.ofText text).root.kind = .node .compilationUnit := rfl
  rw [ofText_eq]
  generalize (SourceFile.ofText text).root = root at *
  constructor
  case named => exact fun m hm => exists_named hw hnamed hkind hm
  case recognized =>
    intro c parts n m i j hparts hn hm hi hidentifier hj hparen
    obtain ⟨w, hwmem, w', hwmem', x, y, rfl, rfl, hx, hy, hxkind, hykind, hdeclared, hiff⟩ :=
      exists_names hw hnamed hparts hn hm hi hidentifier hj hparen
    have hscan {w : Site} {x : Token} (hwmem : w ∈ root.sites none 0) (hx : w.token? = some x) :
        x ∈ scan text := by
      rw [← htokens, ← filterMap_token_sites none 0 root]
      exact List.mem_filterMap.2 ⟨w, hwmem, hx⟩
    have hstart {w : Site} {x : Token} (hwmem : w ∈ root.sites none 0) (hx : w.token? = some x) :
        (ofTree root).start w.index = x.start := by
      rw [start_ofTree hwmem, ← Site.span_entry, Site.entry_of_token hx]
      rfl
    have hne {x : Token} (hx : x ∈ scan text) (hk : x.kind = .identifier) : x.text ≠ [] := by
      intro hnil
      have := scan_start_lt_stop text x hx (by rw [hk]; decide)
      simp [Token.stop, hnil] at this
    have hxs := hscan hwmem hx
    have hys := hscan hwmem' hy
    rw [hiff, text_eq_iff (scanFrom_identifier _ _ _ x hxs hxkind)
      (scanFrom_identifier _ _ _ y hys hykind), name?_ofTree hwmem hx hxkind, hdeclared,
      Option.some.injEq, hstart hwmem hx, hstart hwmem' hy, escapedAt_iff hxs (hne hxs hxkind),
      escapedAt_iff hys (hne hys hykind)]

/-- A class whose constructor has a sign before its name. -/
def escapedText : List Char := "class C\x7b@C()\x7b\x7d\x7d".toList

/-- The member has the name of its class and a parenthesis behind it, and it breaks off. -/
theorem escapedText_incomplete :
    (ofText escapedText).type? (some 10) = some ⟨none, none, some 1, none, [some 5]⟩ ∧
    (ofText escapedText).FirstBehindHead 5 3 ∧
    (ofText escapedText).token? (some 3) = some .identifier ∧
    (ofText escapedText).FirstTokenBehind 3 6 ∧
    (ofText escapedText).token? (some 6) = some .openParen ∧
    (ofText escapedText).name? (some 3) = (ofText escapedText).declaredName? (some 10) ∧
    (ofText escapedText).node? (some 5) = some .incompleteMember := by
  have htype : (ofText escapedText).HasParent 3 4 := by unfold HasParent; decide +kernel
  have hmember : (ofText escapedText).HasParent 4 5 := by unfold HasParent; decide +kernel
  have hothers : ∀ m < 3, (ofText escapedText).HasParent m 10 := by unfold HasParent; decide +kernel
  have hheads : (ofText escapedText).heads 5 = [] := by decide +kernel
  refine ⟨by decide +kernel, ⟨by decide +kernel, .head htype (.single hmember), by simp [hheads],
    fun m _ hbelow _ => ?_⟩, by decide +kernel, ⟨by decide, by decide +kernel, fun m hm hm' => ?_⟩,
    by decide +kernel, by decide +kernel, by decide +kernel⟩
  · -- the tokens before the name stand right in the class
    by_contra hm
    have hm : m < 3 := Nat.lt_of_not_le hm
    rcases Relation.ReflTransGen.cases_head hbelow with rfl | ⟨c, hc, hbelow⟩
    · omega
    · obtain rfl : 10 = c := Option.some.inj ((hothers m hm).symm.trans hc)
      rw [ofText_eq] at hbelow
      have := le_of_below hbelow
      omega
  · obtain rfl | rfl : m = 4 ∨ m = 5 := by omega
    · decide +kernel
    · decide +kernel

end NodeTable

end Caret
