import Caret.Proofs.DeclarationPatterns
import Caret.Proofs.ArenaOfText
import Mathlib.Data.List.Nodup
/-!
# Data and parents

Parents are set when a node adopts its entries, and data are made of what the builders of its parts
returned. The two agree: the data of an entry refer to children of the entry that fit their slots,
and to every child that is no token exactly once (`ofText_dataAgree`). For what a builder puts into
the data is what `Data.ofChildren` reads off the children (`NodeTable.ofText_eq`), and which slots
those fill is told by the grammar.
-/

namespace Caret

/-! ## What data refer to -/

/-- The references in a list that may be absent, each with the slot. -/
def listed (s : Slot) (refs : Option (List Ref)) : List (Slot × Ref) := (refs.getD []).map (s, ·)

/-- The references in data, each with the slot that it is for. -/
def Data.slots : Data → List (Slot × Ref)
  | .none | .name _ => []
  | .list items => listed .item items
  | .space p => (.name, p.name) :: listed .member p.members
  | .type p => listed .attribute p.attributes ++ listed .modifier p.modifiers ++
      [(.name, p.name), (.bases, p.bases)] ++ listed .member p.members
  | .method p => listed .attribute p.attributes ++ listed .modifier p.modifiers ++
      [(.type, p.type), (.name, p.name), (.parameters, p.parameters), (.body, p.body)]
  | .constructor p => listed .attribute p.attributes ++ listed .modifier p.modifiers ++
      [(.name, p.name), (.parameters, p.parameters), (.initializer, p.initializer), (.body, p.body)]
  | .initializer p => [(.colon, p.colon), (.keyword, p.keyword), (.arguments, p.arguments)]
  | .variableList p => listed .attribute p.attributes ++ listed .modifier p.modifiers ++
      [(.type, p.type)] ++ listed .declarator p.declarators
  | .declarator p => [(.name, p.name), (.initializer, p.initializer)]
  | .property p => listed .attribute p.attributes ++ listed .modifier p.modifiers ++
      [(.type, p.type), (.name, p.name)] ++ listed .accessor p.accessors ++
      [(.body, p.body), (.initializer, p.initializer)]
  | .accessor p => listed .modifier p.modifiers ++ [(.keyword, p.keyword), (.body, p.body)]
  | .parameter p => listed .attribute p.attributes ++ listed .modifier p.modifiers ++
      [(.type, p.type), (.name, p.name), (.initializer, p.initializer)]
  | .typeReference p => [(.name, p.name)]
  | .operation p => [(.left, p.left), (.operator, p.operator), (.right, p.right)]
  | .call p => [(.expression, p.expression), (.arguments, p.arguments)]
  | .wrapped expression => [(.expression, expression)]

/-- The entries that data refer to. -/
def Data.refs (d : Data) : List Nat := d.slots.filterMap (·.2)

/-- The entries that data refer to in one slot. -/
def Data.refsIn (d : Data) (s : Slot) : List Nat :=
  (d.slots.filter (·.1 == s)).filterMap (·.2)

/-- The kind of entry fits the slot of a node of some kind. -/
def NodeKind.fits (owner : NodeKind) (k : Kind) : Slot → Bool
  | .loose => false
  | .attribute => k == .node .attributeList
  | .modifier =>
    if owner == .parameter then k.isToken TokenKind.isParameterModifier
    else k.isToken TokenKind.isModifier
  | .name => owner == .typeReference && k.isToken TokenKind.isPredefinedType ||
      k == .token .identifier
  | .type => k == .node .typeReference
  | .bases => k == .node .baseList
  | .member => k.isNode (if owner == .namespaceDeclaration then isOuter else isInner)
  | .item =>
    match owner with
    | .compilationUnit => k.isNode isOuter
    | .baseList => k == .node .typeReference
    | .parameterList => k == .node .parameter
    | .attributeList => k == .node .attribute
    | .argumentList => k.isNode isExpression
    | .block => k.isNode isStatement
    | _ => false
  | .parameters => k == .node .parameterList
  | .initializer =>
    if owner == .constructorDeclaration then k == .node .constructorInitializer
    else k.isNode isExpression
  | .body => owner != .propertyDeclaration && k == .node .block ||
      k == .node .arrowExpressionClause
  | .colon => k == .token .colon
  | .keyword =>
    if owner == .constructorInitializer then k.isToken TokenKind.isConstructorTarget
    else k.isToken Grammar.isAccessorKeyword
  | .arguments => k == .node .argumentList
  | .declarator => k == .node .variableDeclarator
  | .accessor => k == .node .accessorDeclaration
  | .left => k.isNode isExpression
  | .operator =>
    match owner with
    | .memberAccessExpression => k == .token .dot
    | .binaryExpression => k.isToken (·.precedence?.isSome)
    | .assignmentExpression => k.isToken TokenKind.isAssignment
    | .prefixUnaryExpression => k.isToken TokenKind.isSign
    | _ => false
  | .right =>
    if owner == .memberAccessExpression then k == .node .identifierName else k.isNode isExpression
  | .expression =>
    match owner with
    | .attribute => k == .token .identifier
    | .objectCreationExpression => k == .node .typeReference
    | _ => k.isNode isExpression

/-! ## The slots of each kind -/

/-- The slots that the data of a kind of node have; `true` stands for those that hold lists. -/
def NodeKind.slots (k : NodeKind) : List (Slot × Bool) :=
  match k.shape? with
  | some .list => [(.item, true)]
  | some .space => [(.name, false), (.member, true)]
  | some .type => [(.attribute, true), (.modifier, true), (.name, false), (.bases, false),
      (.member, true)]
  | some .method => [(.attribute, true), (.modifier, true), (.type, false), (.name, false),
      (.parameters, false), (.body, false)]
  | some .constructor => [(.attribute, true), (.modifier, true), (.name, false),
      (.parameters, false), (.initializer, false), (.body, false)]
  | some .initializer => [(.colon, false), (.keyword, false), (.arguments, false)]
  | some .variableList => [(.attribute, true), (.modifier, true), (.type, false),
      (.declarator, true)]
  | some .declarator => [(.name, false), (.initializer, false)]
  | some .property => [(.attribute, true), (.modifier, true), (.type, false), (.name, false),
      (.accessor, true), (.body, false), (.initializer, false)]
  | some .accessor => [(.modifier, true), (.keyword, false), (.body, false)]
  | some .parameter => [(.attribute, true), (.modifier, true), (.type, false), (.name, false),
      (.initializer, false)]
  | some .typeReference => [(.name, false)]
  | some .operation => [(.left, false), (.operator, false), (.right, false)]
  | some .call => [(.expression, false), (.arguments, false)]
  | some .wrapped => [(.expression, false)]
  | some .name | none => []

namespace Child

/-- The children in a slot that holds at most one tree, or a list. -/
def filling (cs : List Child) (slot : Slot × Bool) : List (Slot × Ref) :=
  if slot.2 then (listIn cs slot.1).map (slot.1, ·) else [(slot.1, inSlot cs slot.1)]

theorem listed_someIn (cs : List Child) (s : Slot) : listed s (someIn cs s) = filling cs (s, true) := by
  unfold listed someIn filling
  cases h : listIn cs s <;> simp

/-- The children that fill a slot, by their numbers. -/
theorem refs_filling (cs : List Child) (slot : Slot × Bool) :
    (filling cs slot).filterMap (·.2) =
      if slot.2 then (cs.filter (·.slot == slot.1)).map (·.index)
      else (inSlot cs slot.1).toList := by
  unfold filling listIn
  split
  · simp
  · cases inSlot cs slot.1 <;> rfl

theorem mem_filling {cs : List Child} {slot : Slot × Bool} {s : Slot} {j : Nat}
    (h : (s, some j) ∈ filling cs slot) : s = slot.1 ∧ ∃ c ∈ cs, c.slot = s ∧ c.index = j := by
  unfold filling listIn inSlot at h
  split at h
  · simp only [List.map_map, List.mem_map, List.mem_filter, Function.comp, Prod.mk.injEq,
      Option.some.injEq, beq_iff_eq] at h
    obtain ⟨c, ⟨hc, hs⟩, rfl, rfl⟩ := h
    exact ⟨rfl, c, hc, hs, rfl⟩
  · rw [List.mem_singleton, Prod.mk.injEq] at h
    obtain ⟨rfl, h⟩ := h
    obtain ⟨c, hc, rfl⟩ := Option.map_eq_some_iff.1 h.symm
    exact ⟨rfl, c, List.mem_of_find?_eq_some hc, by simpa using List.find?_some hc, rfl⟩

/-- A child in a slot is among those that fill it. -/
theorem index_mem_refs_filling {cs : List Child} {slot : Slot × Bool} {c : Child} (hc : c ∈ cs)
    (hs : c.slot = slot.1)
    (ho : slot.2 = false → (cs.filter (·.slot == slot.1)).length ≤ 1) :
    c.index ∈ (filling cs slot).filterMap (·.2) := by
  have hmem : c ∈ cs.filter (·.slot == slot.1) := List.mem_filter.2 ⟨hc, by simp [hs]⟩
  rw [refs_filling]
  split
  · exact List.mem_map_of_mem hmem
  · rename_i hf
    have hle := ho (by simpa using hf)
    obtain ⟨d, hd⟩ : ∃ d, cs.filter (·.slot == slot.1) = [d] := by
      rw [← List.length_eq_one_iff]
      have := List.length_pos_of_mem hmem
      omega
    rw [hd, List.mem_singleton] at hmem
    rw [inSlot, ← List.head?_filter, hd, hmem]
    simp

/-- Children in some order are listed in that order. -/
theorem pairwise_refs_filling {R : Nat → Nat → Prop} {cs : List Child}
    (h : cs.Pairwise fun c d => R c.index d.index) (slot : Slot × Bool) :
    ((filling cs slot).filterMap (·.2)).Pairwise R := by
  rw [refs_filling]
  split
  · exact List.pairwise_map.2 (h.filter _)
  · cases inSlot cs slot.1 <;> simp

end Child

open Child in
/-- The data of a node refer to what fills its slots. -/
theorem Data.slots_ofChildren (k : NodeKind) (cs : List Child) :
    (Data.ofChildren k cs).slots = k.slots.flatMap (filling cs) := by
  cases k <;> simp [Data.ofChildren, NodeKind.slots, NodeKind.shape?, Data.slots, listed_someIn,
    List.flatMap_cons] <;> rfl

open Child in
theorem Data.refs_ofChildren (k : NodeKind) (cs : List Child) :
    (Data.ofChildren k cs).refs = k.slots.flatMap fun slot => (filling cs slot).filterMap (·.2) := by
  rw [Data.refs, Data.slots_ofChildren, List.filterMap_flatMap]

theorem NodeKind.slots_nodup (k : NodeKind) : (k.slots.map (·.1)).Nodup := by
  cases k <;> decide


namespace Kind

theorem isToken_beq (t : TokenKind) (k : Kind) : isToken (· == t) k = (k == .token t) := by
  rw [Bool.eq_iff_iff, isToken_iff]
  simp

theorem isNode_beq (n : NodeKind) (k : Kind) : isNode (· == n) k = (k == .node n) := by
  rw [Bool.eq_iff_iff, isNode_iff]
  simp

end Kind

open Pattern in
/-- What the pattern of a kind allows in a slot of the data fits the slot. -/
theorem NodeKind.fits_of_allows (owner : NodeKind) (k : Kind) :
    ∀ s, owner.pattern.allows s k → s ≠ .loose → owner.fits k s := by
  cases owner <;>
    simp only [NodeKind.pattern, skipped, separated, attributes, Pattern.modifiers, head, type,
      Pattern.name, qualified, Pattern.expression, Pattern.statement, arguments, arrow, body, braces,
      Pattern.declarators, Pattern.condition, initializer, Pattern.operation, Pattern.declarations,
      mark, leaf, Pattern.node, opt, allows, Kind.isToken_beq, Kind.isNode_beq, Bool.or_eq_true,
      Bool.and_eq_true, beq_iff_eq, or_imp, and_imp, forall_and, forall_eq] <;>
    simp +contextual [NodeKind.fits]

open Pattern in
/-- A child that is no token has a slot, if its parent has data. -/
theorem NodeKind.mem_slots_of_allows (owner : NodeKind) (k : Kind) (hk : k.token? = none)
    (ho : owner.shape? ≠ none) :
    ∀ s, owner.pattern.allows s k → s ∈ owner.slots.map (·.1) := by
  have htoken (p : TokenKind → Bool) : k.isToken p = false := by simp [Kind.isToken, hk]
  cases owner <;>
    simp only [NodeKind.pattern, skipped, separated, attributes, Pattern.modifiers, head, type,
      Pattern.name, qualified, Pattern.expression, Pattern.statement, arguments, arrow, body, braces,
      Pattern.declarators, Pattern.condition, initializer, Pattern.operation, Pattern.declarations,
      mark, leaf, Pattern.node, opt, allows, htoken, Bool.or_eq_true, Bool.and_false,
      Bool.and_eq_true, beq_iff_eq, or_imp, and_imp, forall_and, forall_eq] <;>
    simp [NodeKind.slots, NodeKind.shape?] <;> simp_all [NodeKind.shape?]

/-- A slot that holds no list holds at most one child. -/
theorem NodeKind.once_of_mem_slots (owner : NodeKind) :
    ∀ slot ∈ owner.slots, slot.2 = false → owner.pattern.once slot.1 := by
  cases owner <;> decide

/-! ## The children of a node -/

section Children

variable {k : NodeKind} {cs : List Child}

open Child

theorem mem_slots_ofChildren {s : Slot} {j : Nat}
    (h : (s, some j) ∈ (Data.ofChildren k cs).slots) :
    s ∈ k.slots.map (·.1) ∧ ∃ c ∈ cs, c.slot = s ∧ c.index = j := by
  rw [Data.slots_ofChildren] at h
  obtain ⟨slot, hslot, hf⟩ := List.mem_flatMap.1 h
  obtain ⟨rfl, hc⟩ := mem_filling hf
  exact ⟨List.mem_map_of_mem hslot, hc⟩

/-- Children with different numbers are referred to no more than once. -/
theorem nodup_refs (hcs : cs.Pairwise fun c d => c.index < d.index) :
    (Data.ofChildren k cs).refs.Nodup := by
  have hindex : ∀ c ∈ cs, ∀ d ∈ cs, c.index = d.index → c = d := by
    have hmap : (cs.map (·.index)).Nodup :=
      (List.pairwise_map.2 hcs).imp fun h => Nat.ne_of_lt h
    exact fun c hc d hd h => List.inj_on_of_nodup_map hmap hc hd h
  rw [Data.refs_ofChildren, List.nodup_flatMap]
  refine ⟨fun slot _ => (pairwise_refs_filling hcs slot).imp fun h => Nat.ne_of_lt h, ?_⟩
  have hslots := List.pairwise_map.1 k.slots_nodup
  refine hslots.imp fun {a b} hab j ha hb => hab ?_
  simp only [List.mem_filterMap, Prod.exists, exists_eq_right] at ha hb
  obtain ⟨s, hs⟩ := ha
  obtain ⟨s', hs'⟩ := hb
  obtain ⟨rfl, c, hc, hcs, hj⟩ := mem_filling hs
  obtain ⟨rfl, d, hd, hds, hj'⟩ := mem_filling hs'
  rw [← hcs, ← hds, hindex c hc d hd (hj.trans hj'.symm)]

/-- Children in some order are in that order in every slot. -/
theorem pairwise_refsIn {R : Nat → Nat → Prop} (hcs : cs.Pairwise fun c d => R c.index d.index)
    (s : Slot) : ((Data.ofChildren k cs).refsIn s).Pairwise R := by
  rw [Data.refsIn, Data.slots_ofChildren, List.filter_flatMap, List.filterMap_flatMap,
    List.pairwise_flatMap]
  have hmem {slot : Slot × Bool} {i : Nat}
      (h : i ∈ ((filling cs slot).filter (·.1 == s)).filterMap (·.2)) : slot.1 = s := by
    obtain ⟨⟨s', r⟩, hr, rfl⟩ := List.mem_filterMap.1 h
    obtain ⟨hr, hs⟩ := List.mem_filter.1 hr
    rw [← (mem_filling hr).1]
    simpa using hs
  refine ⟨fun slot _ => ?_, ?_⟩
  · exact (pairwise_refs_filling hcs slot).sublist (List.filter_sublist.filterMap _)
  · refine (List.pairwise_map.1 k.slots_nodup).imp fun hab i hi j hj => ?_
    exact absurd ((hmem hi).trans (hmem hj).symm) hab

end Children

/-- The slots of data are for children with a slot. -/
theorem NodeKind.slots_ne_loose (owner : NodeKind) : ∀ slot ∈ owner.slots, slot.1 ≠ .loose := by
  cases owner <;> decide

namespace Tree

variable {root : Tree} {s u : Site} {parent : Ref} {base : Nat}

theorem WellFormed.of_mem_sites (h : root.WellFormed) (hs : s ∈ root.sites parent base) :
    s.tree.WellFormed :=
  Tree.of_mem_sites (fun _ _ _ _ hnode => by cases hnode with | node _ inside => exact inside) h hs

end Tree

namespace Site

open Tree

variable {root : Tree} {s u : Site} {parent : Ref} {base : Nat}

/-- The children of a subtree. -/
def children (u : Site) : List Site := childSites (some u.index) u.base u.tree.children

theorem mem_children : s ∈ u.children ↔ ChildOf s u := by
  rw [children, mem_childSites]
  constructor
  · rintro ⟨before, after, hc, hp, hb⟩
    cases hu : u.tree with
    | leaf => simp [hu, Tree.children] at hc
    | node slot k span ts =>
      rw [hu] at hc
      exact ⟨slot, k, span, before, after, by rw [hu, ← hc]; rfl, hp, hb⟩
  · rintro ⟨slot, k, span, before, after, hu, hp, hb⟩
    exact ⟨before, after, by rw [hu]; rfl, hp, hb⟩

theorem mem_sites_of_mem_children (hu : u ∈ root.sites parent base) (hs : s ∈ u.children) :
    s ∈ root.sites parent base := by
  obtain ⟨slot, k, span, before, after, ht, hp, hb⟩ := mem_children.1 hs
  have h := child_mem_sites hu ht
  rw [← hp, ← hb] at h
  exact h

/-- A child as its parent knows it. -/
def asChild (s : Site) : Child := ⟨s.tree.slot, s.tree.kind, s.index⟩

theorem map_tree_children (u : Site) : u.children.map tree = u.tree.children :=
  map_tree_childSites ..

theorem find?_children (u : Site) (s : Slot) : u.tree.children.find? (·.slot == s) =
    (u.children.find? (·.tree.slot == s)).map tree := by
  rw [← map_tree_children, List.find?_map]
  rfl

/-- A slot is filled by the first child in it. -/
theorem inSlot_children (u : Site) (s : Slot) : Child.inSlot (u.children.map asChild) s =
    (u.children.find? (·.tree.slot == s)).map index := by
  rw [Child.inSlot, List.find?_map, Option.map_map]
  rfl

/-- The data of a node are read off its children. -/
theorem data_entry {slot : Slot} {k : NodeKind} {span : Span} {ts : List Tree}
    (hu : u.tree = .node slot k span ts) :
    u.entry.data = .ofChildren k (u.children.map asChild) := by
  rw [entry, hu, children, hu]
  change Data.ofChildren k (placed u.base ts) = _
  rw [placed_eq (some u.index)]
  rfl

/-- A slot that its pattern fills once is filled by one child. -/
theorem length_filter_children {slot : Slot} {k : NodeKind} {span : Span} {ts : List Tree}
    (hu : u.tree = .node slot k span ts) (hk : k.pattern.Covers ts) {s : Slot}
    (ho : k.pattern.once s) : ((u.children.map asChild).filter (·.slot == s)).length ≤ 1 := by
  have h := hk.once ho
  rw [← map_tree_childSites (some u.index) u.base ts, Pattern.inSlot, List.filter_map,
    List.length_map] at h
  rw [List.filter_map, List.length_map, children, hu]
  exact h

end Site

namespace NodeTable

/-- The data of the entries agree with their parents. -/
structure DataAgree (t : NodeTable) : Prop where
  /-- An entry has data of the shape that its kind asks for. -/
  shape : ∀ i k, t.kind? (some i) = some k → (t.data (some i)).shape? = k.shape?
  /-- What the data of a node refer to is a child of the node and fits the slot. -/
  fits : ∀ i s j, (s, some j) ∈ (t.data (some i)).slots → t.parent (some j) = some i ∧
    ∃ owner k, t.node? (some i) = some owner ∧ t.kind? (some j) = some k ∧ owner.fits k s
  /-- A node that has data refers to each child that is no token once. -/
  once : ∀ i j, t.parent (some j) = some i → (t.data (some i)).shape? ≠ none →
    t.token? (some j) = none → (t.data (some i)).refs.count j = 1
  /-- In every list, all that belongs to a child comes before all that belongs to the next. -/
  ordered : ∀ i s, ((t.data (some i)).refsIn s).Pairwise fun j j' =>
    ∀ m n, t.Below m j → t.Below n j' → m < n

variable {root : Tree} {i : Nat}

theorem data_eq_none (h : (ofTree root).size ≤ i) : (ofTree root).data (some i) = .none := by
  have hn : (ofTree root).entries[i]? = none := Array.getElem?_eq_none h
  simp [data, get?, hn]

theorem ofTree_shape (i : Nat) (k : Kind) (h : (ofTree root).kind? (some i) = some k) :
    ((ofTree root).data (some i)).shape? = k.shape? := by
  obtain ⟨u, hu, rfl, rfl⟩ := exists_site_of_kind h
  rw [data_ofTree hu, Site.shape_entry, Site.kind_entry]

/-- What data refer to in a slot is a child in that slot. -/
theorem exists_child_of_slots {u : Site} (hu : u ∈ root.sites none 0) {s : Slot} {j : Nat}
    (h : (s, some j) ∈ ((ofTree root).data (some u.index)).slots) :
    ∃ owner, u.tree.kind = .node owner ∧ s ∈ owner.slots.map Prod.fst ∧
      ∃ v ∈ u.children, v.tree.slot = s ∧ v.index = j := by
  rw [data_ofTree hu] at h
  cases ht : u.tree with
  | leaf slot token =>
    rw [Site.entry, ht] at h
    simp only [Tree.leafEntry] at h
    split at h <;> simp [Data.slots] at h
  | node slot owner span ts =>
    rw [Site.data_entry ht] at h
    obtain ⟨hs, c, hc, hslot, hj⟩ := mem_slots_ofChildren h
    obtain ⟨v, hv, rfl⟩ := List.mem_map.1 hc
    exact ⟨owner, rfl, hs, v, hv, hslot, hj⟩

theorem ofTree_fits (hroot : root.WellFormed) (i : Nat) (s : Slot) (j : Nat)
    (h : (s, some j) ∈ ((ofTree root).data (some i)).slots) :
    (ofTree root).parent (some j) = some i ∧ ∃ owner k, (ofTree root).node? (some i) = some owner ∧
      (ofTree root).kind? (some j) = some k ∧ owner.fits k s := by
  by_cases hi : i < (ofTree root).size
  · obtain ⟨u, hu, rfl⟩ := exists_site_of_lt hi
    obtain ⟨owner, hk, hs, v, hv, rfl, rfl⟩ := exists_child_of_slots hu h
    have hv' := Site.mem_sites_of_mem_children hu hv
    obtain ⟨_, kind, _, before, after, ht, hp, -⟩ := Site.mem_children.1 hv
    have hwell := hroot.of_mem_sites hu
    rw [ht] at hk hwell
    have heq : kind = owner := Kind.node.inj hk
    subst heq
    cases hwell with
    | node covers _ =>
      refine ⟨by rw [parent_ofTree hv', hp], kind, v.tree.kind, ?_, kind?_ofTree hv', ?_⟩
      · rw [node?_ofTree hu, ht]
        rfl
      · obtain ⟨slot, hslot, hs⟩ := List.mem_map.1 hs
        exact kind.fits_of_allows _ _ (covers.allows v.tree (by simp))
          (hs ▸ kind.slots_ne_loose slot hslot)
  · rw [data_eq_none (Nat.le_of_not_lt hi)] at h
    simp [Data.slots] at h

theorem ofTree_once (hroot : root.WellFormed) (i j : Nat)
    (hp : (ofTree root).parent (some j) = some i)
    (hd : ((ofTree root).data (some i)).shape? ≠ none) (hj : (ofTree root).token? (some j) = none) :
    ((ofTree root).data (some i)).refs.count j = 1 := by
  obtain ⟨s, hs, u, hu, rfl, rfl, hc⟩ := exists_site_of_hasParent hp
  have hmem := Site.mem_children.2 hc
  obtain ⟨slot, owner, span, before, after, ht, -⟩ := hc
  have hwell := hroot.of_mem_sites hu
  rw [data_ofTree hu, Site.data_entry ht] at hd ⊢
  rw [ht] at hwell
  rw [token?, kind?_ofTree hs, Option.bind_some] at hj
  cases hwell with
  | node covers _ =>
    have hallows := covers.allows s.tree (by simp)
    have howner : owner.shape? ≠ none := by rwa [Data.shape?_ofChildren] at hd
    obtain ⟨⟨sl, list⟩, hsl, hslot⟩ := List.mem_map.1
      (owner.mem_slots_of_allows s.tree.kind hj howner s.tree.slot hallows)
    have hascending : (u.children.map Site.asChild).Pairwise fun c d => c.index < d.index :=
      List.pairwise_map.2 ((Tree.pairwise_childSites _ _ _).imp fun {a b} h =>
        Nat.lt_of_lt_of_le h b.base_le_index)
    refine List.count_eq_one_of_mem (nodup_refs hascending) ?_
    rw [Data.refs_ofChildren]
    refine List.mem_flatMap.2 ⟨_, hsl, ?_⟩
    have hchild : s.asChild ∈ u.children.map Site.asChild := List.mem_map_of_mem hmem
    exact Child.index_mem_refs_filling hchild hslot.symm fun hl =>
      Site.length_filter_children ht covers (owner.once_of_mem_slots _ hsl hl)

theorem ofTree_ordered (i : Nat) (s : Slot) :
    (((ofTree root).data (some i)).refsIn s).Pairwise fun j j' =>
      ∀ m n, (ofTree root).Below m j → (ofTree root).Below n j' → m < n := by
  by_cases hi : i < (ofTree root).size
  · obtain ⟨u, hu, rfl⟩ := exists_site_of_lt hi
    rw [data_ofTree hu]
    cases ht : u.tree with
    | leaf slot token =>
      rw [Site.entry, ht]
      simp only [Tree.leafEntry]
      split <;> simp [Data.refsIn, Data.slots]
    | node slot owner span ts =>
      rw [Site.data_entry ht]
      refine pairwise_refsIn (List.pairwise_map.2 ?_) s
      refine (Tree.pairwise_childSites _ _ _).imp_of_mem fun {v w} hv hw hlt m n hm hn => ?_
      have hm := ((below_iff (Site.mem_sites_of_mem_children hu hv)) m).1 hm
      have hn := ((below_iff (Site.mem_sites_of_mem_children hu hw)) n).1 hn
      omega
  · rw [data_eq_none (Nat.le_of_not_lt hi)]
    simp [Data.refsIn, Data.slots]

/-- The data in the table of a text agree with the parents. -/
theorem ofText_dataAgree (text : List Char) : (ofText text).DataAgree := by
  have hroot := SourceFile.root_wellFormed text
  rw [ofText_eq]
  exact ⟨ofTree_shape, ofTree_fits hroot, ofTree_once hroot, ofTree_ordered⟩

end NodeTable

end Caret
