import Caret.Proofs.Preselection
/-!
# What type names mean

A type reference is resolved through the lists of members that data hold, along a walk up the
parents (`lookup_in_scope`). `NodeTable.Declares` says by parents alone which type is meant: of the
types with the name that are declared right in a type, namespace or file around the reference, the
first one in the innermost of these. So the lists neither leave out a type nor hold one that is
declared elsewhere (`Binding.typeIn_cases`). Where nothing around declares the name, it is looked up
in the whole file, so a name means nothing only if no type has it (`Binding.resolve_innermost`).
-/

namespace Caret

open Pattern Tree

/-! ## What the rule says -/

namespace NodeTable

section Rule

variable (t : NodeTable)

/-- The entry declares a type of the name. -/
def IsType (name : List Char) (d : Nat) : Prop :=
  t.isNode NodeKind.isTypeDeclaration (some d) ∧ t.declaredName? (some d) = some name

/-- The first type of the name right in a scope. -/
structure FirstType (name : List Char) (scope d : Nat) : Prop where
  child : t.HasParent d scope
  isType : t.IsType name d
  first : ∀ d', t.HasParent d' scope → t.IsType name d' → t.start d ≤ t.start d'

/-- The first type of the name right in the innermost node around an entry that has one. -/
def NearestType (name : List Char) (entry d : Nat) : Prop :=
  ∃ scope, Relation.TransGen t.HasParent entry scope ∧ t.FirstType name scope d ∧
    ∀ inner d', Relation.TransGen t.HasParent entry inner →
      Relation.TransGen t.HasParent inner scope → t.HasParent d' inner → ¬t.IsType name d'

/-- No node around an entry has a type of the name right in it. -/
def NoType (name : List Char) (entry : Nat) : Prop :=
  ∀ scope d, Relation.TransGen t.HasParent entry scope → t.HasParent d scope → ¬t.IsType name d

end Rule

end NodeTable

/-! ## Members -/

namespace NodeKind

/-- The slot of what a scope declares. -/
def memberSlot (k : NodeKind) : Slot := if k == .compilationUnit then .item else .member

/-- Types stand among the members of a node. -/
theorem slot_of_allows {k n : NodeKind} {s : Slot} (hn : n.isTypeDeclaration)
    (h : k.pattern.allows s (.node n)) : s = k.memberSlot := by
  have hscope : k.isScope := isScope_of_allows (by simp [isScope, hn]) h
  have honly : s = k.memberSlot ∨ k.pattern.fills s (!Kind.isNode isTypeDeclaration ·) := by
    cases k <;> first
      | cases hscope; done
      | cases s <;> first | exact .inl rfl | exact .inr (by decide)
  refine honly.resolve_right fun hf => ?_
  have hnot := of_allows_fills hf (by simp [Kind.ofTrees, n.mem_all]) h
  simp [Kind.isNode, Kind.node?, hn] at hnot

end NodeKind

namespace Binding

open NodeTable

section Members

variable {root : Tree} {u v : Site} {k : NodeKind} {name : List Char} {scope d : Nat}

/-- The members of a scope are its children in one slot. -/
theorem membersOf_ofTree (hu : u ∈ root.sites none 0) (hk : u.tree.kind = .node k)
    (hscope : k.isScope) : membersOf (ofTree root) (some u.index) =
      (u.children.filter (·.tree.slot == k.memberSlot)).map (some ·.index) := by
  obtain ⟨slot, span, ts, ht⟩ := eq_node_of_kind hk
  have hnode : (ofTree root).node? (some u.index) = some k := by
    rw [node?_ofTree hu, hk]
    rfl
  have hdata := data_ofTree hu
  rw [Site.data_entry ht] at hdata
  have hlist (s : Slot) : Child.listIn (u.children.map Site.asChild) s =
      (u.children.filter (·.tree.slot == s)).map (some ·.index) := by
    rw [Child.listIn, List.filter_map, List.map_map]
    rfl
  rw [membersOf, hnode]
  cases k <;> first
    | cases hscope; done
    | simp only [space?, list?, type?, hdata, Data.ofChildren, NodeKind.shape?, hlist]; rfl

variable (hroot : root.WellFormed)

include hroot

/-- A type is a member of its parent. -/
theorem exists_member (hu : u ∈ root.sites none 0) (hk : u.tree.kind = .node k)
    (hparent : (ofTree root).HasParent d u.index)
    (htype : (ofTree root).isNode NodeKind.isTypeDeclaration (some d)) :
    ∃ v ∈ u.children.filter (·.tree.slot == k.memberSlot), v.index = d ∧
      v ∈ root.sites none 0 ∧ v.tree.tokens ≠ [] := by
  obtain ⟨v, hv, u', hu', rfl, hindex, hchild⟩ := exists_site_of_hasParent hparent
  obtain rfl := site_unique hu' hu hindex
  obtain ⟨n, hn, hnt⟩ := (Option.any_eq_true _ _).1 htype
  obtain ⟨v', hv', hindex', hkind⟩ := exists_site_of_node hn
  obtain rfl := site_unique hv hv' hindex'.symm
  refine ⟨v, List.mem_filter.2 ⟨Site.mem_children.2 hchild, ?_⟩, rfl, hv,
    tokens_ne_nil_of_type hroot hv hkind hnt⟩
  obtain ⟨slot, k', span, before, after, ht, -⟩ := hchild
  have hwell := hroot.of_mem_sites hu
  rw [ht] at hk hwell
  obtain rfl : k' = k := Kind.node.inj hk
  cases hwell with
  | node covers _ =>
    have hallows := covers.allows v.tree (by simp)
    rw [hkind] at hallows
    rw [NodeKind.slot_of_allows hnt hallows]
    exact beq_self_eq_true _

/-- Types stand right in scopes only. -/
theorem isScope_of_type (hparent : (ofTree root).HasParent d scope)
    (htype : (ofTree root).isNode NodeKind.isTypeDeclaration (some d)) :
    ∃ k, (ofTree root).node? (some scope) = some k ∧ k.isScope := by
  obtain ⟨n, hn, hnt⟩ := (Option.any_eq_true _ _).1 htype
  rw [HasParent] at hparent
  rcases parent_cases hroot hn with ⟨hnone, -⟩ | ⟨k, slot, hk, hallows⟩
  · rw [hnone] at hparent
    cases hparent
  · rw [hparent] at hk
    exact ⟨k, hk, NodeKind.isScope_of_allows (by simp [NodeKind.isScope, hnt]) hallows⟩

omit hroot in
/-- Only a scope has members. -/
theorem membersOf_eq_nil {t : NodeTable} {i : Ref} (h : ∀ k, t.node? i = some k → ¬k.isScope) :
    membersOf t i = [] := by
  unfold membersOf
  split
  · rename_i hk; exact absurd rfl (h _ hk)
  · rename_i hk; exact absurd rfl (h _ hk)
  · rename_i k _ _ hk
    rw [if_neg fun htype => h k hk (by simp [NodeKind.isScope, htype])]
  · rfl

section First

variable (hstarts : root.StartsAtToken)
  (hsorted : root.tokens.Pairwise fun t u => t.start < u.start)

include hstarts hsorted

/-- The members of a scope stand in it in the order in which they start. -/
theorem firstType_of_append {before after : List Site} (hu : u ∈ root.sites none 0)
    (hk : u.tree.kind = .node k)
    (hsplit : u.children.filter (·.tree.slot == k.memberSlot) = before ++ v :: after)
    (hbefore : ∀ w ∈ before, ¬(ofTree root).IsType name w.index)
    (hv : (ofTree root).IsType name v.index) : (ofTree root).FirstType name u.index v.index := by
  have hmem : v ∈ u.children :=
    (List.mem_filter.1 (hsplit ▸ List.mem_append_right _ (List.mem_cons_self ..))).1
  have hparent := parent_of_mem_children hu hmem
  refine ⟨hparent, hv, fun d' hparent' hd' => ?_⟩
  obtain ⟨w, hw, rfl, hws, hwne⟩ := exists_member hroot hu hk hparent' hd'.1
  obtain ⟨v', -, heq, hvs, hvne⟩ := exists_member hroot hu hk hparent hv.1
  obtain rfl := site_unique hvs (Site.mem_sites_of_mem_children hu hmem) heq
  have hpairs : (u.children.filter (·.tree.slot == k.memberSlot)).Pairwise _ :=
    (pairwise_childSites (some u.index) u.base u.tree.children).filter _
  rw [hsplit] at hw hpairs
  rcases List.mem_append.1 hw with hw | hw
  · exact absurd hd' (hbefore w hw)
  · rcases List.mem_cons.1 hw with rfl | hw
    · exact Nat.le_refl _
    · have hlt := (List.pairwise_cons.1 (List.pairwise_append.1 hpairs).2.1).1 w hw
      exact Nat.le_of_lt (start_lt_of_behind hstarts hsorted hvs hws hvne hwne hlt)

/-- What is found in a scope is the first type of the name right in it. -/
theorem typeIn_cases (name : List Char) (scope : Nat) :
    (typeIn (ofTree root) name (some scope) = none ∧
      ∀ d, (ofTree root).HasParent d scope → ¬(ofTree root).IsType name d) ∨
    ∃ d, typeIn (ofTree root) name (some scope) = some (some d) ∧
      (ofTree root).FirstType name scope d := by
  by_cases hscope : ∃ k, (ofTree root).node? (some scope) = some k ∧ k.isScope
  · obtain ⟨k, hk, hscope⟩ := hscope
    obtain ⟨u, hu, rfl, hkind⟩ := exists_site_of_node hk
    rw [typeIn, membersOf_ofTree hu hkind hscope, List.find?_map]
    cases hfound : (u.children.filter (·.tree.slot == k.memberSlot)).find? _ with
    | none =>
      refine .inl ⟨rfl, fun d hparent hd => ?_⟩
      obtain ⟨v, hv, rfl, -⟩ := exists_member hroot hu hkind hparent hd.1
      have hnot := List.find?_eq_none.1 hfound v hv
      simp [hd.1, hd.2] at hnot
    | some v =>
      obtain ⟨hv, before, after, hsplit, hbefore⟩ := List.find?_eq_some_iff_append.1 hfound
      simp only [Function.comp_apply, Bool.and_eq_true, beq_iff_eq] at hv
      refine .inr ⟨v.index, rfl, firstType_of_append hroot hstarts hsorted hu hkind hsplit
        (fun w hw hd => ?_) hv⟩
      have hnot := hbefore w hw
      simp [hd.1, hd.2] at hnot
  · refine .inl ⟨?_, fun d hparent hd => hscope (isScope_of_type hroot hparent hd.1)⟩
    rw [typeIn, membersOf_eq_nil fun k hk h => hscope ⟨k, hk, h⟩]
    rfl

end First

end Members

/-! ## Scopes -/

section Scopes

variable {root : Tree} {r : Nat} {name : List Char} (hroot : root.WellFormed)
  (hstarts : root.StartsAtToken) (hsorted : root.tokens.Pairwise fun t u => t.start < u.start)
  (hsh : (ofTree root).Shallow)

include hroot hstarts hsorted hsh

/-- The scopes around an entry are asked for a name from the inside out. -/
theorem findSome?_typeIn (name : List Char) (hr : r < (ofTree root).size) :
    (((ofTree root).ancestors (some r)).findSome? (fun scope => typeIn (ofTree root) name (some scope)) =
      none ∧ (ofTree root).NoType name r) ∨
    ∃ d, ((ofTree root).ancestors (some r)).findSome?
        (fun scope => typeIn (ofTree root) name (some scope)) = some (some d) ∧
      (ofTree root).NearestType name r d := by
  have hcases := typeIn_cases hroot hstarts hsorted name
  rw [ancestors_eq_lineage hsh]
  cases hfound : ((ofTree root).lineage (some r)).findSome? _ with
  | none =>
    refine .inl ⟨rfl, fun scope d hscope => ?_⟩
    have hnone := List.findSome?_eq_none_iff.1 hfound scope ((mem_lineage hr).2 hscope)
    rcases hcases scope with ⟨-, hno⟩ | ⟨d, hsome, -⟩
    · exact hno d
    · rw [hnone] at hsome
      cases hsome
  | some found =>
    obtain ⟨inner, scope, outer, hsplit, hscope, hinner⟩ := List.findSome?_eq_some_iff.1 hfound
    rcases hcases scope with ⟨hnone, -⟩ | ⟨d, hsome, hfirst⟩
    · rw [hnone] at hscope
      cases hscope
    · obtain rfl := Option.some.inj (hscope.symm.trans hsome)
      have habove : Relation.TransGen (ofTree root).HasParent r scope :=
        (mem_lineage hr).1 (by rw [hsplit]; simp)
      refine .inr ⟨d, rfl, scope, habove, hfirst, fun a d' ha hbelow hparent => ?_⟩
      have hmem : a ∈ inner := (mem_or_le_of_lineage hsplit ((mem_lineage hr).2 ha)).resolve_right
        (Nat.not_le_of_lt (lt_of_transGen hbelow))
      rcases hcases a with ⟨-, hno⟩ | ⟨d, hsome, -⟩
      · exact hno d' hparent
      · rw [hinner a hmem] at hsome
        cases hsome

end Scopes

/-! ## The whole file -/

section File

variable {t : NodeTable} {name : List Char} {d : Nat}

/-- A name is found unless no type has it. -/
theorem lookup?_eq_none : (ofTable t).lookup? name = none ↔ ∀ d, ¬t.IsType name d := by
  constructor
  · rintro hnone d ⟨htype, hname⟩
    obtain ⟨e, he, rfl, rfl⟩ := exists_declaredType htype hname
    obtain ⟨place, hplace⟩ := List.mem_iff_getElem?.1 he
    have hsome := lookup?_isSome (b := ofTable t) (declaration?_eq_some.2 ⟨place, e, rfl, hplace, rfl⟩)
      (by rw [typeName?_idAt, hplace]; rfl)
    rw [hnone] at hsome
    cases hsome
  · intro hno
    by_contra hsome
    obtain ⟨id, hid⟩ := Option.ne_none_iff_exists'.1 hsome
    obtain ⟨place, e, rfl, he, rfl, -⟩ := lookup?_eq_some.1 hid
    have hmem := List.mem_of_getElem? he
    exact hno e.declaration ⟨isType_of_mem_types hmem, name_of_mem_types hmem⟩

end File

/-! ## References -/

section References

variable {root : Tree} {r : Nat}

/-- A type reference has a child that is its name. -/
theorem exists_name_of_covers {ts : List Tree} (h : Covers NodeKind.typeReference.pattern ts) :
    ∃ t ∈ ts, t.slot = .name := by
  obtain ⟨us, vs, rfl, hus, -⟩ := covers_seq.1 h
  rcases covers_alt.1 hus with hus | hus
  · obtain ⟨x, rfl, -⟩ := covers_leaf.1 hus
    exact ⟨.leaf .name x, by simp, rfl⟩
  · obtain ⟨ws, xs, rfl, -, hxs⟩ := covers_seq.1 hus
    obtain ⟨x, rfl, -⟩ := covers_leaf.1 hxs
    exact ⟨.leaf .name x, by simp, rfl⟩

/-- A type reference has a name, which is that of a built-in type or an identifier. -/
theorem exists_typeReference (hroot : root.WellFormed)
    (hr : (ofTree root).node? (some r) = some .typeReference) : ∃ parts k,
      (ofTree root).typeReference? (some r) = some parts ∧
      (ofTree root).token? parts.name = some k ∧
      (k.isPredefinedType ∨ k = .identifier ∧
        ∃ name, (ofTree root).name? parts.name = some name) := by
  obtain ⟨u, hu, rfl, hk⟩ := exists_site_of_node hr
  obtain ⟨slot, span, ts, ht⟩ := eq_node_of_kind hk
  have hwell := hroot.of_mem_sites hu
  rw [ht] at hwell
  cases hwell with | node covers _ =>
  have hdata := data_ofTree hu
  rw [Site.data_entry ht] at hdata
  obtain ⟨c, hc, hslot⟩ := exists_name_of_covers covers
  have hchildren : u.children.map Site.tree = ts := by
    rw [Site.map_tree_children, ht]
    rfl
  have hexists : (u.children.find? (·.tree.slot == .name)).isSome := by
    rw [← hchildren] at hc
    obtain ⟨v, hv, rfl⟩ := List.mem_map.1 hc
    exact List.find?_isSome.2 ⟨v, hv, by simp [hslot]⟩
  obtain ⟨v, hfound⟩ := Option.isSome_iff_exists.1 hexists
  have hv := List.mem_of_find?_eq_some hfound
  have hvs := Site.mem_sites_of_mem_children hu hv
  have hvslot : v.tree.slot = .name := by simpa using List.find?_some hfound
  have hmem : v.tree ∈ ts := hchildren ▸ List.mem_map_of_mem hv
  have hparts : (ofTree root).typeReference? (some u.index) = some ⟨some v.index,
      (u.children.map Site.asChild).any (·.kind == .token .closeBracket)⟩ := by
    have hslot := Site.inSlot_children u .name
    rw [hfound, Option.map_some] at hslot
    simp only [typeReference?, hdata, Data.ofChildren, NodeKind.shape?, hslot]
  have hfits := NodeKind.fits_of_allows .typeReference _ _ (covers.allows v.tree hmem)
    (by rw [hvslot]; exact Slot.noConfusion)
  rw [hvslot] at hfits
  cases htree : v.tree with
  | node => rw [htree] at hfits; cases hfits
  | leaf slot x =>
    have htoken : v.token? = some x := by rw [Site.token?, htree]
    refine ⟨_, x.kind, hparts, by rw [token?_ofTree hvs, htoken]; rfl, ?_⟩
    rw [htree] at hfits
    by_cases hx : x.kind = .identifier
    · exact .inr ⟨hx, _, name?_ofTree hvs htoken hx⟩
    · refine .inl ?_
      simpa [NodeKind.fits, Tree.kind, Kind.isToken, Kind.token?, hx] using hfits

end References

/-! ## The rule -/

section Lookup

variable {b : Binding} {entry : Ref} {name : List Char}

theorem lookupFrom_of_none (h : (b.table.ancestors entry).findSome?
    (fun scope => typeIn b.table name (some scope)) = none) :
    b.lookupFrom entry name = b.lookup? name := by simp only [lookupFrom, h]

theorem lookupFrom_of_some {declaration : Ref} (h : (b.table.ancestors entry).findSome?
    (fun scope => typeIn b.table name (some scope)) = some declaration) :
    b.lookupFrom entry name = b.ofDeclaration? declaration := by simp only [lookupFrom, h]

end Lookup

section Parts

variable {b : Binding} {reference : Ref} {parts : TypeReferenceParts} {k : TokenKind}
  (h : b.table.typeReference? reference = some parts)

include h

theorem resolve_array (harray : parts.isArray) : b.resolve reference = none := by
  simp [resolve, h, harray]

section Single

variable (harray : parts.isArray = false)

include harray

theorem resolve_builtIn {id : TypeId} (hk : b.table.token? parts.name = some k)
    (hid : TypeId.ofPredefined? k = some id) : b.resolve reference = some id := by
  simp [resolve, h, harray, hk, hid]

theorem resolve_named {name : List Char} (hk : b.table.token? parts.name = some .identifier)
    (hname : b.table.name? parts.name = some name) :
    b.resolve reference = b.lookupFrom reference name := by
  simp [resolve, h, harray, hk, hname, TypeId.ofPredefined?]

end Single

end Parts

section Names

variable (text : List Char) (hsh : (ofText text).Shallow) {r : Nat}

include hsh

/-- A name means the first type of the name in the innermost scope that declares one, or else the first
one in the file. -/
theorem lookupFrom_cases (hr : (ofText text).node? (some r) = some .typeReference)
    (name : List Char) :
    ((∃ d id, (ofText text).NearestType name r d ∧
        (ofTable (.ofText text)).lookupFrom (some r) name = some id ∧
        (ofTable (.ofText text)).declaration? id = some d) ∨
      ((ofText text).NoType name r ∧
        (ofTable (.ofText text)).lookupFrom (some r) name =
          (ofTable (.ofText text)).lookup? name)) ∧
    ((ofTable (.ofText text)).lookupFrom (some r) name = none ↔
      ∀ d, ¬(ofText text).IsType name d) := by
  rw [ofText_eq] at hsh hr ⊢
  have hsize : r < (ofTree (SourceFile.ofText text).root).size := by
    obtain ⟨u, hu, rfl, -⟩ := exists_site_of_node hr
    exact index_lt_size hu
  rcases findSome?_typeIn (SourceFile.root_wellFormed text)
    (SourceFile.root_startsAtToken text) (SourceFile.root_sorted text) hsh name hsize with
    ⟨hnone, hno⟩ | ⟨d, hsome, hnearest⟩
  · rw [lookupFrom_of_none (b := ofTable (.ofTree (SourceFile.ofText text).root)) hnone]
    exact ⟨.inr ⟨hno, rfl⟩, lookup?_eq_none⟩
  · rw [lookupFrom_of_some (b := ofTable (.ofTree (SourceFile.ofText text).root)) hsome]
    have hd : (ofTree (SourceFile.ofText text).root).IsType name d := by
      obtain ⟨scope, -, hfirst, -⟩ := hnearest
      exact hfirst.isType
    have hfound : (ofTable (.ofTree (SourceFile.ofText text).root)).ofDeclaration? (some d) ≠
        none := fun hnone => by
      rw [ofDeclaration?_eq_none hd.1, hd.2] at hnone
      cases hnone
    obtain ⟨id, hid⟩ := Option.ne_none_iff_exists'.1 hfound
    exact ⟨.inl ⟨d, id, hnearest, hid, ofDeclaration?_eq_some.1 hid⟩,
      iff_of_false hfound fun hno => hno d hd⟩

end Names

/-- A type reference means nothing if it is an array, a built-in type if its name is the keyword of
one, and otherwise the first type of the name in the innermost scope around it that declares one, or
else the first one in the file. -/
theorem resolve_innermost (text : List Char) (hsh : (ofText text).Shallow) {r : Nat}
    (hr : (ofText text).node? (some r) = some .typeReference) {s : RequestState}
    (hs : s.Untroubled) : ∃ parts answer,
      (ofText text).typeReference? (some r) = some parts ∧
      ((ofTable (.ofText text)).model.resolve (some r) s).1 = .ok answer ∧
      (parts.isArray → answer = none) ∧
      (parts.isArray = false →
        (∃ k, (ofText text).token? parts.name = some k ∧ k.isPredefinedType ∧
          answer = TypeId.ofPredefined? k ∧ answer ≠ none) ∨
        ∃ name, (ofText text).token? parts.name = some .identifier ∧
          (ofText text).name? parts.name = some name ∧
          ((∃ d id, (ofText text).NearestType name r d ∧ answer = some id ∧
              (ofTable (.ofText text)).declaration? id = some d) ∨
            ((ofText text).NoType name r ∧ answer = (ofTable (.ofText text)).lookup? name)) ∧
          (answer = none ↔ ∀ d, ¬(ofText text).IsType name d)) := by
  have hnamed := lookupFrom_cases text hsh hr
  rw [ofText_eq] at hr hnamed ⊢
  obtain ⟨parts, k, hparts, hk, hname⟩ := exists_typeReference (SourceFile.root_wellFormed text) hr
  refine ⟨parts, _, hparts, (resolve_answers _ (some r) s hs).1,
    resolve_array (b := ofTable (.ofTree (SourceFile.ofText text).root)) hparts, fun harray => ?_⟩
  rcases hname with hpredefined | ⟨rfl, name, hname⟩
  · obtain ⟨id, hid⟩ := Option.isSome_iff_exists.1
      ((TypeId.isSome_ofPredefined? k).trans hpredefined)
    rw [resolve_builtIn (b := ofTable (.ofTree (SourceFile.ofText text).root)) hparts harray hk hid]
    exact .inl ⟨k, hk, hpredefined, hid.symm, by simp⟩
  · rw [resolve_named (b := ofTable (.ofTree (SourceFile.ofText text).root)) hparts harray hk hname]
    exact .inr ⟨name, hk, hname, hnamed name⟩

/-- A type has the name of one that comes before the type around it. -/
def shadowingText : List Char := "class B\x7b\x7dclass A\x7bB x;class B\x7b\x7d\x7d".toList

/-- The name of the type of the field means the type in the class of the field. -/
theorem resolve_innermost_shadowing : ∃ d, (ofText shadowingText).NearestType "B".toList 9 d ∧
    (ofTable (.ofText shadowingText)).declaration? (idAt 1) = some d := by
  obtain ⟨parts, answer, hparts, hanswer, -, hnamed⟩ := resolve_innermost shadowingText
    (shallow_of_size_le (by decide +kernel)) (r := 9) (by decide +kernel)
    RequestState.untroubled_quiet
  rw [(resolve_answers _ _ _ RequestState.untroubled_quiet).1] at hanswer
  have hfound : (ofTable (.ofText shadowingText)).resolve (some 9) = some (idAt 1) := by
    decide +kernel
  obtain rfl := hfound.symm.trans (Except.ok.inj hanswer)
  have hfield : (ofText shadowingText).typeReference? (some 9) = some ⟨some 8, false⟩ := by
    decide +kernel
  obtain rfl := Option.some.inj (hfield.symm.trans hparts)
  have hword : (ofText shadowingText).token? (some 8) = some .identifier ∧
      (ofText shadowingText).name? (some 8) = some "B".toList ∧
      (ofTable (.ofText shadowingText)).lookup? "B".toList = some (idAt 0) := by decide +kernel
  rcases hnamed rfl with ⟨k, hk, hbuiltIn, -⟩ | ⟨name, -, hname, hcases, -⟩
  · obtain rfl := Option.some.inj (hword.1.symm.trans hk)
    cases hbuiltIn
  · obtain rfl := Option.some.inj (hword.2.1.symm.trans hname)
    rcases hcases with ⟨d, id, hnearest, hid, hd⟩ | ⟨-, hlookup⟩
    · obtain rfl := Option.some.inj hid
      exact ⟨d, hnearest, hd⟩
    · rw [hword.2.2] at hlookup
      cases hlookup

end Binding

end Caret
