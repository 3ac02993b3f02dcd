import Caret.Proofs.SourceOrder
/-!
# The order of declared types

Types are numbered in the order of their entries, and the entry of a type stands behind those of the
types in it. So of two types the one that stands in the other has the lower number although it
starts later; otherwise the one that starts first has the lower number. A name that no scope around
a reference declares means the type of the name with the lowest number, which is not the one that
starts first if that one has another of the name in it (`Binding.ofText_ordered`).
-/

namespace Caret

open Tree Pattern NodeTable

namespace NodeTable

/-- The first declaration comes before the second: it stands in it, or it starts before the second
without the second standing in it. -/
def Precedes (t : NodeTable) (d d' : Nat) : Prop :=
  t.Below d d' ∧ t.start d' < t.start d ∨
    ¬ t.Below d d' ∧ ¬ t.Below d' d ∧ t.start d < t.start d'

section Sites

variable {root : Tree} {u c : Site} {i j : Nat}

/-- Only what holds declarations has declarations in it. -/
theorem isScope_of_below (hroot : root.WellFormed) (h : (ofTree root).Below i j)
    (hi : (ofTree root).isNode NodeKind.isScope (some i)) :
    (ofTree root).isNode NodeKind.isScope (some j) := by
  induction h with
  | refl => exact hi
  | tail _ hp ih =>
    obtain ⟨n, hn, hscope⟩ := (Option.any_eq_true _ _).1 ih
    rcases parent_cases hroot hn with ⟨hnone, -⟩ | ⟨k, slot, hk, hallows⟩
    · rw [HasParent, hnone] at hp
      cases hp
    · rw [HasParent] at hp
      rw [hp] at hk
      rw [isNode, hk]
      exact NodeKind.isScope_of_allows hscope hallows

end Sites

end NodeTable

/-- The children of a type around its keyword. -/
theorem exists_keyword_of_type {k : NodeKind} {ts : List Tree} (hk : k.isTypeDeclaration)
    (h : k.pattern.Covers ts) : ∃ before keyword after,
      ts = before ++ .leaf .loose keyword :: after ∧
        ∀ t ∈ before, t.kind.isNode NodeKind.isScope = false := by
  have hpattern : k.pattern = NodeKind.pattern .classDeclaration := by
    cases k <;> first | rfl | cases hk
  rw [hpattern] at h
  obtain ⟨us, after, rfl, hus, -⟩ := covers_seq.1 h
  obtain ⟨before, keywords, rfl, hbefore, hkeyword⟩ := covers_seq.1 hus
  obtain ⟨keyword, rfl, -⟩ := covers_leaf.1 hkeyword
  refine ⟨before, keyword, after, by simp, fun t ht => ?_⟩
  rw [Bool.eq_false_iff]
  intro hscope
  obtain ⟨n, hn, hscope⟩ := Kind.isNode_iff.1 hscope
  have hallows := hbefore.allows t ht
  rw [hn] at hallows
  have honly : head.onlyNodes (!NodeKind.isScope ·) := rfl
  simpa [hscope] using of_allows_node honly hallows

namespace NodeTable

section Types

variable {root : Tree} {u w : Site} {k l : NodeKind}
  (hroot : root.WellFormed) (hstarts : root.StartsAtToken)
  (hsorted : root.tokens.Pairwise fun t t' => t.start < t'.start)
  (hu : u ∈ root.sites none 0) (hw : w ∈ root.sites none 0)
  (hk : u.tree.kind = .node k) (hl : w.tree.kind = .node l)
  (hkt : k.isTypeDeclaration) (hlt : l.isTypeDeclaration)

include hroot hu hk hkt in
theorem tokens_ne_nil_of_type : u.tree.tokens ≠ [] := by
  refine (hroot.of_mem_sites hu).tokens_ne_nil ?_
  rw [hk]
  rintro h
  cases h
  cases hkt

include hroot hw hl hlt in
/-- What holds declarations stands behind the keyword of the type that it is right in. -/
theorem exists_token_before {c : Site} (hc : c ∈ w.children)
    (hscope : c.tree.kind.isNode NodeKind.isScope) : ∃ v ∈ root.sites none 0, ∃ x,
      v.token? = some x ∧ x ∈ w.tree.tokens ∧ v.index < c.base := by
  have hwell := hroot.of_mem_sites hw
  cases htree : w.tree with
  | leaf s t => rw [htree] at hl; cases hl
  | node s n span ts =>
    rw [htree] at hl hwell
    cases hl
    cases hwell with | node hcovers _ =>
    obtain ⟨before, keyword, after, rfl, hbefore⟩ := exists_keyword_of_type hlt hcovers
    obtain ⟨us, v, vs, hsplit, rfl, hv, rfl, -, hlate⟩ := Site.exists_split htree
    have hmem : v ∈ w.children := by simp [hsplit]
    refine ⟨v, Site.mem_sites_of_mem_children hw hmem, keyword, by rw [Site.token?, hv], ?_, ?_⟩
    · rw [Tree.tokens, tokensAll_append, tokensAll, Tree.tokens]
      simp
    · rw [hsplit, List.mem_append, List.mem_cons] at hc
      rcases hc with hc | rfl | hc
      · rw [hbefore c.tree (List.mem_map_of_mem hc)] at hscope
        cases hscope
      · rw [hv] at hscope
        cases hscope
      · exact hlate c hc

include hroot hstarts hsorted hu hw hk hl hkt hlt

/-- A type starts behind the keyword of every type that it stands in. -/
theorem start_lt_of_nested (h : (ofTree root).Below u.index w.index) (hne : u.index ≠ w.index) :
    (ofTree root).start w.index < (ofTree root).start u.index := by
  rcases (Relation.ReflTransGen.cases_tail_iff ..).1 h with heq | ⟨j, hbelow, hparent⟩
  · exact absurd heq.symm hne
  obtain ⟨c, hc, w', hw', rfl, hi, hchild⟩ := exists_site_of_hasParent hparent
  obtain rfl := site_unique hw' hw hi
  have hscope : (ofTree root).isNode NodeKind.isScope (some c.index) := by
    refine isScope_of_below hroot hbelow ?_
    rw [isNode, node?_ofTree hu, hk]
    simp [Kind.node?, NodeKind.isScope, hkt]
  rw [isNode, node?_ofTree hc] at hscope
  obtain ⟨v, hv, x, hx, hmem, hlt'⟩ :=
    exists_token_before hroot hw hl hlt (Site.mem_children.2 hchild) hscope
  obtain ⟨u', hu', hindex, hbase, -⟩ := bounds_of_below hc hbelow
  obtain rfl := site_unique hu' hu hindex
  exact start_lt_of_inside hstarts hsorted hu hw hv hx hmem
    (tokens_ne_nil_of_type hroot hu hk hkt) (by omega)

/-- Of two types the one with the lower entry comes first. -/
theorem precedes_of_lt (h : u.index < w.index) : (ofTree root).Precedes u.index w.index := by
  by_cases hbelow : (ofTree root).Below u.index w.index
  · exact .inl ⟨hbelow,
      start_lt_of_nested hroot hstarts hsorted hu hw hk hl hkt hlt hbelow (Nat.ne_of_lt h)⟩
  · refine .inr ⟨hbelow, fun hback => ?_, ?_⟩
    · have := ((below_iff hu _).1 hback).2
      omega
    · rw [below_iff hw] at hbelow
      exact start_lt_of_behind hstarts hsorted hu hw (tokens_ne_nil_of_type hroot hu hk hkt)
        (tokens_ne_nil_of_type hroot hw hl hlt) (by omega)

end Types

end NodeTable

namespace Binding

variable {t : NodeTable} {b : Binding} {i i' : TypeId} {d d' : Nat} {name : List Char}

/-! ## The list of types -/

theorem declaredType?_eq_some {n : Nat} {e : DeclaredType} (h : t.declaredType? n = some e) :
    e.declaration = n ∧ t.isNode NodeKind.isTypeDeclaration (some n) := by
  simp only [declaredType?, Option.bind_eq_bind, Option.bind_eq_some_iff, Option.pure_def,
    Option.some.injEq] at h
  obtain ⟨k, hk, kind, hkind, -, -, rfl⟩ := h
  refine ⟨rfl, ?_⟩
  rw [isNode, hk, Option.any_some]
  cases k <;> first | rfl | cases hkind

/-- Every type with a name is in the list. -/
theorem exists_declaredType {n : Nat} (htype : t.isNode NodeKind.isTypeDeclaration (some n))
    (hname : t.declaredName? (some n) = some name) :
    ∃ e ∈ (ofTable t).types, e.declaration = n ∧ e.name = name := by
  obtain ⟨k, hk, hkt⟩ := (Option.any_eq_true _ _).1 htype
  obtain ⟨kind, hkind⟩ : ∃ kind, declaredKind? k = some kind := by
    cases k <;> first | exact ⟨_, rfl⟩ | cases hkt
  refine ⟨⟨name, kind, n⟩, List.mem_filterMap.2 ⟨n, ?_, ?_⟩, rfl, rfl⟩
  · rw [List.mem_range]
    by_contra hsize
    have hget : t.get? (some n) = none := Array.getElem?_eq_none (Nat.le_of_not_lt hsize)
    rw [node?, NodeTable.kind?, hget] at hk
    cases hk
  · simp [declaredType?, hk, hkind, hname]

/-- The types stand in the order of their entries. -/
theorem pairwise_types (t : NodeTable) :
    (ofTable t).types.Pairwise fun e e' => e.declaration < e'.declaration := by
  rw [ofTable, List.pairwise_filterMap]
  refine List.pairwise_lt_range.imp fun {n m} hlt e he e' he' => ?_
  rw [(declaredType?_eq_some he).1, (declaredType?_eq_some he').1]
  exact hlt

theorem isType_of_mem_types {e : DeclaredType} (h : e ∈ (ofTable t).types) :
    t.isNode NodeKind.isTypeDeclaration (some e.declaration) := by
  obtain ⟨n, -, hn⟩ := List.mem_filterMap.1 h
  obtain ⟨rfl, htype⟩ := declaredType?_eq_some hn
  exact htype

theorem name_of_mem_types {e : DeclaredType} (h : e ∈ (ofTable t).types) :
    t.declaredName? (some e.declaration) = some e.name := by
  obtain ⟨n, -, hn⟩ := List.mem_filterMap.1 h
  simp only [declaredType?, Option.bind_eq_bind, Option.bind_eq_some_iff, Option.pure_def,
    Option.some.injEq] at hn
  obtain ⟨-, -, -, -, name, hname, rfl⟩ := hn
  exact hname

/-- A declared type stands in the list at the place that its identity says. -/
theorem declaration?_eq_some : b.declaration? i = some d ↔ ∃ place e, i = idAt place ∧
    b.types[place]? = some e ∧ e.declaration = d := by
  unfold declaration? declared? TypeId.isIntrinsic idAt
  constructor
  · intro h
    split at h
    · cases h
    · rename_i hi
      obtain ⟨e, he, rfl⟩ := Option.map_eq_some_iff.1 h
      refine ⟨i.number - TypeId.firstDeclared, e, ?_, he, rfl⟩
      rw [decide_eq_true_iff] at hi
      rw [Nat.add_sub_cancel' (Nat.le_of_not_lt hi)]
  · rintro ⟨place, e, rfl, he, rfl⟩
    rw [if_neg (by simp), Nat.add_sub_cancel_left, he]
    rfl

theorem typeName?_idAt (b : Binding) (place : Nat) :
    b.typeName? (idAt place) = b.types[place]?.map (·.name) := by
  unfold typeName? declared? TypeId.isIntrinsic idAt
  simp only [Nat.not_lt.2 (Nat.le_add_right _ _), decide_false, Bool.false_eq_true, if_false,
    Nat.add_sub_cancel_left]

/-- The identity that is found is the lowest with the name. -/
theorem lookup?_eq_some : b.lookup? name = some i ↔ ∃ place e, i = idAt place ∧
    b.types[place]? = some e ∧ e.name = name ∧
      ∀ place' e', b.types[place']? = some e' → e'.name = name → place ≤ place' := by
  rw [lookup?, Option.map_eq_some_iff]
  constructor
  · rintro ⟨place, hfound, rfl⟩
    obtain ⟨hlt, hname, hfirst⟩ := List.findIdx?_eq_some_iff_getElem.1 hfound
    refine ⟨place, b.types[place], rfl, List.getElem?_eq_getElem hlt, by simpa using hname, ?_⟩
    intro place' e' he' hname'
    obtain ⟨hlt', rfl⟩ := List.getElem?_eq_some_iff.1 he'
    refine Nat.le_of_not_lt fun hless => hfirst place' hless ?_
    simpa using hname'
  · rintro ⟨place, e, rfl, he, hname, hfirst⟩
    obtain ⟨hlt, rfl⟩ := List.getElem?_eq_some_iff.1 he
    refine ⟨place, List.findIdx?_eq_some_iff_getElem.2 ⟨hlt, by simpa using hname, ?_⟩, rfl⟩
    intro j hj hname'
    have := hfirst j b.types[j] (List.getElem?_eq_getElem (hj.trans hlt)) (by simpa using hname')
    omega

theorem lookup?_isSome (hi : b.declaration? i = some d) (hname : b.typeName? i = some name) :
    (b.lookup? name).isSome := by
  obtain ⟨place, e, rfl, he, -⟩ := declaration?_eq_some.1 hi
  rw [typeName?_idAt, he] at hname
  rw [lookup?, Option.isSome_map, List.findIdx?_isSome, List.any_eq_true]
  exact ⟨e, List.mem_of_getElem? he, by simpa using hname⟩

theorem resolve_eq_lookup? {reference : Ref} {parts : TypeReferenceParts}
    (hparts : b.table.typeReference? reference = some parts) (harray : parts.isArray = false)
    (hpredefined : (b.table.token? parts.name).bind TypeId.ofPredefined? = none)
    (hname : b.table.name? parts.name = some name)
    (hnone : ∀ scope ∈ b.table.ancestors reference, typeIn b.table name (some scope) = none) :
    b.resolve reference = b.lookup? name := by
  have hscopes : (b.table.ancestors reference).findSome?
      (fun scope => typeIn b.table name (some scope)) = none :=
    List.findSome?_eq_none_iff.2 hnone
  simp [resolve, hparts, harray, hpredefined, hname, lookupFrom, hscopes]

/-! ## Order -/

/-- Types are numbered inner types first, else in the order in which they start, and names are looked
up in the order of the numbers. -/
structure Ordered (b : Binding) : Prop where
  /-- The type with the lower number comes first. -/
  numbered : ∀ i i' d d', b.declaration? i = some d → b.declaration? i' = some d' →
    i.number < i'.number → b.table.Precedes d d'
  /-- Every type with a name has a number. -/
  numbers : ∀ d name, b.table.isNode NodeKind.isTypeDeclaration (some d) →
    b.table.declaredName? (some d) = some name →
      ∃ i, b.declaration? i = some d ∧ b.typeName? i = some name
  /-- A declared name is found. -/
  found : ∀ i d name, b.declaration? i = some d → b.typeName? i = some name →
    (b.lookup? name).isSome
  /-- What is found has the name and comes before all others that have it. -/
  first : ∀ i name, b.lookup? name = some i → ∃ d, b.declaration? i = some d ∧
    b.typeName? i = some name ∧ ∀ i' d', b.declaration? i' = some d' →
      b.typeName? i' = some name → i' = i ∨ b.table.Precedes d d'
  /-- A name that no scope around a reference declares is looked up. -/
  fallback : ∀ reference parts name, b.table.typeReference? reference = some parts →
    parts.isArray = false → (b.table.token? parts.name).bind TypeId.ofPredefined? = none →
    b.table.name? parts.name = some name →
    (∀ scope ∈ b.table.ancestors reference, typeIn b.table name (some scope) = none) →
      b.resolve reference = b.lookup? name

theorem ordered_ofTable (h : ∀ e ∈ (ofTable t).types, ∀ e' ∈ (ofTable t).types,
    e.declaration < e'.declaration → t.Precedes e.declaration e'.declaration) :
    (ofTable t).Ordered := by
  have hpairs := List.pairwise_iff_getElem.1 (pairwise_types t)
  have hprecedes : ∀ place place' (hl : place < (ofTable t).types.length)
      (hl' : place' < (ofTable t).types.length), place < place' →
        t.Precedes (ofTable t).types[place].declaration (ofTable t).types[place'].declaration :=
    fun place place' hl hl' hlt =>
      h _ (List.getElem_mem hl) _ (List.getElem_mem hl') (hpairs place place' hl hl' hlt)
  constructor
  case numbered =>
    intro i i' d d' hi hi' hlt
    obtain ⟨place, e, rfl, he, rfl⟩ := declaration?_eq_some.1 hi
    obtain ⟨place', e', rfl, he', rfl⟩ := declaration?_eq_some.1 hi'
    obtain ⟨hl, rfl⟩ := List.getElem?_eq_some_iff.1 he
    obtain ⟨hl', rfl⟩ := List.getElem?_eq_some_iff.1 he'
    exact hprecedes place place' hl hl' (Nat.lt_of_add_lt_add_left hlt)
  case numbers =>
    intro d name htype hname
    change t.isNode _ _ at htype
    change t.declaredName? _ = _ at hname
    obtain ⟨e, he, rfl, rfl⟩ := exists_declaredType htype hname
    obtain ⟨place, hplace⟩ := List.mem_iff_getElem?.1 he
    exact ⟨idAt place, declaration?_eq_some.2 ⟨place, e, rfl, hplace, rfl⟩,
      by rw [typeName?_idAt, hplace]; rfl⟩
  case found =>
    exact fun i d name hi hname => lookup?_isSome hi hname
  case first =>
    intro i name hfound
    obtain ⟨place, e, rfl, he, rfl, hfirst⟩ := lookup?_eq_some.1 hfound
    refine ⟨e.declaration, declaration?_eq_some.2 ⟨place, e, rfl, he, rfl⟩,
      by rw [typeName?_idAt, he]; rfl, ?_⟩
    intro i' d' hi' hname'
    obtain ⟨place', e', rfl, he', rfl⟩ := declaration?_eq_some.1 hi'
    rw [typeName?_idAt, he'] at hname'
    obtain ⟨hl, rfl⟩ := List.getElem?_eq_some_iff.1 he
    obtain ⟨hl', rfl⟩ := List.getElem?_eq_some_iff.1 he'
    rcases Nat.eq_or_lt_of_le (hfirst place' _ he' (Option.some.inj hname')) with rfl | hlt
    · exact .inl rfl
    · exact .inr (hprecedes place place' hl hl' hlt)
  case fallback =>
    exact fun reference parts name hparts harray hpredefined hname hnone =>
      resolve_eq_lookup? hparts harray hpredefined hname hnone

/-- Of the types of a text, inner ones come first, and else those that start first. -/
theorem ofText_ordered (text : List Char) : (ofTable (.ofText text)).Ordered := by
  have hroot := SourceFile.root_wellFormed text
  have hsorted := scan_sorted text
  rw [← SourceFile.root_tokens text] at hsorted
  rw [NodeTable.ofText_eq]
  refine ordered_ofTable fun e he e' he' hlt => ?_
  have htype : ∀ {i : Nat},
      (NodeTable.ofTree (SourceFile.ofText text).root).isNode NodeKind.isTypeDeclaration (some i) →
        ∃ u ∈ (SourceFile.ofText text).root.sites none 0, u.index = i ∧
          ∃ k, u.tree.kind = .node k ∧ k.isTypeDeclaration := by
    intro i hi
    obtain ⟨k, hk, hkt⟩ := (Option.any_eq_true _ _).1 hi
    obtain ⟨u, hu, rfl, hkind⟩ := exists_site_of_node hk
    exact ⟨u, hu, rfl, k, hkind, hkt⟩
  obtain ⟨u, hu, hindex, k, hk, hkt⟩ := htype (isType_of_mem_types he)
  obtain ⟨w, hw, hindex', l, hl, hlt'⟩ := htype (isType_of_mem_types he')
  rw [← hindex, ← hindex'] at hlt ⊢
  exact precedes_of_lt hroot (SourceFile.root_startsAtToken text) hsorted hu hw hk hl hkt hlt' hlt

/-- A type in a type of the same name. -/
def nestedText : List Char := "class A\x7bclass A\x7b\x7d\x7d".toList

/-- The inner type has the first number and is found by the name, although the outer one starts
first. -/
theorem nestedText_inner_first :
    (ofTable (.ofText nestedText)).declaration? ⟨100⟩ = some 7 ∧
      (ofTable (.ofText nestedText)).declaration? ⟨101⟩ = some 9 ∧
      (ofTable (.ofText nestedText)).typeName? ⟨101⟩ = some ['A'] ∧
      (ofTable (.ofText nestedText)).lookup? ['A'] = some ⟨100⟩ ∧
      (NodeTable.ofText nestedText).start 9 < (NodeTable.ofText nestedText).start 7 := by
  decide +kernel

end Binding

end Caret
