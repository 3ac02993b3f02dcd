import Caret.Proofs.Extent
import Caret.Proofs.Preselection
/-!
# The type around an offset

The model (`enclosing_named_type`) goes up from the last token before an offset to the nearest type,
and passes over a type that this token closes (`containing_type_declaration`). What it finds is told
by the text alone: a type surrounds an offset if it starts before the offset and is not over there,
that is if its closing brace, or else the first token behind it, does not start before the offset
(`NodeTable.Surrounds`). A type has one closing brace at most, and that is its last token
(`NodeTable.eq_of_closes`), so the tokens of a type that surrounds an offset go from one before the
offset to one that is not, or the next one is not. The type that is found is the innermost of these
(`Binding.enclosing_innermost`).
-/

namespace Caret

open Pattern Tree

namespace NodeTable

/-! ## What the rule says -/

section Rule

variable (t : NodeTable)

/-- The entry is a closing brace right in a node. -/
def Closes (brace d : Nat) : Prop := t.HasParent brace d ∧ t.token? (some brace) = some .closeBrace

/-- The type starts before an offset and is not over there. -/
def Surrounds (offset d : Nat) : Prop :=
  t.isNode NodeKind.isTypeDeclaration (some d) ∧ ∃ first last, t.Spans d first last ∧
    (∃ i, t.tokens[first]? = some i ∧ t.start i < offset) ∧
    ((∃ brace, t.Closes brace d ∧ offset ≤ t.start brace) ∨
      (∀ brace, ¬t.Closes brace d) ∧ ∃ i, t.tokens[last + 1]? = some i ∧ offset ≤ t.start i)

/-- The type surrounds an offset and is in all the others that do. -/
structure Innermost (offset d : Nat) : Prop where
  surrounds : t.Surrounds offset d
  below : ∀ d', t.Surrounds offset d' → t.Below d d'

/-- The token is in the type, and not as its closing brace. -/
def Encloses (i d : Nat) : Prop :=
  t.isNode NodeKind.isTypeDeclaration (some d) ∧ Relation.TransGen t.HasParent i d ∧ ¬t.Closes i d

end Rule

/-! ## Nearest nodes -/

section Nearest

variable {root : Tree} {i j d : Nat} {p : NodeKind → Bool}

variable (hi : i < (ofTree root).size)

include hi

/-- The nearest node is in all the others of its kind. -/
theorem nearest_eq_some : (ofTree root).nearest (some i) p = some d ↔
    ((ofTree root).isNode p (some d) ∧ Relation.TransGen (ofTree root).HasParent i d) ∧
      ∀ d', (ofTree root).isNode p (some d') → Relation.TransGen (ofTree root).HasParent i d' →
        (ofTree root).Below d d' := by
  have hfound {d : Nat} (h : (ofTree root).nearest (some i) p = some d) :
      ((ofTree root).isNode p (some d) ∧ Relation.TransGen (ofTree root).HasParent i d) ∧
        ∀ d', (ofTree root).isNode p (some d') → Relation.TransGen (ofTree root).HasParent i d' →
          (ofTree root).Below d d' := by
    obtain ⟨hp, before, after, hsplit, hbefore⟩ := List.find?_eq_some_iff_append.1 h
    have hd : Relation.TransGen (ofTree root).HasParent i d :=
      (mem_lineage hi).1 (by rw [hsplit]; simp)
    refine ⟨⟨hp, hd⟩, fun d' hp' hd' => below_of_le hd.to_reflTransGen hd'.to_reflTransGen ?_⟩
    rcases mem_or_le_of_lineage hsplit ((mem_lineage hi).2 hd') with hmem | hle
    · simpa [hp'] using hbefore d' hmem
    · exact hle
  refine ⟨hfound, fun ⟨⟨hp, hd⟩, hall⟩ => ?_⟩
  cases h : (ofTree root).nearest (some i) p with
  | none =>
    have hnone := List.find?_eq_none.1 h d ((mem_lineage hi).2 hd)
    exact absurd hp hnone
  | some d' =>
    obtain ⟨⟨hp', hd'⟩, hall'⟩ := hfound h
    rw [Nat.le_antisymm (le_of_below (hall d' hp' hd')) (le_of_below (hall' d hp hd))]

theorem nearest_eq_none : (ofTree root).nearest (some i) p = none ↔
    ∀ d, (ofTree root).isNode p (some d) → ¬Relation.TransGen (ofTree root).HasParent i d := by
  rw [nearest, List.find?_eq_none]
  simp only [mem_lineage hi]
  exact ⟨fun h d hp hd => h d hd hp, fun h d hd hp => h d hp hd⟩

end Nearest

/-! ## The type that is found -/

section Found

variable {root : Tree} {i d d' : Nat}

/-- What a closing brace is in, but not as such, is around the type that it closes. -/
theorem encloses_of_closes (hcloses : (ofTree root).Closes i d) : (ofTree root).Encloses i d' ↔
    (ofTree root).isNode NodeKind.isTypeDeclaration (some d') ∧
      Relation.TransGen (ofTree root).HasParent d d' := by
  obtain ⟨hparent, hbrace⟩ := hcloses
  have honly {b : Nat} (h : (ofTree root).HasParent i b) : b = d :=
    Option.some.inj (h.symm.trans hparent)
  refine and_congr_right fun _ => ⟨fun ⟨hbelow, hnot⟩ => ?_, fun h => ⟨.head hparent h, ?_⟩⟩
  · obtain ⟨b, hb, hbelow⟩ := Relation.TransGen.head'_iff.1 hbelow
    obtain rfl := honly hb
    rcases Relation.reflTransGen_iff_eq_or_transGen.1 hbelow with rfl | h
    · exact absurd ⟨hparent, hbrace⟩ hnot
    · exact h
  · rintro ⟨hparent', -⟩
    obtain rfl := honly hparent'
    exact Nat.lt_irrefl _ (lt_of_transGen h)

variable (hsh : (ofTree root).Shallow)

include hsh

theorem containingType_eq : (ofTree root).containingType (some i) =
    let d := (ofTree root).nearest (some i) NodeKind.isTypeDeclaration
    if (ofTree root).token? (some i) == some .closeBrace && (ofTree root).parent (some i) == d then
      (ofTree root).nearest d NodeKind.isTypeDeclaration
    else d := by
  simp only [← nodeAbove_eq_nearest hsh]
  rfl

/-- From a closing brace on, the type is found that is around the one it closes. -/
theorem containingType_of_closes (htype : (ofTree root).isNode NodeKind.isTypeDeclaration (some d))
    (hcloses : (ofTree root).Closes i d) : (ofTree root).containingType (some i) =
      (ofTree root).nearest (some d) NodeKind.isTypeDeclaration := by
  obtain ⟨hparent, hbrace⟩ := hcloses
  have hnearest : (ofTree root).nearest (some i) NodeKind.isTypeDeclaration = some d := by
    rw [nearest_of_parent hparent, if_pos htype]
  rw [containingType_eq hsh, hnearest, hbrace, show (ofTree root).parent (some i) = some d from hparent]
  simp

/-- From any other token on, the type around the token is found. -/
theorem containingType_of_not_closes (hi : i < (ofTree root).size)
    (hopen : ∀ d, (ofTree root).isNode NodeKind.isTypeDeclaration (some d) →
      ¬(ofTree root).Closes i d) : (ofTree root).containingType (some i) =
        (ofTree root).nearest (some i) NodeKind.isTypeDeclaration := by
  rw [containingType_eq hsh]
  dsimp only
  split
  · rename_i hbrace
    rw [Bool.and_eq_true, beq_iff_eq, beq_iff_eq] at hbrace
    cases hnearest : (ofTree root).nearest (some i) NodeKind.isTypeDeclaration with
    | none => rw [nearest, lineage_none]; rfl
    | some d =>
      have htype := ((nearest_eq_some hi).1 hnearest).1.1
      exact absurd ⟨hbrace.2.trans hnearest, hbrace.1⟩ (hopen d htype)
  · rfl

/-- The type that is found from a token on is the nearest one around an entry: the token, or the type
that it closes. -/
theorem exists_containingType (hi : i < (ofTree root).size) : ∃ j < (ofTree root).size,
    (ofTree root).containingType (some i) =
      (ofTree root).nearest (some j) NodeKind.isTypeDeclaration ∧
    ∀ d, (ofTree root).Encloses i d ↔ (ofTree root).isNode NodeKind.isTypeDeclaration (some d) ∧
      Relation.TransGen (ofTree root).HasParent j d := by
  by_cases hcloses : ∃ d, (ofTree root).isNode NodeKind.isTypeDeclaration (some d) ∧
      (ofTree root).Closes i d
  · obtain ⟨d, htype, hcloses⟩ := hcloses
    exact ⟨d, mem_size_of_hasParent hcloses.1, containingType_of_closes hsh htype hcloses,
      fun _ => encloses_of_closes hcloses⟩
  · exact ⟨i, hi, containingType_of_not_closes hsh hi fun d htype h => hcloses ⟨d, htype, h⟩,
      fun d => and_congr_right fun htype => and_iff_left fun h => hcloses ⟨d, htype, h⟩⟩

theorem containingType_eq_some (hi : i < (ofTree root).size) :
    (ofTree root).containingType (some i) = some d ↔
      (ofTree root).Encloses i d ∧ ∀ d', (ofTree root).Encloses i d' → (ofTree root).Below d d' := by
  obtain ⟨j, hj, hfound, hencloses⟩ := exists_containingType hsh hi
  rw [hfound, nearest_eq_some hj]
  simp only [hencloses, and_imp]

theorem containingType_eq_none (hi : i < (ofTree root).size) :
    (ofTree root).containingType (some i) = none ↔ ∀ d, ¬(ofTree root).Encloses i d := by
  obtain ⟨j, hj, hfound, hencloses⟩ := exists_containingType hsh hi
  rw [hfound, nearest_eq_none hj]
  simp only [hencloses, not_and]

end Found

/-! ## Where types end -/

section Ends

variable {root : Tree} {i d first last : Nat}

theorem token?_of_isNode {t : NodeTable} {p : NodeKind → Bool} {i : Ref} (h : t.isNode p i) :
    t.token? i = none := by
  unfold isNode node? at h
  unfold token?
  cases hk : t.kind? i with
  | none => rfl
  | some k =>
    rw [hk] at h
    cases k with
    | token | other => cases h
    | node => rfl

/-- The entries of the tokens tell where the tokens start. -/
theorem exists_token_of_place {n : Nat} (h : (ofTree root).tokens[n]? = some i) :
    ∃ x, root.tokens[n]? = some x ∧ (ofTree root).start i = x.start ∧
      (ofTree root).token? (some i) = some x.kind := by
  obtain ⟨s, hs, x, rfl, ht, hx⟩ := exists_leafSite_of_place h
  have hstart := start_of_place hx
  rw [h, Option.map_some] at hstart
  exact ⟨_, hx, Option.some.inj hstart, by rw [token?_ofTree hs, ht]; rfl⟩

theorem lt_size_of_place {n : Nat} (h : (ofTree root).tokens[n]? = some i) :
    i < (ofTree root).size := by
  obtain ⟨x, -, -, hx⟩ := exists_token_of_place h
  obtain ⟨kind, hkind, -⟩ := Option.bind_eq_some_iff.1 hx
  obtain ⟨s, hs, rfl, -⟩ := exists_site_of_kind hkind
  exact index_lt_size hs

/-- Every token has its place. -/
theorem exists_place_of_token {k : TokenKind} (h : (ofTree root).token? (some i) = some k) :
    ∃ n : Nat, (ofTree root).tokens[n]? = some i := by
  have hmem : i ∈ (ofTree root).tokens.toList := by
    obtain ⟨kind, hkind, -⟩ := Option.bind_eq_some_iff.1 h
    obtain ⟨s, hs, rfl, -⟩ := exists_site_of_kind hkind
    rw [token?_ofTree hs] at h
    obtain ⟨x, hx, -⟩ := Option.map_eq_some_iff.1 h
    rw [tokens_ofTree]
    exact List.mem_map_of_mem (List.mem_filter.2 ⟨hs, by rw [hx]; rfl⟩)
  obtain ⟨n, hn⟩ := List.mem_iff_getElem?.1 hmem
  exact ⟨n, by rw [← Array.getElem?_toList]; exact hn⟩

theorem lt_of_place_lt {n m : Nat} {j : Nat} (hi : (ofTree root).tokens[n]? = some i)
    (hj : (ofTree root).tokens[m]? = some j) (h : n < m) : i < j := by
  have hascending : (ofTree root).tokens.toList.Pairwise (· < ·) := by
    rw [tokens_eq_filter, Array.toList_filter, Array.toList_range]
    exact List.pairwise_lt_range.filter _
  rw [← Array.getElem?_toList] at hi hj
  obtain ⟨hn, rfl⟩ := List.getElem?_eq_some_iff.1 hi
  obtain ⟨hm, rfl⟩ := List.getElem?_eq_some_iff.1 hj
  exact List.pairwise_iff_getElem.1 hascending n m hn hm h

variable (hroot : root.WellFormed)
  (htype : (ofTree root).isNode NodeKind.isTypeDeclaration (some d))

include hroot htype

/-- The entry of a type stands right behind that of its closing brace. -/
theorem index_of_closes {brace : Nat} (h : (ofTree root).Closes brace d) : brace + 1 = d := by
  obtain ⟨hparent, hbrace⟩ := h
  obtain ⟨s, hs, u, hu, rfl, rfl, slot, k, span, before, after, htree, -, hbase⟩ :=
    exists_site_of_hasParent hparent
  rw [isNode, node?_ofTree hu, htree] at htype
  have hfinishes : k.pattern.finishes (.token .closeBrace) := by
    have hk : k.isTypeDeclaration := htype
    cases k <;> first | rfl | cases hk
  have hkind : s.tree.kind = .token .closeBrace := by
    rw [token?_ofTree hs, Site.token?] at hbrace
    cases ht : s.tree with
    | leaf slot x =>
      rw [ht] at hbrace
      exact congrArg Kind.token (Option.some.inj hbrace)
    | node => rw [ht] at hbrace; cases hbrace
  have hw := hroot.of_mem_sites hu
  rw [htree] at hw
  cases hw with | node covers _ =>
  obtain rfl := covers.finishes hfinishes rfl hkind
  have hsize : u.tree.size = Tree.sizes before + s.tree.size + 1 := by
    rw [htree]
    simp [Tree.size, sizes_append, Tree.sizes]
  have hpos := s.tree.size_pos
  unfold Site.index
  omega

/-- The closing brace of a type is its last token. -/
theorem eq_of_closes {brace : Nat} (hspans : (ofTree root).Spans d first last)
    (h : (ofTree root).Closes brace d) : (ofTree root).tokens[last]? = some brace := by
  obtain ⟨n, hn⟩ := exists_place_of_token h.2
  obtain ⟨j, hj, -⟩ := Option.map_eq_some_iff.1 hspans.stop
  have hplace := (hspans.below n brace hn).1 (.single h.1)
  rcases Nat.lt_or_eq_of_le hplace.2 with hlt | rfl
  · -- nothing stands between the brace and the type
    have hle := le_of_below ((hspans.below last j hj).2 ⟨hspans.le, Nat.le_refl _⟩)
    have hless := lt_of_place_lt hn hj hlt
    have hindex := index_of_closes hroot htype h
    obtain rfl : j = d := by omega
    obtain ⟨x, -, -, hx⟩ := exists_token_of_place hj
    rw [token?_of_isNode htype] at hx
    cases hx
  · exact hn

omit htype in
/-- Only the file has the end of the file in it. -/
theorem node?_of_endOfFile {j : Nat} (h : (ofTree root).token? (some i) = some .endOfFile)
    (hparent : (ofTree root).HasParent i j) :
    (ofTree root).node? (some j) = some .compilationUnit := by
  obtain ⟨k, slot, kind, hk, hkind, hallows⟩ := allows_of_hasParent hroot hparent
  rw [hk]
  by_contra hne
  have hexcludes : k.pattern.excludes (.token .endOfFile) := by
    cases k <;> first | rfl | exact absurd rfl hne
  rw [token?, hkind, Option.bind_some] at h
  cases kind with
  | token =>
    obtain rfl := Option.some.inj h
    rw [allows_eq_false hexcludes] at hallows
    cases hallows
  | node | other => cases h

omit htype in
/-- The file is in nothing else. -/
theorem eq_of_below_unit {j : Nat} (h : (ofTree root).node? (some i) = some .compilationUnit)
    (hbelow : (ofTree root).Below i j) : i = j := by
  rcases Relation.ReflTransGen.cases_head hbelow with rfl | ⟨p, hparent, -⟩
  · rfl
  · rcases parent_cases hroot h with ⟨hnone, -⟩ | ⟨k, slot, -, hallows⟩
    · rw [HasParent, hnone] at hparent
      cases hparent
    · have hexcludes : k.pattern.excludes (.node .compilationUnit) := by cases k <;> rfl
      rw [allows_eq_false hexcludes] at hallows
      cases hallows

/-- The end of the file is in no type. -/
theorem not_below_of_endOfFile (h : (ofTree root).token? (some i) = some .endOfFile) :
    ¬(ofTree root).Below i d := by
  intro hbelow
  rcases Relation.ReflTransGen.cases_head hbelow with rfl | ⟨j, hparent, hbelow⟩
  · rw [token?_of_isNode htype] at h
    cases h
  · have hunit := node?_of_endOfFile hroot h hparent
    obtain rfl := eq_of_below_unit hroot hunit hbelow
    rw [isNode, hunit] at htype
    cases htype

end Ends

/-! ## Around an offset -/

section Text

variable {text : List Char} {root : Tree} {offset n i d : Nat}

section Root

variable (heq : (SourceFile.ofText text).root = root)

include heq

theorem exists_spans_of_type
    (htype : (ofTree root).isNode NodeKind.isTypeDeclaration (some d)) :
    ∃ first last, (ofTree root).Spans d first last := by
  subst heq
  obtain ⟨k, hk, hkt⟩ := (Option.any_eq_true _ _).1 htype
  obtain ⟨u, hu, rfl, hkind⟩ := exists_site_of_node hk
  obtain ⟨slot, span, ts, htree⟩ := eq_node_of_kind hkind
  have hne := tokens_ne_nil_of_type (SourceFile.root_wellFormed text) hu hkind hkt
  rw [htree] at hne
  exact exists_spans text hu htree hne

/-- Behind a type there is a token, be it the end of the file. -/
theorem exists_next_place {first last : Nat}
    (htype : (ofTree root).isNode NodeKind.isTypeDeclaration (some d))
    (hspans : (ofTree root).Spans d first last) :
    ∃ j, (ofTree root).tokens[last + 1]? = some j := by
  subst heq
  obtain ⟨j, hj, -⟩ := Option.map_eq_some_iff.1 hspans.stop
  obtain ⟨x, hx, -, hkind⟩ := exists_token_of_place hj
  by_contra hnone
  have hsize : (ofTree (SourceFile.ofText text).root).tokens.size ≤ last + 1 :=
    Nat.le_of_not_lt fun hlt => hnone ⟨_, Array.getElem?_eq_getElem hlt⟩
  rw [size_tokens, SourceFile.root_tokens, scan_eq_concat, List.length_append,
    List.length_singleton] at hsize
  rw [SourceFile.root_tokens, scan_eq_concat, List.getElem?_append_right (by omega)] at hx
  have hend : x.kind = .endOfFile := by
    rw [List.mem_singleton.1 (List.mem_of_getElem? hx)]
    rfl
  rw [hend] at hkind
  exact not_below_of_endOfFile (SourceFile.root_wellFormed text) htype hkind
    ((hspans.below last j hj).2 ⟨hspans.le, Nat.le_refl _⟩)

section Places

variable (hplace : (ofTree root).tokens[n]? = some i)
  (hbefore : ∀ m j : Nat, (ofTree root).tokens[m]? = some j →
    ((ofTree root).start j < offset ↔ m ≤ n))

include hplace hbefore

theorem encloses_of_surrounds (h : (ofTree root).Surrounds offset d) :
    (ofTree root).Encloses i d := by
  have hroot := heq ▸ SourceFile.root_wellFormed text
  obtain ⟨htype, first, last, hspans, ⟨f, hf, hstart⟩, hend⟩ := h
  have hinside (hlast : n ≤ last) : Relation.TransGen (ofTree root).HasParent i d := by
    have hbelow := (hspans.below n i hplace).2 ⟨(hbefore _ _ hf).1 hstart, hlast⟩
    rcases Relation.reflTransGen_iff_eq_or_transGen.1 hbelow with rfl | hbelow
    · obtain ⟨x, -, -, hx⟩ := exists_token_of_place hplace
      rw [token?_of_isNode htype] at hx
      cases hx
    · exact hbelow
  have hlt {m j : Nat} (hj : (ofTree root).tokens[m]? = some j)
      (hle : offset ≤ (ofTree root).start j) : n < m :=
    Nat.lt_of_not_le fun h => Nat.not_lt.2 hle ((hbefore _ _ hj).2 h)
  rcases hend with ⟨brace, hcloses, hle⟩ | ⟨hopen, j, hj, hle⟩
  · have hlast := eq_of_closes hroot htype hspans hcloses
    refine ⟨htype, hinside (Nat.le_of_lt (hlt hlast hle)), fun h => ?_⟩
    -- there is one closing brace only
    have hi := eq_of_closes hroot htype hspans h
    obtain rfl : i = brace := Option.some.inj (hi.symm.trans hlast)
    exact Nat.lt_irrefl _ (hlt hplace hle)
  · exact ⟨htype, hinside (Nat.le_of_lt_succ (hlt hj hle)), hopen i⟩

theorem surrounds_of_encloses (h : (ofTree root).Encloses i d) :
    (ofTree root).Surrounds offset d := by
  have hroot := heq ▸ SourceFile.root_wellFormed text
  obtain ⟨htype, hbelow, hopen⟩ := h
  obtain ⟨first, last, hspans⟩ := exists_spans_of_type heq htype
  obtain ⟨hfirst, hlast⟩ := (hspans.below n i hplace).1 hbelow.to_reflTransGen
  obtain ⟨f, hf, -⟩ := Option.map_eq_some_iff.1 hspans.start
  refine ⟨htype, first, last, hspans, ⟨f, hf, (hbefore _ _ hf).2 hfirst⟩, ?_⟩
  by_cases hcloses : ∃ brace, (ofTree root).Closes brace d
  · obtain ⟨brace, hcloses⟩ := hcloses
    have hbrace := eq_of_closes hroot htype hspans hcloses
    refine .inl ⟨brace, hcloses, Nat.le_of_not_lt fun hlt => hopen ?_⟩
    obtain rfl : n = last := Nat.le_antisymm hlast ((hbefore _ _ hbrace).1 hlt)
    obtain rfl : i = brace := Option.some.inj (hplace.symm.trans hbrace)
    exact hcloses
  · obtain ⟨j, hj⟩ := exists_next_place heq htype hspans
    refine .inr ⟨fun brace h => hcloses ⟨brace, h⟩, j, hj, Nat.le_of_not_lt fun hlt => ?_⟩
    have := (hbefore _ _ hj).1 hlt
    omega

/-- The types that surround an offset are those around the last token before it. -/
theorem surrounds_iff : (ofTree root).Surrounds offset d ↔ (ofTree root).Encloses i d :=
  ⟨encloses_of_surrounds heq hplace hbefore, surrounds_of_encloses heq hplace hbefore⟩

end Places

end Root

/-- The type that is found from the last token before an offset is the innermost one that surrounds
the offset. -/
theorem containingType_tokenBefore (hsh : (ofText text).Shallow) (offset : Nat) :
    (∀ d, (ofText text).containingType ((ofText text).tokenBefore offset) = some d ↔
      (ofText text).Innermost offset d) ∧
    ((ofText text).containingType ((ofText text).tokenBefore offset) = none ↔
      ∀ d, ¬(ofText text).Surrounds offset d) := by
  rw [ofText_eq] at hsh ⊢
  rcases tokenBefore_places (SourceFile.root_sorted text) offset with
    ⟨hnone, hlate⟩ | ⟨n, i, hplace, hfound, hbefore⟩
  · have hfar (d : Nat) : ¬(ofTree (SourceFile.ofText text).root).Surrounds offset d := by
      rintro ⟨-, first, last, -, ⟨f, hf, hstart⟩, -⟩
      obtain ⟨x, hx, heq, -⟩ := exists_token_of_place hf
      have := hlate x (List.mem_of_getElem? hx)
      rw [heq] at hstart
      omega
    have hnotype : (ofTree (SourceFile.ofText text).root).containingType
        ((ofTree (SourceFile.ofText text).root).tokenBefore offset) = none := by
      rw [hnone, containingType_eq_nearest hsh (by simp [token?, kind?, get?]), nearest,
        lineage_none]
      rfl
    refine ⟨fun d => ?_, iff_of_true hnotype hfar⟩
    rw [hnotype]
    exact iff_of_false (by simp) fun h => hfar d h.surrounds
  · have hi : i < (ofTree (SourceFile.ofText text).root).size := lt_size_of_place hplace
    have hiff (d : Nat) : (ofTree (SourceFile.ofText text).root).Surrounds offset d ↔
        (ofTree (SourceFile.ofText text).root).Encloses i d := by
      refine surrounds_iff rfl hplace fun m j hj => ?_
      obtain ⟨x, hx, heq, -⟩ := exists_token_of_place hj
      rw [heq]
      exact hbefore m x hx
    rw [hfound]
    refine ⟨fun d => ?_, ?_⟩
    · rw [containingType_eq_some hsh hi]
      simp only [← hiff]
      exact ⟨fun h => ⟨h.1, h.2⟩, fun h => ⟨h.surrounds, h.below⟩⟩
    · rw [containingType_eq_none hsh hi]
      simp only [← hiff]

end Text

end NodeTable

namespace Binding

open NodeTable

/-- The type around an offset is the innermost one that surrounds it, if that has a name. -/
theorem enclosing_innermost (text : List Char) (hsh : (ofText text).Shallow) (offset : Nat)
    {r : RequestState} (hr : r.Untroubled) : ∃ answer,
      ((ofTable (.ofText text)).model.enclosing offset r).1 = .ok answer ∧
      (∀ id, answer = some id ↔ ∃ d, (ofText text).Innermost offset d ∧
        (ofTable (.ofText text)).declaration? id = some d) ∧
      (answer = none ↔ (∀ d, ¬(ofText text).Surrounds offset d) ∨
        ∃ d, (ofText text).Innermost offset d ∧ (ofText text).declaredName? (some d) = none) := by
  obtain ⟨hsome, hnone⟩ := containingType_tokenBefore hsh offset
  refine ⟨_, (enclosing_answers _ offset r hr).1, fun id => ?_, ?_⟩
  · rw [enclosing_eq_some rfl]
    simp only [hsome]
  · rw [enclosing_eq, ← hnone]
    cases htype : (ofText text).containingType ((ofText text).tokenBefore offset) with
    | none => exact iff_of_true ofDeclaration?_none (.inl rfl)
    | some d =>
      have hinnermost := (hsome d).1 htype
      rw [ofDeclaration?_eq_none hinnermost.surrounds.1]
      refine ⟨fun h => .inr ⟨d, hinnermost, h⟩, ?_⟩
      rintro (h | ⟨d', hinnermost', h⟩)
      · cases h
      · rw [(hsome d').2 hinnermost'] at htype
        obtain rfl := Option.some.inj htype
        exact h

/-- A type that is closed in another one. -/
def closedInside : List Char := "class A\x7bclass B\x7b\x7d int x;".toList

/-- Behind the inner type the outer one is around, which comes second among the types. -/
theorem enclosing_innermost_outer : ∃ d, (ofText closedInside).Innermost 19 d ∧
    (ofTable (.ofText closedInside)).declaration? (idAt 1) = some d := by
  obtain ⟨answer, hanswer, hsome, -⟩ := enclosing_innermost closedInside
    (shallow_of_size_le (by decide +kernel)) 19 RequestState.untroubled_quiet
  rw [(enclosing_answers _ _ _ RequestState.untroubled_quiet).1] at hanswer
  refine (hsome _).1 ?_
  rw [← Except.ok.inj hanswer]
  decide +kernel

end Binding

end Caret
