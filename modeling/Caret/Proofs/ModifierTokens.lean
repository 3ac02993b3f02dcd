import Caret.Proofs.CleanText
import Caret.Proofs.Surroundings
/-!
# Modifiers and the tokens they are written as

The modifiers of an entry are the modifier tokens right below it, wherever the text breaks off: one
that no declaration follows is kept in an incomplete member, and none is passed over as a token that
fits nowhere. The exception are modifiers between the accessors of a property that no `get` or `set`
follows (`parse_accessor_declaration`). They stay behind as tokens of the property, which does not
count them (`NodeTable.ofText_modifiers`).
-/

namespace Caret

open Tree

namespace Pattern

variable {a : Pattern} {s : Slot} {p : TokenKind → Bool} {ts : List Tree}

/-- Tokens of the given kinds occur in no other slot. -/
def keeps (s : Slot) (p : TokenKind → Bool) : Pattern → Bool
  | empty => true
  | one s' test => s' == s || TokenKind.all.all fun k => !(p k && test (.token k))
  | seq a b | alt a b => a.keeps s p && b.keeps s p
  | many a | nonempty a => a.keeps s p

theorem eq_of_allows_keeps {s' : Slot} {k : TokenKind} (hkeeps : a.keeps s p)
    (h : a.allows s' (.token k)) (hk : p k) : s' = s := by
  induction a with
  | empty => cases h
  | one s'' test =>
    simp only [allows, Bool.and_eq_true, beq_iff_eq] at h
    obtain ⟨rfl, htest⟩ := h
    rcases Bool.or_eq_true_iff.1 hkeeps with hs | hall
    · exact eq_of_beq hs
    · have hnone := List.all_eq_true.1 hall k k.mem_all
      simp [hk, htest] at hnone
  | seq a b iha ihb | alt a b iha ihb =>
    simp only [keeps, allows, Bool.and_eq_true, Bool.or_eq_true] at hkeeps h
    exact h.elim (iha hkeeps.1) (ihb hkeeps.2)
  | many a ih | nonempty a ih => exact ih hkeeps h

/-- A token of the given kinds stands in the slot. -/
theorem Covers.slot_eq {t : Tree} {k : TokenKind} (h : a.Covers ts) (hkeeps : a.keeps s p)
    (ht : t ∈ ts) (hk : t.kind = .token k) (hp : p k) : t.slot = s := by
  have hallows := h.allows t ht
  rw [hk] at hallows
  exact eq_of_allows_keeps hkeeps hallows hp

end Pattern

/-- In all nodes but properties, modifiers stand in the slot for modifiers. -/
theorem NodeKind.keeps_modifiers {k : NodeKind} (h : k ≠ .propertyDeclaration) :
    k.pattern.keeps .modifier TokenKind.isModifier := by
  cases k <;> first | rfl | exact absurd rfl h

/-- The children of a property before and behind its name. -/
theorem exists_name_of_property {ts : List Tree}
    (h : (NodeKind.pattern .propertyDeclaration).Covers ts) : ∃ before name after,
      ts = before ++ name :: after ∧ name.kind = .token .identifier ∧ name.slot = .name ∧
        (Pattern.seq Pattern.head Pattern.type).Covers before ∧
          ∀ t ∈ after, t.slot ≠ .modifier := by
  obtain ⟨before, rest, rfl, hbefore, hrest⟩ := Pattern.covers_seq.1 h
  obtain ⟨names, after, rfl, hname, hafter⟩ := Pattern.covers_seq.1 hrest
  obtain ⟨token, rfl, hk⟩ := Pattern.covers_leaf.1 hname
  refine ⟨before, .leaf .name token, after, rfl, ?_, rfl, hbefore, fun t ht hs => ?_⟩
  · rw [Tree.kind, eq_of_beq hk]
  · have hlacks := hafter.lacks (p := (· == .modifier)) rfl t ht
    simp [hs] at hlacks

namespace NodeTable

/-- The second entry stands behind the name of the first, which is a property. -/
def BehindName (t : NodeTable) (i j : Nat) : Prop :=
  ∃ parts n, t.property? (some i) = some parts ∧ parts.name = some n ∧ n < j

section Sites

variable {root : Tree} {u v : Site} {slot : Slot} {k : NodeKind} {span : Span} {ts : List Tree}
  {m : TokenKind}

theorem not_behindName (hu : u ∈ root.sites none 0) (ht : u.tree = .node slot k span ts)
    (hk : k ≠ .propertyDeclaration) (j : Nat) : ¬ (ofTree root).BehindName u.index j := by
  rintro ⟨parts, n, hparts, -⟩
  have hdata : (ofTree root).data (some u.index) = .property parts := by
    unfold property? at hparts
    split at hparts <;> simp_all
  have hshape := Data.shape?_ofChildren k (u.children.map Site.asChild)
  rw [← Site.data_entry ht, ← data_ofTree hu, hdata] at hshape
  cases k <;> first | exact absurd rfl hk | cases hshape

theorem behindName_iff {name : Site} (hu : u ∈ root.sites none 0)
    (ht : u.tree = .node slot .propertyDeclaration span ts)
    (hname : u.children.find? (·.tree.slot == .name) = some name) (j : Nat) :
    (ofTree root).BehindName u.index j ↔ name.index < j := by
  obtain ⟨parts, hparts, hn⟩ : ∃ parts, (ofTree root).property? (some u.index) = some parts ∧
      parts.name = some name.index := by
    rw [property?, data_ofTree hu, Site.data_entry ht]
    refine ⟨_, rfl, ?_⟩
    change Child.inSlot _ .name = _
    rw [Site.inSlot_children, hname]
    rfl
  constructor
  · rintro ⟨parts', n, hparts', hn', hlt⟩
    rw [hparts, Option.some.injEq] at hparts'
    subst hparts'
    rw [hn, Option.some.injEq] at hn'
    exact hn' ▸ hlt
  · exact fun hlt => ⟨parts, name.index, hparts, hn, hlt⟩

/-- The children of a property stand in the table as they do in the tree. -/
theorem exists_children_of_property (hu : u ∈ root.sites none 0)
    (ht : u.tree = .node slot .propertyDeclaration span ts)
    (hc : (NodeKind.pattern .propertyDeclaration).Covers ts) : ∃ before name after,
      u.children = before ++ name :: after ∧
        (∀ v ∈ before, v.index < name.index ∧
          ∀ m, m.isModifier → v.tree.kind = .token m → v.tree.slot = .modifier) ∧
        (∀ v ∈ after, name.index < v.index ∧ v.tree.slot ≠ .modifier) ∧
        (∀ m, m.isModifier → name.tree.kind ≠ .token m) ∧
        ∀ j, (ofTree root).BehindName u.index j ↔ name.index < j := by
  obtain ⟨us, t, vs, rfl, hkind, hslot, hbefore, hafter⟩ := exists_name_of_property hc
  obtain ⟨before, name, after, hsplit, rfl, rfl, rfl, hearly, hlate⟩ := Site.exists_split ht
  refine ⟨before, name, after, hsplit, fun v hv => ⟨?_, fun m hm hk => ?_⟩, fun v hv => ⟨?_, ?_⟩,
    fun m hm hk => ?_, fun j => ?_⟩
  · exact Nat.lt_of_lt_of_le (hearly v hv) name.base_le_index
  · exact hbefore.slot_eq (s := .modifier) (p := TokenKind.isModifier) rfl
      (List.mem_map_of_mem hv) hk hm
  · exact Nat.lt_of_lt_of_le (hlate v hv) v.base_le_index
  · exact hafter v.tree (List.mem_map_of_mem hv)
  · rw [hkind] at hk
    cases hk
    cases hm
  · refine behindName_iff hu ht ?_ j
    have hlacks := hbefore.lacks (p := (· == .name)) rfl
    rw [hsplit, List.find?_append, List.find?_eq_none.2, Option.none_or, List.find?_cons_of_pos]
    · simpa using hslot
    · intro v hv
      simpa using hlacks v.tree (List.mem_map_of_mem hv)

/-- A modifier token right below an entry stands in the slot for modifiers, unless it stands behind
the name of a property. -/
theorem slot_eq_modifier_iff (hroot : root.WellFormed) (hu : u ∈ root.sites none 0)
    (hv : v ∈ u.children) (hm : m.isModifier) (hk : v.tree.kind = .token m) :
    v.tree.slot = .modifier ↔ ¬ (ofTree root).BehindName u.index v.index := by
  have hwell := hroot.of_mem_sites hu
  obtain ⟨slot, k, span, before, after, ht, -⟩ := Site.mem_children.1 hv
  rw [ht] at hwell
  cases hwell with | node hc _ =>
  by_cases hp : k = .propertyDeclaration
  · subst hp
    obtain ⟨early, name, late, hsplit, hearly, hlate, hname, hbehind⟩ :=
      exists_children_of_property hu ht hc
    rw [hbehind]
    rw [hsplit, List.mem_append, List.mem_cons] at hv
    rcases hv with hv | rfl | hv
    · obtain ⟨hlt, hslot⟩ := hearly v hv
      exact iff_of_true (hslot m hm hk) (by omega)
    · exact absurd hk (hname m hm)
    · obtain ⟨hlt, hslot⟩ := hlate v hv
      exact iff_of_false hslot (not_not_intro hlt)
  · refine iff_of_true ?_ (not_behindName hu ht hp _)
    exact hc.slot_eq (NodeKind.keeps_modifiers hp) (by simp) hk hm

end Sites

/-- An entry has a modifier if and only if a token of its kind is right below the entry, and not
behind the name of a property. -/
theorem ofText_modifiers (text : List Char) (i : Nat) (m : TokenKind) (hm : m.isModifier) :
    ((ofText text).modifiers (some i)).has m ↔ ∃ j, (ofText text).HasParent j i ∧
      (ofText text).token? (some j) = some m ∧ ¬ (ofText text).BehindName i j := by
  have hroot := SourceFile.root_wellFormed text
  have hbit : m.modifierBit?.isSome := by
    cases m <;> first | rfl | cases hm
  rw [ofText_eq]
  generalize (SourceFile.ofText text).root = root at *
  constructor
  · intro hhas
    have hget : (ofTree root).get? (some i) ≠ none := by
      intro hnone
      rw [modifiers, hnone] at hhas
      simp at hhas
    obtain ⟨u, hu, rfl⟩ := exists_site_of_get? hget
    rw [has_modifiers hu hbit, List.any_eq_true] at hhas
    obtain ⟨t, ht, hslot⟩ := hhas
    simp only [Bool.and_eq_true, beq_iff_eq] at hslot
    rw [← Site.map_tree_children] at ht
    obtain ⟨v, hv, rfl⟩ := List.mem_map.1 ht
    refine ⟨v.index, parent_of_mem_children hu hv, ?_,
      (slot_eq_modifier_iff hroot hu hv hm hslot.2).1 hslot.1⟩
    rw [token?, kind?_ofTree (Site.mem_sites_of_mem_children hu hv), hslot.2]
    rfl
  · rintro ⟨j, hp, hj, hbehind⟩
    obtain ⟨v, hv, u, hu, rfl, rfl, hc⟩ := exists_site_of_hasParent hp
    have hmem := Site.mem_children.2 hc
    have hk : v.tree.kind = .token m := by
      rw [token?, kind?_ofTree hv, Option.bind_some] at hj
      cases htree : v.tree.kind <;> rw [htree] at hj <;> cases hj
      rfl
    obtain ⟨slot, k, span, before, after, ht, -⟩ := hc
    rw [has_modifiers hu hbit, List.any_eq_true]
    refine ⟨v.tree, by rw [ht, Tree.children]; simp, ?_⟩
    simp [hk, (slot_eq_modifier_iff hroot hu hmem hm hk).2 hbehind]

/-- A class with a property whose second accessor breaks off behind a modifier. -/
def brokenAccessorText : List Char := "static class C\x7bint P\x7bget;static int x;\x7d\x7d".toList

theorem ofText_modifiers_static : TokenKind.staticKeyword.isModifier ∧
    ∃ j, (ofText brokenAccessorText).HasParent j 20 ∧
      (ofText brokenAccessorText).token? (some j) = some .staticKeyword ∧
        ¬ (ofText brokenAccessorText).BehindName 20 j :=
  ⟨rfl, (ofText_modifiers brokenAccessorText 20 .staticKeyword rfl).1 (by decide +kernel)⟩

/-- The modifier behind the accessor is a token of the property and not among its modifiers. -/
theorem modifiers_brokenAccessorText :
    (ofText brokenAccessorText).node? (some 12) = some .propertyDeclaration ∧
    (ofText brokenAccessorText).parent (some 11) = some 12 ∧
    (ofText brokenAccessorText).token? (some 11) = some .staticKeyword ∧
    ((ofText brokenAccessorText).modifiers (some 12)).has .staticKeyword = false := by
  decide +kernel

end NodeTable

end Caret
