import Caret.Proofs.Mirroring
import Caret.Proofs.WrittenField
/-!
# Expressions written and read back

An expression whose grouping is explicit is written as the value of a field, with blanks between the
words. If its nesting is allowed, the text is read without a report, and the typed data of the
initializer in the table are those of the expression (`Expression.ofText_mirrors`).

The outline of a tree tells the typed data of its entries, since it tells what fills the slots of a
node (`ShowsAll.fills`, `ShowsAll.lists`). So the induction follows the expression.
-/

namespace Caret

open Tree

namespace NodeTable

variable {root : Tree} {text : List Char} {i : Ref} {s : Slot} {k : NodeKind} {w : Word}
  {words : List Word} {o : Outline} {os : List Outline} {cs : List Child}

/-! ## The entries of an outline -/

/-- The entry stands for a tree with the outline. -/
def Shows (root : Tree) (i : Ref) (o : Outline) : Prop :=
  ∃ u ∈ root.sites none 0, i = some u.index ∧ u.tree.outline = o

/-- The children stand for trees with the outlines. -/
def ShowsAll (root : Tree) : List Child → List Outline → Prop :=
  List.Forall₂ fun c o => c.slot = o.slot ∧ c.kind = o.kind ∧ Shows root (some c.index) o

/-- The outlines are those of the words, in any slots. -/
abbrev Leaves : List Outline → List Word → Prop :=
  List.Forall₂ fun o w => ∃ s, o = .leaf s w

/-- A node holds what its outline says. -/
theorem Shows.node (h : Shows root i (.node s k os)) : ∃ n cs, i = some n ∧
    (ofTree root).node? i = some k ∧ (ofTree root).data i = .ofChildren k cs ∧
      (ofTree root).children n = cs.map (·.index) ∧ ShowsAll root cs os := by
  obtain ⟨u, hu, rfl, ho⟩ := h
  refine ⟨u.index, u.children.map Site.asChild, rfl, ?_⟩
  cases ht : u.tree with
  | leaf slot x =>
    rw [ht] at ho
    cases ho
  | node slot k' span ts =>
    rw [ht] at ho
    obtain ⟨-, rfl, rfl⟩ := Outline.node.inj ho
    refine ⟨by rw [node?_ofTree hu, ht]; rfl, data_of_node hu ht, ?_, ?_⟩
    · rw [children_ofTree hu, List.map_map]
      rfl
    · have hts : ts = u.children.map Site.tree := by rw [Site.map_tree_children, ht]; rfl
      rw [ShowsAll, Tree.outlines_eq_map, hts, List.map_map, List.forall₂_map_left_iff,
        List.forall₂_map_right_iff]
      refine List.forall₂_same.2 fun v hv => ⟨(slot_outline _).symm, (kind_outline _).symm, ?_⟩
      exact ⟨v, Site.mem_sites_of_mem_children hu hv, rfl, rfl⟩

/-- A token is written as its outline says. -/
theorem Shows.spells (htokens : root.tokens = scan text) (h : Shows root i (.leaf s w)) :
    (ofTree root).Spells text i w := by
  obtain ⟨u, hu, rfl, ho⟩ := h
  cases ht : u.tree with
  | node =>
    rw [ht] at ho
    cases ho
  | leaf slot x =>
    rw [ht] at ho
    obtain ⟨-, rfl⟩ := Outline.leaf.inj ho
    have htoken : u.token? = some x := by rw [Site.token?, ht]
    have hx : x ∈ scan text := by
      rw [← htokens, ← filterMap_token_sites none 0]
      exact List.mem_filterMap.2 ⟨u, hu, htoken⟩
    obtain ⟨before, after, htext, hstart⟩ := scan_slice text x hx
    refine ⟨by rw [token?_ofTree hu, htoken]; rfl, ⟨before, after, htext, ?_⟩,
      fun hk => name?_ofTree hu htoken hk⟩
    rw [get?_ofTree hu, Site.entry_of_token htoken, hstart]
    rfl

namespace ShowsAll

/-- A slot is filled by the first tree in it. -/
theorem fills (h : ShowsAll root cs os) (hfind : os.find? (·.slot == s) = some o) :
    Shows root (Child.inSlot cs s) o := by
  induction h with
  | nil => cases hfind
  | @cons c o' cs os hc _ ih =>
    rw [List.find?_cons] at hfind
    rw [Child.inSlot, List.find?_cons, hc.1]
    cases hs : o'.slot == s with
    | true =>
      rw [hs] at hfind
      obtain rfl := Option.some.inj hfind
      exact hc.2.2
    | false =>
      rw [hs] at hfind
      exact ih hfind

theorem inSlot_eq_none (h : ShowsAll root cs os) (hfind : os.find? (·.slot == s) = none) :
    Child.inSlot cs s = none := by
  induction h with
  | nil => rfl
  | @cons c o' cs os hc _ ih =>
    rw [List.find?_cons] at hfind
    rw [Child.inSlot, List.find?_cons, hc.1]
    cases hs : o'.slot == s with
    | true =>
      rw [hs] at hfind
      cases hfind
    | false =>
      rw [hs] at hfind
      exact ih hfind

/-- A list has all trees in its slot, in their order. -/
theorem lists (h : ShowsAll root cs os) (s : Slot) :
    List.Forall₂ (Shows root) (Child.listIn cs s) (os.filter (·.slot == s)) := by
  induction h with
  | nil => exact .nil
  | @cons c o cs os hc _ ih =>
    rw [Child.listIn, List.filter_cons, List.filter_cons, hc.1]
    split
    · exact .cons hc.2.2 ih
    · exact ih

theorem any_kind (h : ShowsAll root cs os) (p : Kind → Bool) :
    cs.any (fun c => p c.kind) = os.any fun o => p o.kind := by
  induction h with
  | nil => rfl
  | cons hc _ ih => rw [List.any_cons, List.any_cons, ih, hc.2.1]

/-- Tokens are written as their outlines say. -/
theorem spells (htokens : root.tokens = scan text) (h : ShowsAll root cs os)
    (hos : Leaves os words) :
    List.Forall₂ ((ofTree root).Spells text) ((cs.map (·.index)).map some) words := by
  rw [List.map_map, List.forall₂_map_left_iff]
  induction h generalizing words with
  | nil =>
    cases hos
    exact .nil
  | cons hc _ ih =>
    obtain - | ⟨⟨s, rfl⟩, hos⟩ := hos
    exact .cons (hc.2.2.spells htokens) (ih hos)

end ShowsAll

/-! ## Parts of expressions -/

/-- A node of tokens only. -/
theorem Shows.consists (htokens : root.tokens = scan text) (h : Shows root i (.node s k os))
    (hos : Leaves os words) :
    (ofTree root).Consists text i k words := by
  obtain ⟨n, cs, rfl, hk, -, hchildren, hall⟩ := h.node
  refine ⟨n, rfl, hk, ?_⟩
  rw [hchildren]
  exact hall.spells htokens hos

theorem Shows.single (htokens : root.tokens = scan text)
    (h : Shows root i ((Expression.single k w).withSlot s)) :
    (ofTree root).Consists text i k [w] :=
  h.consists htokens (.cons ⟨.loose, rfl⟩ .nil)

theorem operation?_of_data {t : NodeTable} (h : t.data i = .ofChildren k cs)
    (hk : k.shape? = some .operation) : t.operation? i =
      some ⟨Child.inSlot cs .left, Child.inSlot cs .operator, Child.inSlot cs .right⟩ := by
  rw [operation?, h, Data.ofChildren, hk]

theorem ofChildren_call (hk : k.shape? = some .call) : Data.ofChildren k cs =
    .call ⟨Child.inSlot cs .expression, Child.inSlot cs .arguments⟩ := by
  rw [Data.ofChildren, hk]

/-! ### Types -/

theorem leaves_map (words : List Word) : Leaves (words.map (.leaf s)) words := by
  rw [Leaves, List.forall₂_map_left_iff]
  exact List.forall₂_same.2 fun w _ => ⟨s, rfl⟩

theorem any_leaves (h : Leaves os words) (k : TokenKind) :
    (os.any fun o => o.kind == .token k) = words.any (·.1 == k) := by
  induction h with
  | nil => rfl
  | cons ho _ ih =>
    obtain ⟨s, rfl⟩ := ho
    rw [List.any_cons, List.any_cons, ih]
    congr 1
    rw [Bool.eq_iff_iff]
    simp [Outline.kind]

/-- What is found at the place of a type is a reference to it. -/
theorem Shows.refers {T : WrittenType} (htokens : root.tokens = scan text)
    (h : Shows root i (T.outline.withSlot s)) : (ofTree root).Refers text i T := by
  obtain ⟨init, w, hw⟩ : ∃ init w, T.name.words = init ++ [w] := by
    obtain ⟨w, more, hw, -⟩ := Grammar.startsWith_type ⟨T.name, false⟩
    have hw : T.name.words = w :: more := (List.append_nil _).symm.trans hw
    rw [hw]
    exact ⟨_, _, (List.dropLast_concat_getLast (by simp)).symm⟩
  have houtline : T.outline.withSlot s = .node s .typeReference
      (init.map (.leaf .loose) ++ .leaf .name w :: T.brackets.map (.leaf .loose)) := by
    simp [WrittenType.outline, Outline.withSlot, Outline.lastInto, hw]
  have hleaves : Leaves (init.map (.leaf .loose) ++
      .leaf .name w :: T.brackets.map (.leaf .loose)) T.words := by
    rw [WrittenType.words, hw, List.append_assoc]
    exact List.rel_append (leaves_map init) (.cons ⟨.name, rfl⟩ (leaves_map T.brackets))
  rw [houtline] at h
  refine ⟨h.consists htokens hleaves, ?_⟩
  obtain ⟨n, cs, rfl, -, hdata, -, hall⟩ := h.node
  refine ⟨⟨Child.inSlot cs .name, cs.any (·.kind == .token .closeBracket)⟩, w,
    by rw [typeReference?, hdata]; rfl, ?_, by rw [hw, List.getLast?_concat], ?_⟩
  · rw [← T.any_closeBracket, ← any_leaves hleaves]
    exact hall.any_kind (· == .token .closeBracket)
  · refine (hall.fills (o := .leaf .name w) ?_).spells htokens
    rw [List.find?_append, List.find?_eq_none.2 fun o ho => by
      obtain ⟨x, -, rfl⟩ := List.mem_map.1 ho
      simp [Outline.slot]]
    rfl

/-! ### Arguments -/

/-- The arguments in a list are those between the commas. -/
theorem filter_commaOutlines (os : List Outline) :
    (commaOutlines (os.map (Outline.withSlot .item))).filter (·.slot == .item) =
      os.map (Outline.withSlot .item) := by
  induction os with
  | nil => rfl
  | cons o os ih =>
    cases os with
    | nil => simp [commaOutlines]
    | cons o' os =>
      rw [List.map_cons] at ih
      rw [List.map_cons, List.map_cons, commaOutlines, List.filter_cons_of_pos (by simp),
        List.filter_cons_of_neg (by simp [Outline.slot]), ih]

/-- The entries of an argument list stand for the arguments. -/
theorem Shows.arguments (h : Shows root i (Expression.argumentOutline os)) :
    (ofTree root).node? i = some .argumentList ∧ ∃ items, (ofTree root).list? i = some items ∧
      List.Forall₂ (Shows root) items (os.map (Outline.withSlot .item)) := by
  obtain ⟨n, cs, rfl, hk, hdata, -, hall⟩ := h.node
  have hlist := hall.lists .item
  rw [List.filter_cons_of_neg (by simp [Outline.slot]), List.filter_append, filter_commaOutlines,
    List.filter_cons_of_neg (by simp [Outline.slot]), List.filter_nil, List.append_nil] at hlist
  exact ⟨hk, _, by rw [list?, hdata]; rfl, hlist⟩

theorem mirrors_all {args : List Expression} {items : List Ref}
    (h : List.Forall₂ (Shows root) items
      ((Expression.outlineAll args).map (Outline.withSlot .item)))
    (hargs : ∀ a ∈ args, ∀ i s, Shows root i (a.outline.withSlot s) →
      (ofTree root).Mirrors text a i) :
    List.Forall₂ ((ofTree root).Mirrors text) args items := by
  induction args generalizing items with
  | nil =>
    cases h
    exact .nil
  | cons a args ih =>
    obtain ⟨ha, hargs⟩ := List.forall_mem_cons.1 hargs
    obtain - | ⟨hi, hitems⟩ := h
    exact .cons (ha _ _ hi) (ih hitems hargs)

/-- The typed data of what is found at the place of an expression are those of the expression. -/
theorem mirrors_of_shows {e : Expression} (htokens : root.tokens = scan text) (he : e.Grouped) :
    ∀ i s, Shows root i (e.outline.withSlot s) → (ofTree root).Mirrors text e i := by
  induction he with
  | name => exact fun i s h => .name (h.single htokens)
  | builtIn => exact fun i s h => .builtIn (h.single htokens)
  | this => exact fun i s h => .this (h.single htokens)
  | base => exact fun i s h => .base (h.single htokens)
  | literal => exact fun i s h => .literal (h.single htokens)
  | parenthesized _ ih =>
    intro i s h
    obtain ⟨n, cs, rfl, hk, hdata, -, hall⟩ := h.node
    exact .parenthesized hk hdata (ih _ .expression (hall.fills (by simp)))
  | signed _ _ ih =>
    intro i s h
    obtain ⟨n, cs, rfl, hk, hdata, -, hall⟩ := h.node
    exact .signed hk (operation?_of_data hdata rfl) (hall.inSlot_eq_none (by simp))
      ((hall.fills rfl).spells htokens) (ih _ .right (hall.fills (by simp)))
  | binary _ _ _ _ ihl ihr =>
    intro i s h
    obtain ⟨n, cs, rfl, hk, hdata, -, hall⟩ := h.node
    exact .binary hk (operation?_of_data hdata rfl) (ihl _ .left (hall.fills (by simp)))
      ((hall.fills (o := .leaf .operator _) (by simp)).spells htokens)
      (ihr _ .right (hall.fills (by simp)))
  | assignment _ _ _ ihl ihr =>
    intro i s h
    obtain ⟨n, cs, rfl, hk, hdata, -, hall⟩ := h.node
    exact .assignment hk (operation?_of_data hdata rfl) (ihl _ .left (hall.fills (by simp)))
      ((hall.fills (o := .leaf .operator _) (by simp)).spells htokens)
      (ihr _ .right (hall.fills (by simp)))
  | access _ _ _ ih =>
    intro i s h
    obtain ⟨n, cs, rfl, hk, hdata, -, hall⟩ := h.node
    exact .access hk (operation?_of_data hdata rfl) (ih _ .left (hall.fills (by simp)))
      ((hall.fills (o := .leaf .operator _) (by simp)).spells htokens)
      (Shows.single (s := .right) htokens (hall.fills (by simp)))
  | call _ _ _ _ ih ihargs =>
    intro i s h
    obtain ⟨n, cs, rfl, hk, hdata, -, hall⟩ := h.node
    obtain ⟨hlist, items, hitems, hargs⟩ := Shows.arguments
      (hall.fills (s := .arguments) (by simp [Expression.argumentOutline]; rfl))
    exact .call hk (hdata.trans (ofChildren_call rfl)) (ih _ .expression (hall.fills (by simp)))
      hlist hitems (mirrors_all hargs ihargs)
  | bareCreation T =>
    intro i s h
    obtain ⟨n, cs, rfl, hk, hdata, -, hall⟩ := h.node
    exact .bareCreation hk (hdata.trans (ofChildren_call rfl))
      (Shows.refers (s := .expression) htokens (hall.fills (by simp)))
      (hall.inSlot_eq_none (by simp))
  | creation _ ih =>
    intro i s h
    obtain ⟨n, cs, rfl, hk, hdata, -, hall⟩ := h.node
    obtain ⟨hlist, items, hitems, hargs⟩ := Shows.arguments
      (hall.fills (s := .arguments) (by simp [Expression.argumentOutline]; rfl))
    exact .creation hk (hdata.trans (ofChildren_call rfl))
      (Shows.refers (s := .expression) htokens (hall.fills (by simp))) hlist hitems
      (mirrors_all hargs ih)

/-! ## A field with a written value -/

/-- The table is that of a class `C` with a field `x` of the type `T`, whose initializer is the
expression `e` and no other. -/
def DeclaresField (t : NodeTable) (text : List Char) (C : Identifier) (T : WrittenType)
    (x : Identifier) (e : Expression) : Prop :=
  ∃ c className f type d name initializer,
    t.list? t.root = some [c] ∧
    t.node? c = some .classDeclaration ∧ t.type? c = some ⟨none, none, className, none, [f]⟩ ∧
    t.Spells text className C.word ∧
    t.node? f = some .fieldDeclaration ∧ t.variableList? f = some ⟨none, none, type, [d]⟩ ∧
    t.Refers text type T ∧
    t.node? d = some .variableDeclarator ∧ t.declarator? d = some ⟨name, initializer⟩ ∧
    t.Spells text name x.word ∧ t.Mirrors text e initializer ∧
      ∀ e', t.Mirrors text e' initializer → e = e'

theorem ShowsAll.lists_one (h : ShowsAll root cs os) (hos : os.filter (·.slot == s) = [o]) :
    ∃ i, Child.listIn cs s = [i] ∧ Shows root i o := by
  have hlist := h.lists s
  rw [hos] at hlist
  generalize Child.listIn cs s = items at hlist
  obtain - | ⟨hi, hnil⟩ := hlist
  cases hnil
  exact ⟨_, rfl, hi⟩

theorem ShowsAll.someIn_eq_none (h : ShowsAll root cs os) (hos : os.filter (·.slot == s) = []) :
    Child.someIn cs s = none := by
  have hlist := h.lists s
  rw [hos] at hlist
  rw [Child.someIn, List.forall₂_nil_right_iff.1 hlist]

/-- What is found at the place of the field. -/
theorem declaresField_of_shows {C x : Identifier} {T : WrittenType} {e : Expression}
    (htokens : root.tokens = scan text) (he : e.Grouped)
    (h : Shows root (ofTree root).root
      (.node s .compilationUnit [classOutline C T x e, .leaf .loose w])) :
    (ofTree root).DeclaresField text C T x e := by
  obtain ⟨n, cs, hn, -, hroot, -, hall⟩ := h.node
  obtain ⟨c, hc, hshow⟩ := hall.lists_one (s := .item) (o := classOutline C T x e)
    (by simp [classOutline])
  obtain ⟨m, ms, rfl, hkind, hclass, -, hmembers⟩ := hshow.node
  obtain ⟨f, hf, hshow⟩ := hmembers.lists_one (s := .member) (o := fieldOutline T x e)
    (by simp [fieldOutline])
  obtain ⟨l, fs, rfl, hkind', hfield, -, hdeclarators⟩ := hshow.node
  obtain ⟨d, hd, hshow⟩ := hdeclarators.lists_one (s := .declarator) (o := declaratorOutline x e)
    (by simp [declaratorOutline])
  obtain ⟨j, ds, rfl, hkind'', hdeclarator, -, hparts⟩ := hshow.node
  have hattributes : Child.someIn ms .attribute = none :=
    hmembers.someIn_eq_none (by simp [fieldOutline])
  have hmodifiers : Child.someIn ms .modifier = none :=
    hmembers.someIn_eq_none (by simp [fieldOutline])
  have hbases : Child.inSlot ms .bases = none := hmembers.inSlot_eq_none (by simp [fieldOutline])
  have hattributes' : Child.someIn fs .attribute = none :=
    hdeclarators.someIn_eq_none (by simp [declaratorOutline])
  have hmodifiers' : Child.someIn fs .modifier = none :=
    hdeclarators.someIn_eq_none (by simp [declaratorOutline])
  have hvalue : (ofTree root).Mirrors text e (Child.inSlot ds .initializer) :=
    mirrors_of_shows htokens he _ .initializer (hparts.fills (by simp))
  refine ⟨_, Child.inSlot ms .name, _, Child.inSlot fs .type, _, Child.inSlot ds .name,
    Child.inSlot ds .initializer, ?_, hkind, ?_, ?_, hkind', ?_, ?_, hkind'', ?_, ?_, hvalue,
    fun _ he' => hvalue.unique he he'⟩
  · rw [list?, hroot]
    exact congrArg some hc
  · simp only [type?, hclass, Data.ofChildren, NodeKind.shape?, hf, hattributes, hmodifiers, hbases]
  · exact (hmembers.fills (o := .leaf .name _) (by simp)).spells htokens
  · simp only [variableList?, hfield, Data.ofChildren, NodeKind.shape?, hd, hattributes',
      hmodifiers']
  · exact Shows.refers (s := .type) htokens (hdeclarators.fills (by simp))
  · rw [declarator?, hdeclarator]
    rfl
  · exact (hparts.fills (o := .leaf .name _) (by simp)).spells htokens

end NodeTable

/-! ## The words stand by themselves -/

section Words

/-- All words stand by themselves. -/
def AllStand (words : List Word) : Prop := ∀ w ∈ words, w.Stands

theorem AllStand.append {words words' : List Word} (h : AllStand words) (h' : AllStand words') :
    AllStand (words ++ words') := fun w hw => (List.mem_append.1 hw).elim (h w) (h' w)

theorem AllStand.cons {w : Word} {words : List Word} (h : w.Stands) (h' : AllStand words) :
    AllStand (w :: words) := List.forall_mem_cons.2 ⟨h, h'⟩

theorem AllStand.nil : AllStand [] := List.forall_mem_nil _

theorem AllStand.commas {parts : List (List Word)} (h : ∀ words ∈ parts, AllStand words) :
    AllStand (commaWords parts) := by
  induction parts with
  | nil => exact .nil
  | cons words parts ih =>
    obtain ⟨hwords, hparts⟩ := List.forall_mem_cons.1 h
    cases parts with
    | nil => exact hwords
    | cons => exact hwords.append (.cons (TokenKind.stands_word (by decide)) (ih hparts))

theorem Identifier.stands (x : Identifier) : x.word.Stands := x.2

theorem TokenKind.stands_of_class {k : TokenKind} (h : k.isPredefinedType ∨ k.isSign ∨
    k.precedence?.isSome ∨ k.isAssignment) : k.word.Stands := by
  refine TokenKind.stands_word ?_
  revert h
  cases k <;> decide

theorem WrittenType.stand (T : WrittenType) : AllStand T.words := by
  obtain ⟨name, isArray⟩ := T
  refine .append ?_ ?_
  · cases name with
    | builtIn k => exact .cons (TokenKind.stands_of_class (.inl k.2)) .nil
    | named first more =>
      refine .cons first.stands fun w hw => ?_
      obtain ⟨x, -, hx⟩ := List.mem_flatMap.1 hw
      have hpart : AllStand [TokenKind.dot.word, x.word] :=
        .cons (TokenKind.stands_word (by decide)) (.cons x.stands .nil)
      exact hpart w hx
  · cases isArray with
    | false => exact .nil
    | true =>
      exact .cons (TokenKind.stands_word (by decide))
        (.cons (TokenKind.stands_word (by decide)) .nil)

theorem Expression.argumentWords_stand {args : List Expression}
    (h : ∀ a ∈ args, AllStand a.words) :
    AllStand (Expression.argumentWords (Expression.wordsAll args)) := by
  rw [Expression.wordsAll_eq_map]
  refine .cons (TokenKind.stands_word (by decide)) (.append (.commas fun words hwords => ?_)
    (.cons (TokenKind.stands_word (by decide)) .nil))
  obtain ⟨a, ha, rfl⟩ := List.mem_map.1 hwords
  exact h a ha

theorem Expression.Grouped.stand {e : Expression} (h : e.Grouped) : AllStand e.words := by
  have hword {k : TokenKind} (hk : k.spelling ≠ []) : k.word.Stands := TokenKind.stands_word hk
  induction h with
  | name x => exact .cons x.stands .nil
  | builtIn k => exact .cons (TokenKind.stands_of_class (.inl k.2.1)) .nil
  | this => exact .cons (hword (by decide)) .nil
  | base => exact .cons (hword (by decide)) .nil
  | literal w => exact .cons w.2.2 .nil
  | parenthesized _ ih =>
    exact .cons (hword (by decide)) (ih.append (.cons (hword (by decide)) .nil))
  | @signed k _ _ _ ih => exact .cons (TokenKind.stands_of_class (.inr (.inl k.2))) ih
  | @binary k _ _ _ _ _ _ ihl ihr =>
    exact ihl.append (.cons (TokenKind.stands_of_class (.inr (.inr (.inl k.2)))) ihr)
  | @assignment k _ _ _ _ _ ihl ihr =>
    exact ihl.append (.cons (TokenKind.stands_of_class (.inr (.inr (.inr k.2)))) ihr)
  | @access _ x _ _ _ ih => exact ih.append (.cons (hword (by decide)) (.cons x.stands .nil))
  | call _ _ _ _ ih ihargs => exact ih.append (argumentWords_stand ihargs)
  | bareCreation T => exact .cons (hword (by decide)) T.stand
  | @creation T _ _ ih => exact .cons (hword (by decide)) (T.stand.append (argumentWords_stand ih))

theorem fieldWords_stand (C : Identifier) (T : WrittenType) (x : Identifier) {e : Expression}
    (he : e.Grouped) : AllStand (fieldWords C T x e) := by
  have hword {k : TokenKind} (hk : k.spelling ≠ []) : k.word.Stands := TokenKind.stands_word hk
  have hhead : AllStand [TokenKind.classKeyword.word, C.word, TokenKind.openBrace.word] :=
    .cons (hword (by decide)) (.cons C.stands (.cons (hword (by decide)) .nil))
  have hname : AllStand [x.word, TokenKind.equals.word] :=
    .cons x.stands (.cons (hword (by decide)) .nil)
  have hend : AllStand [TokenKind.semicolon.word, TokenKind.closeBrace.word] :=
    .cons (hword (by decide)) (.cons (hword (by decide)) .nil)
  exact (((hhead.append T.stand).append hname).append he.stand).append hend

end Words

/-- An expression that is written as the value of a field, with blanks between the words, is read
back: nothing is reported, and the initializer of the field is that expression. -/
theorem Expression.ofText_mirrors {e : Expression} (he : e.Grouped)
    (hn : e.nesting < Grammar.nestingLimit) {C x : Identifier} {T : WrittenType} {text : List Char}
    (h : Spaced (fieldWords C T x e) text) : (SourceFile.ofText text).diagnostics = [] ∧
      (NodeTable.ofText text).DeclaresField text C T x e := by
  have hvalue := (he.readsBack 255 (Nat.le_of_lt_succ hn)).value
  have hbefore : (Grammar.startOf text).Before (fieldWords C T x e) [] :=
    ⟨_, scan_spaced h (fieldWords_stand C T x he), (List.append_nil _).symm⟩
  obtain ⟨ts, hts, htrees, -, hquiet⟩ :=
    Grammar.readsAs_declarations (C := C) (T := T) (x := x) hvalue _ _ hbefore rfl
  refine ⟨by rw [SourceFile.ofText, hquiet]; rfl, ?_⟩
  rw [NodeTable.ofText_eq]
  refine NodeTable.declaresField_of_shows (SourceFile.root_tokens text) he
    (s := .loose) (w := (Token.endOfFile (byteLength text)).word) ?_
  refine ⟨_, Tree.self_mem_sites none 0 _, ?_, ?_⟩
  · rw [NodeTable.root_ofTree, Site.index, Nat.zero_add]
  · rw [SourceFile.ofText, htrees, Tree.outline, Tree.outlines_append, hts]
    rfl

/-- A name of one letter. -/
def letter (c : Char) (h : wordKind [c] = .identifier := by decide) (h' : c.isAlpha := by decide) :
    Identifier :=
  ⟨[c], h ▸ stands_of_letters (by simpa using h')⟩

/-- The value of a field with signs, a call, an assignment and a creation. -/
def product : Expression :=
  .binary ⟨.asterisk, rfl⟩
    (.call (.access (.name (letter 'a')) (letter 'f'))
      [.literal ⟨(.numericLiteral, ['1']), rfl, stands_of_blanks (by decide +kernel)⟩,
        .signed ⟨.minus, rfl⟩ .this])
    (.parenthesized (.assignment ⟨.equals, rfl⟩ (.name (letter 'y'))
      (.creation ⟨.named (letter 'A') [letter 'B'], true⟩ [])))

def productText : List Char :=
  "class C \x7b int x = a . f ( 1 , - this ) * ( y = new A . B [ ] ( ) ) ; \x7d ".toList

theorem Expression.ofText_mirrors_product : product.Grouped ∧
    product.nesting < Grammar.nestingLimit ∧
    Spaced (fieldWords (letter 'C') ⟨.builtIn ⟨.intKeyword, rfl⟩, false⟩ (letter 'x') product)
      productText ∧ (SourceFile.ofText productText).diagnostics = [] ∧
    (NodeTable.ofText productText).DeclaresField productText (letter 'C')
      ⟨.builtIn ⟨.intKeyword, rfl⟩, false⟩ (letter 'x') product := by
  have hgrouped : product.Grouped := by
    refine .binary (.call (.access (.name _) rfl rfl) rfl rfl ?_)
      (.parenthesized (.assignment (.name _) (.creation ?_) (by decide))) (by decide) (by decide)
    · simp only [List.forall_mem_cons]
      exact ⟨.literal _, .signed .this (by decide), by simp⟩
    · simp
  have hnesting : product.nesting < Grammar.nestingLimit := by decide
  have htext : productText =
      (fieldWords (letter 'C') ⟨.builtIn ⟨.intKeyword, rfl⟩, false⟩ (letter 'x') product).flatMap
        fun w => w.2 ++ [' '] := by decide +kernel
  have hspaced : Spaced _ productText := htext ▸ spaced_flatMap _
  exact ⟨hgrouped, hnesting, hspaced, ofText_mirrors hgrouped hnesting hspaced⟩

end Caret
