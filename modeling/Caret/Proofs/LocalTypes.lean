import Caret.Proofs.Consumption
import Caret.Proofs.Grouping
/-!
# The types of locals and fields

Where a member may stand, a type and a name behind it tell a field. Where a statement may stand, two
or three tokens tell a local variable (`is_local_declaration_start`): a built-in type, also as an
array, or a name of one part. So `T x = e;` reads as a field for every type `T`, and as a local
variable with the same type for these types only; for an array of a named type, and for a name of
several parts, it reads as an expression that breaks off behind the name (`local_of_field`).
-/

namespace Caret

open Caret.Parser

/-! ## What a type reference says -/

namespace Tree

/-- What is written in a leaf. -/
def word? : Tree → Option Word
  | leaf _ x => some x.word
  | node .. => none

/-- The name that a type reference says. -/
def typeWord? (t : Tree) : Option Word := (t.children.find? (·.slot == .name)).bind word?

/-- The type reference says an array. -/
def isArray (t : Tree) : Bool := t.children.any (·.kind == .token .closeBracket)

@[simp] theorem typeWord?_withSlot (s : Slot) (t : Tree) :
    (t.withSlot s).typeWord? = t.typeWord? := by
  simp [typeWord?]

@[simp] theorem isArray_withSlot (s : Slot) (t : Tree) : (t.withSlot s).isArray = t.isArray := by
  simp [isArray]

end Tree

namespace NodeTable

/-- What a type reference says in the table is what its tree says. -/
theorem typeReference?_ofTree {root : Tree} {u : Site} (hu : u ∈ root.sites none 0)
    (hk : u.tree.kind = .node .typeReference) : ∃ parts,
      (ofTree root).typeReference? (some u.index) = some parts ∧
      parts.isArray = u.tree.isArray ∧
      (ofTree root).token? parts.name = u.tree.typeWord?.map Prod.fst ∧
      ∀ text, u.tree.typeWord? = some (.identifier, text) →
        (ofTree root).name? parts.name = some (Data.plainName text) := by
  obtain ⟨slot, span, ts, htree⟩ := Tree.eq_node_of_kind hk
  refine ⟨⟨Child.inSlot (u.children.map Site.asChild) .name,
    (u.children.map Site.asChild).any (·.kind == .token .closeBracket)⟩, ?_, ?_, ?_, ?_⟩
  · rw [typeReference?, data_of_node hu htree]
    rfl
  · rw [Tree.isArray, ← Site.map_tree_children, List.any_map, List.any_map]
    rfl
  · rw [token?, kind?_inSlot hu, Tree.typeWord?]
    cases u.tree.children.find? (·.slot == .name) with
    | none => rfl
    | some t => cases t <;> rfl
  · intro text htext
    rw [Tree.typeWord?, Site.find?_children] at htext
    change (ofTree root).name? (Child.inSlot _ _) = _
    rw [Site.inSlot_children]
    cases hfind : u.children.find? (·.tree.slot == .name) with
    | none => rw [hfind] at htext; cases htext
    | some v =>
      rw [hfind] at htext
      have hv := Site.mem_sites_of_mem_children hu (List.mem_of_find?_eq_some hfind)
      cases htree : v.tree with
      | node => rw [Option.map_some, htree] at htext; cases htext
      | leaf slot x =>
        rw [Option.map_some, htree] at htext
        have hword : x.word = (.identifier, text) := Option.some.inj htext
        have hkind : x.kind = .identifier := congrArg Prod.fst hword
        have hx : x.text = text := congrArg Prod.snd hword
        have htoken : v.token? = some x := by rw [Site.token?, htree]
        rw [Option.map_some, name?_ofTree hv htoken hkind, hx]

end NodeTable

namespace Grammar

variable {c : Cursor} {name brackets T e : List Word} {x : Token} {rest r : List Token}

theorem typeWord?_typeTree (span : Span) {name : List Token} (h : name ≠ [])
    (brackets : List Token) : (typeTree span name brackets).typeWord? = name.getLast?.map Token.word := by
  obtain ⟨init, x, rfl⟩ := List.eq_nil_or_concat name |>.resolve_left h
  have hnone : (init.map (Tree.leaf .loose)).find? (·.slot == .name) = none := by
    rw [List.find?_eq_none]
    intro t ht
    obtain ⟨y, -, rfl⟩ := List.mem_map.1 ht
    simp [Tree.slot]
  rw [Tree.typeWord?, typeTree, Tree.children, List.concat_eq_append, List.map_append,
    List.map_singleton, Tree.lastInto_concat, List.append_assoc, List.find?_append, hnone]
  simp [Tree.withSlot, Tree.slot, Tree.word?]

theorem isArray_typeTree (span : Span) {name : List Token} (h : name ≠ []) (brackets : List Token) :
    (typeTree span name brackets).isArray = (name ++ brackets).any (·.kind == .closeBracket) := by
  obtain ⟨init, x, rfl⟩ := List.eq_nil_or_concat name |>.resolve_left h
  have hbeq (k : TokenKind) : (Kind.token k == .token .closeBracket) = (k == .closeBracket) := by
    rw [Bool.eq_iff_iff]
    simp
  rw [Tree.isArray, typeTree, Tree.children, List.concat_eq_append, List.map_append,
    List.map_singleton, Tree.lastInto_concat]
  simp [Tree.withSlot, Tree.kind, List.any_map, Function.comp_def, hbeq]

theorem map_fst_words (ts : List Token) :
    (ts.map Token.word).map Prod.fst = ts.map Token.kind := by
  rw [List.map_map]
  rfl

theorem ne_nil_of_isTypeName {ks : List TokenKind} (h : IsTypeName ks) : ks ≠ [] := by
  rcases h with ⟨k, rfl, -⟩ | ⟨parts, rfl, -⟩ <;> simp

/-- Before a name the words of a type are read as that type. -/
theorem type_consumes (hname : IsTypeName (name.map Prod.fst))
    (hbrackets : IsBrackets (brackets.map Prod.fst)) (hc : c.Before (name ++ brackets) (x :: rest))
    (hx : x.kind = .identifier) : ∃ u, Consumes typeReference c [u] (x :: rest) ∧
      u.kind = .node .typeReference ∧ u.typeWord? = name.getLast? ∧
        u.isArray = (name ++ brackets).any (·.1 == .closeBracket) := by
  obtain ⟨ts, hts, hc⟩ := hc
  obtain ⟨names, ends, rfl, rfl, rfl⟩ := List.map_eq_append_iff.1 hts
  rw [map_fst_words] at hname hbrackets
  have hne : names ≠ [] := fun h => ne_nil_of_isTypeName hname (by rw [h]; rfl)
  rw [List.append_assoc] at hc
  have hdot : ¬ StartsPair .dot .identifier (ends ++ x :: rest) := by
    rintro ⟨y, z, us, heq, hy, -⟩
    rcases hbrackets with hb | hb
    · rw [List.map_eq_nil_iff.1 hb] at heq
      cases heq
      rw [hx] at hy
      cases hy
    · obtain ⟨w, ws, rfl, hw, -⟩ := List.map_eq_cons_iff.1 hb
      obtain rfl : w = y := (List.cons.inj heq).1
      rw [hw] at hy
      cases hy
  have hstop : ends = [] → ¬ StartsPair .openBracket .closeBracket (x :: rest) := by
    rintro - ⟨y, z, us, heq, hy, -⟩
    cases heq
    rw [hx] at hy
    cases hy
  obtain ⟨span, h⟩ := typeReference_consumes hname hbrackets hc (fun _ => hdot) hstop
  refine ⟨_, h, rfl, ?_, ?_⟩
  · rw [typeWord?_typeTree span hne, List.getLast?_map]
  · rw [isArray_typeTree span hne, ← List.map_append, List.any_map]
    rfl

/-- What is accepted as a type consists of the name and the brackets of one. -/
theorem exists_type_of_accepts (h : Accepts typeReference T) : ∃ name brackets,
    T = name ++ brackets ∧ IsTypeName (name.map Prod.fst) ∧ IsBrackets (brackets.map Prod.fst) := by
  obtain ⟨c, s, r, -, ⟨ts, rfl, hc⟩, hstop, hclean⟩ := h
  have hstarts : startsType c.kind := by
    by_contra hk
    rw [startsType, Bool.or_eq_true, not_or, Bool.not_eq_true, Bool.not_eq_true] at hk
    have hreport : typeReference c = report .expectedType c := by
      simp [typeReference, look, hk]
    rw [hreport] at hclean
    exact c.report_diagnostics _ hclean
  obtain ⟨names, ends, rest, span, hrest, hname, hbrackets, hconsumes⟩ := exists_type hstarts
  obtain rfl := hconsumes.rest.symm.trans hstop
  rw [hc, ← List.append_assoc] at hrest
  obtain rfl := List.append_cancel_right hrest
  refine ⟨names.map Token.word, ends.map Token.word, List.map_append, ?_, ?_⟩
  · rwa [map_fst_words]
  · rwa [map_fst_words]

/-! ## Declared names -/

/-- The words of `T x = e;`. -/
def declarationWords (type : List Word) (name : List Char) (value : List Word) : List Word :=
  type ++ (.identifier, name) :: (.equals, ['=']) :: value ++ [(.semicolon, [';'])]

theorem exists_tokens_of_before {name : List Char} (h : c.Before (declarationWords T name e) r) :
    ∃ x y z vs, c.Before T (x :: y :: (vs ++ z :: r)) ∧ x.kind = .identifier ∧ y.kind = .equals ∧
      vs.map Token.word = e ∧ z.kind = .semicolon := by
  obtain ⟨ts, hts, hc⟩ := h
  rw [declarationWords, List.append_assoc] at hts
  obtain ⟨type, us, rfl, htype, hus⟩ := List.map_eq_append_iff.1 hts
  obtain ⟨x, us, rfl, hx, hus⟩ := List.map_eq_cons_iff.1 hus
  obtain ⟨y, us, rfl, hy, hus⟩ := List.map_eq_cons_iff.1 hus
  obtain ⟨vs, us, rfl, hvs, hus⟩ := List.map_eq_append_iff.1 hus
  obtain ⟨z, us, rfl, hz, hus⟩ := List.map_eq_cons_iff.1 hus
  obtain rfl := List.map_eq_nil_iff.1 hus
  exact ⟨x, y, z, vs, ⟨type, htype, by simpa using hc⟩, congrArg Prod.fst hx, congrArg Prod.fst hy,
    hvs, congrArg Prod.fst hz⟩

/-- One part where a comma might follow. -/
theorem separated_consumes {p : Parser} {ts : List Tree} (h : Consumes p c ts rest)
    (hcomma : (p c).2.kind ≠ .comma) :
    Consumes (separated (fun _ => true) p) c (ts ++ []) rest := by
  refine .look (.ifNext_pos rfl (h.append ?_))
  rw [← h.rest]
  exact .skip (by simpa using hcomma)

/-- A declared name with its value. -/
theorem declarators_consumes {y z : Token} {vs : List Token} {p : Parser}
    (hc : c.rest = x :: y :: (vs ++ z :: r)) (hx : x.kind = .identifier) (hy : y.kind = .equals)
    (hz : z.kind = .semicolon)
    (hp : ∀ d : Cursor, d.rest = vs ++ z :: r → Consumes p d (p d).1 (z :: r)) :
    ∃ us, Consumes (declarators p ++ expect .semicolon) c us r := by
  have hname := (Consumes.expect hc hx).into .name
  have hequals := Consumes.take hname.rest
  have hinitializer := hequals.append ((hp _ hequals.rest).into .initializer)
  have hoptional : Consumes (ifNext (· == .equals) (take ++ p.into .initializer) nothing)
      ((expect .identifier).into .name c).2 _ (z :: r) :=
    .ifNext_pos (by rw [kind_of_rest hname.rest, hy]; rfl) hinitializer
  obtain ⟨span, hnode⟩ := (hname.append hoptional).node .variableDeclarator
  have hdeclarator := hnode.into .declarator
  have hone := separated_consumes hdeclarator (by rw [kind_of_rest hdeclarator.rest, hz]; decide)
  exact ⟨_, hone.append (.expect hone.rest hz)⟩

/-- One declaration of the kind is read, up to `rest` and without a report, and begins with the type
reference. -/
def DeclaresAs (k : NodeKind) (type : Tree) (p : Parser) (c : Cursor) (rest : List Token) : Prop :=
  ∃ span us, Consumes p c [.node .loose k span (type :: us)] rest ∧ type.slot = .type ∧
    type.kind = .node .typeReference

/-! ## Fields -/

theorem many_skip {p : Parser} {test : TokenKind → Bool} (h : test c.kind = false) :
    Consumes (many test p) c [] c.rest := by
  have hskip (unread : List Token) : Consumes (manyAtMost test p unread) c [] c.rest := by
    cases unread with
    | nil => exact .emit [] c
    | cons t unread => exact .skip h
  exact .look (hskip c.rest)

theorem declarationHead_skip (hc : c.rest = x :: rest) (hx : startsType x.kind) :
    Consumes declarationHead c [] (x :: rest) := by
  have hskip {p : Parser} {test : TokenKind → Bool} {d : Cursor} (hd : d.rest = x :: rest)
      (h : ∀ k, startsType k → test k = false) : Consumes (many test p) d [] (x :: rest) := by
    rw [← hd]
    exact many_skip (by rw [kind_of_rest hd]; exact h x.kind hx)
  have hattributes : Consumes attributeLists c [] (x :: rest) :=
    hskip hc fun k hk => by revert hk; cases k <;> decide
  exact hattributes.append (hskip hattributes.rest fun k hk => by revert hk; cases k <;> decide)

/-- The tokens that tell what begins: the first of a type, further parts of its name, and what
follows the name. -/
structure Begins (type : List Word) (c : Cursor) (a : Token) (parts : List Token) (y : Token)
    (us : List Token) : Prop where
  rest : c.rest = a :: (parts ++ y :: us)
  dotted : Dotted (parts.map Token.kind)
  head : type.head?.map Prod.fst = some a.kind
  first : a.kind = .identifier ∨ a.kind.isPredefinedType ∧ parts = []
  length : type.length = 1 ↔ parts = [] ∧ y.kind = .identifier
  next : y.kind = .identifier ∨ y.kind = .openBracket ∧ us.head?.map Token.kind = some .closeBracket

theorem exists_begins (hname : IsTypeName (name.map Prod.fst))
    (hbrackets : IsBrackets (brackets.map Prod.fst)) (hc : c.Before (name ++ brackets) (x :: rest))
    (hx : x.kind = .identifier) : ∃ a parts y us, Begins (name ++ brackets) c a parts y us := by
  obtain ⟨ts, hts, hc⟩ := hc
  obtain ⟨names, ends, rfl, rfl, rfl⟩ := List.map_eq_append_iff.1 hts
  rw [map_fst_words] at hname hbrackets
  obtain ⟨y, us, hends, hnil, hnext⟩ : ∃ y us, ends ++ x :: rest = y :: us ∧
      (ends = [] ↔ y.kind = .identifier) ∧ (y.kind = .identifier ∨
        y.kind = .openBracket ∧ us.head?.map Token.kind = some .closeBracket) := by
    rcases hbrackets with hb | hb
    · obtain rfl := List.map_eq_nil_iff.1 hb
      exact ⟨x, rest, rfl, by simp [hx], .inl hx⟩
    · obtain ⟨y, ts, rfl, hy, hts⟩ := List.map_eq_cons_iff.1 hb
      obtain ⟨z, ts, rfl, hz, -⟩ := List.map_eq_cons_iff.1 hts
      exact ⟨y, z :: (ts ++ x :: rest), rfl, by simp [hy], .inr ⟨hy, by simp [hz]⟩⟩
  obtain ⟨a, parts, rfl, hparts, hfirst⟩ : ∃ a parts, names = a :: parts ∧
      Dotted (parts.map Token.kind) ∧
        (a.kind = .identifier ∨ a.kind.isPredefinedType ∧ parts = []) := by
    rcases hname with ⟨k, hk, hpredefined⟩ | ⟨parts, hk, hparts⟩
    · obtain ⟨a, ts, rfl, rfl, hts⟩ := List.map_eq_cons_iff.1 hk
      obtain rfl := List.map_eq_nil_iff.1 hts
      exact ⟨a, [], rfl, .nil, .inr ⟨hpredefined, rfl⟩⟩
    · obtain ⟨a, ts, rfl, ha, rfl⟩ := List.map_eq_cons_iff.1 hk
      exact ⟨a, ts, rfl, hparts, .inl ha⟩
  refine ⟨a, parts, y, us, ?_, hparts, rfl, hfirst, ?_, hnext⟩
  · rw [hc, List.append_assoc, hends]
    rfl
  · rw [← hnil]
    simp

namespace Begins

variable {type : List Word} {a y : Token} {parts us : List Token}

theorem startsType (h : Begins type c a parts y us) : Grammar.startsType a.kind := by
  rw [Grammar.startsType, Bool.or_eq_true, beq_iff_eq]
  exact h.first.imp id And.left

/-- The second token. -/
theorem peek_one (h : Begins type c a parts y us) :
    parts = [] ∧ c.peek 1 = y.kind ∨ parts ≠ [] ∧ c.peek 1 = .dot := by
  unfold Cursor.peek
  rw [h.rest]
  rcases dotted_cases h.dotted with rfl | ⟨w, z, ws, rfl, hw, -⟩
  · exact .inl ⟨rfl, rfl⟩
  · exact .inr ⟨by simp, by simp [hw]⟩

theorem not_isTypeKeyword (h : Begins type c a parts y us) : a.kind.isTypeKeyword = false := by
  have hstarts := h.startsType
  revert hstarts
  cases a.kind <;> decide

theorem not_startsConstructor (h : Begins type c a parts y us) (typeName : Option (List Char)) :
    startsConstructor typeName c = false := by
  unfold startsConstructor
  rcases h.peek_one with ⟨-, hpeek⟩ | ⟨-, hpeek⟩
  · rw [hpeek]
    rcases h.next with hy | ⟨hy, -⟩ <;> simp [hy]
  · simp [hpeek]

end Begins

/-- Behind the type, a name and a value are read as those of a field. -/
theorem namedMember_consumes {type : Tree} {y z : Token} {vs : List Token}
    (hc : c.rest = x :: y :: (vs ++ z :: r)) (hx : x.kind = .identifier) (hy : y.kind = .equals)
    (hz : z.kind = .semicolon)
    (hp : ∀ d : Cursor, d.rest = vs ++ z :: r →
      Consumes outerExpression d (outerExpression d).1 (z :: r)) (start : Nat) :
    ∃ span us, Consumes (namedMember start [type]) c
      [.node .loose .fieldDeclaration span (type :: us)] r := by
  obtain ⟨us, hrest⟩ := declarators_consumes hc hx hy hz hp
  have hemit : Consumes (emit [type]) c [type] (x :: y :: (vs ++ z :: r)) := hc ▸ .emit [type] c
  obtain ⟨span, hclose⟩ := (hemit.append hrest).close .fieldDeclaration start
  have hpeek : c.peek 1 = .equals := by
    unfold Cursor.peek
    rw [hc]
    simp [hy]
  refine ⟨span, us, .look ?_⟩
  rw [if_neg (by rw [kind_of_rest hc, hx]; decide), hpeek]
  exact hclose

/-- What stands before a name is a type of the field. -/
theorem member_consumes (nested : Nat → List Tree → Parser) (typeName : Option (List Char))
    {y z : Token} {vs : List Token} (hname : IsTypeName (name.map Prod.fst))
    (hbrackets : IsBrackets (brackets.map Prod.fst))
    (hc : c.Before (name ++ brackets) (x :: y :: (vs ++ z :: r))) (hx : x.kind = .identifier)
    (hy : y.kind = .equals) (hz : z.kind = .semicolon)
    (hp : ∀ d : Cursor, d.rest = vs ++ z :: r →
      Consumes outerExpression d (outerExpression d).1 (z :: r)) :
    ∃ u, DeclaresAs .fieldDeclaration u (member nested typeName) c r ∧
      u.typeWord? = name.getLast? ∧
        u.isArray = (name ++ brackets).any (·.1 == .closeBracket) := by
  obtain ⟨a, parts, b, us, hbegins⟩ := exists_begins hname hbrackets hc hx
  have hhead := declarationHead_skip hbegins.rest hbegins.startsType
  have hd : (declarationHead c).2.Before (name ++ brackets) (x :: y :: (vs ++ z :: r)) := by
    obtain ⟨ts, hts, hrest⟩ := hc
    exact ⟨ts, hts, (hhead.rest.trans hbegins.rest.symm).trans hrest⟩
  have hbegins' : Begins (name ++ brackets) (declarationHead c).2 a parts b us :=
    { hbegins with rest := hhead.rest }
  have hkind := kind_of_rest hhead.rest
  obtain ⟨u, htype, hnode, hword, harray⟩ := type_consumes hname hbrackets hd hx
  have hfound := (Consumes.emit [] (declarationHead c).2).append (htype.into .type)
  obtain ⟨span, us', hnamed⟩ := namedMember_consumes hfound.rest hx hy hz hp c.next.start
  refine ⟨u.withSlot .type, ⟨span, us', .read hhead (.look ?_), by simp, by simpa using hnode⟩,
    by simpa using hword, by simpa using harray⟩
  rw [hkind, if_neg (by simp [hbegins.not_isTypeKeyword]),
    if_neg (by simp [hbegins'.not_startsConstructor]), if_pos hbegins.startsType]
  exact .read hfound hnamed

/-! ## Local variables -/

/-- The tokens that tell a local variable: the type is built in, also as an array, or a name of one
part. -/
def startsLocalType (type : List Word) : Bool :=
  type.length == 1 || type.head?.any (·.1.isPredefinedType)

theorem head?_isPredefinedType {type : List Word} {a y : Token} {parts us : List Token}
    (h : Begins type c a parts y us) :
    type.head?.any (·.1.isPredefinedType) = a.kind.isPredefinedType := by
  have hhead := h.head
  cases hw : type.head? with
  | none => rw [hw] at hhead; cases hhead
  | some w =>
    rw [hw] at hhead
    rw [Option.any_some, Option.some.inj hhead]

theorem startsLocal_eq_startsLocalType {type : List Word} {a y : Token} {parts us : List Token}
    (h : Begins type c a parts y us) (hvoid : type.head?.map Prod.fst ≠ some .voidKeyword) :
    startsLocal c = startsLocalType type := by
  have hkind := kind_of_rest h.rest
  rw [h.head] at hvoid
  unfold startsLocal startsLocalType
  rw [hkind, head?_isPredefinedType h]
  rcases h.first with ha | ⟨ha, rfl⟩
  · rw [ha, if_neg (by decide), Bool.eq_iff_iff]
    rcases h.peek_one with ⟨hparts, hpeek⟩ | ⟨hparts, hpeek⟩
    · simp [hpeek, h.length, hparts, TokenKind.isPredefinedType]
    · simp [hpeek, h.length, hparts, TokenKind.isPredefinedType]
  · have hpeek : c.peek 1 = y.kind ∧ c.peek 2 = (us.head?.map Token.kind).getD .endOfFile := by
      unfold Cursor.peek
      rw [h.rest]
      cases us <;> exact ⟨rfl, rfl⟩
    have hne : a.kind ≠ .voidKeyword := fun he => hvoid (congrArg some he)
    rw [hpeek.1, hpeek.2, if_pos (by simp [ha, hne])]
    rcases h.next with hy | ⟨hy, hclose⟩
    · simp [hy, ha]
    · simp [hy, ha, hclose]

theorem statement_of_startsType (h : startsType c.kind) (n : Nat) : statement (n + 1) c =
    (if startsLocal c then localDeclaration (expression n)
      else expressionStatement (expression n)) c := by
  simp only [statement, look]
  generalize (if startsLocal c then localDeclaration (expression n)
    else expressionStatement (expression n)) = p
  revert h
  cases c.kind <;> intro h <;> first | rfl | cases h

/-- Where a type tells a local variable, what stands before a name is the type of the variable. -/
theorem localDeclaration_consumes {y z : Token} {vs : List Token} {p : Parser}
    (hname : IsTypeName (name.map Prod.fst)) (hbrackets : IsBrackets (brackets.map Prod.fst))
    (hc : c.Before (name ++ brackets) (x :: y :: (vs ++ z :: r))) (hx : x.kind = .identifier)
    (hy : y.kind = .equals) (hz : z.kind = .semicolon)
    (hp : ∀ d : Cursor, d.rest = vs ++ z :: r → Consumes p d (p d).1 (z :: r)) :
    ∃ u, DeclaresAs .localDeclarationStatement u (localDeclaration p) c r ∧
      u.typeWord? = name.getLast? ∧
        u.isArray = (name ++ brackets).any (·.1 == .closeBracket) := by
  obtain ⟨u, htype, hnode, hword, harray⟩ := type_consumes hname hbrackets hc hx
  have htype := htype.into .type
  obtain ⟨us, hrest⟩ := declarators_consumes htype.rest hx hy hz hp
  obtain ⟨span, h⟩ := (htype.append hrest).node .localDeclarationStatement
  rw [← append_assoc] at h
  exact ⟨u.withSlot .type, ⟨span, us, h, by simp, by simpa using hnode⟩, by simpa using hword,
    by simpa using harray⟩

/-- An expression that breaks off. -/
theorem expressionStatement_reports {e : Parser} {t : Tree} (h : Consumes e c [t] (x :: rest))
    (hx : x.kind ≠ .semicolon) : (expressionStatement e c).2.diagnostics ≠ [] ∧
      ∀ u ∈ (expressionStatement e c).1, u.kind = .node .expressionStatement := by
  have hinto := h.into .expression
  have hemit := Consumes.emit [t.withSlot .expression] (e.into .expression c).2
  have hexpect : expect .semicolon (e.into .expression c).2 =
      report (.expected .semicolon) (e.into .expression c).2 :=
    ifNext_neg (by rw [kind_of_rest hinto.rest]; simpa using hx) _ _
  have hstatement : expressionStatement e c =
      close .expressionStatement c.next.start
        (emit [t.withSlot .expression] ++ expect .semicolon) (e.into .expression c).2 := by
    change (if (e.into .expression c).1.isEmpty then nothing
      else close .expressionStatement c.next.start
        (emit (e.into .expression c).1 ++ expect .semicolon)) (e.into .expression c).2 = _
    rw [hinto.trees]
    rfl
  rw [hstatement]
  constructor
  · intro hclean
    change (expect .semicolon (e.into .expression c).2).2.diagnostics = [] at hclean
    rw [hexpect] at hclean
    exact Cursor.report_diagnostics _ _ hclean
  · intro u hu
    rw [List.mem_singleton.1 hu]
    rfl

/-- Where no level may be opened there is no expression. -/
theorem depth_pos_of_accepts {depth : Nat} (h : Accepts (expression depth) e) : 0 < depth := by
  obtain ⟨c, _, _, -, -, -, hclean⟩ := h
  cases depth with
  | zero => exact absurd hclean (c.report_diagnostics .nestingTooDeep)
  | succ depth => exact Nat.succ_pos depth

/-- A type that does not tell a local variable is read as an expression that breaks off behind it. -/
theorem statement_reports {type : List Word} {a y : Token} {parts us : List Token}
    (h : Begins type c a parts y us) (hvoid : type.head?.map Prod.fst ≠ some .voidKeyword)
    (hlocal : startsLocalType type = false) (n : Nat) :
    (statement (n + 2) c).2.diagnostics ≠ [] ∧
      ∀ t ∈ (statement (n + 2) c).1, t.kind ≠ .node .localDeclarationStatement := by
  have hidentifier : a.kind = .identifier := by
    refine h.first.resolve_right fun hpredefined => ?_
    rw [startsLocalType, head?_isPredefinedType h, hpredefined.1, Bool.or_true] at hlocal
    cases hlocal
  have hends : endsExpression y.kind ∧ y.kind ≠ .semicolon := by
    rcases h.next with hy | ⟨hy, -⟩ <;> rw [hy] <;> decide
  obtain ⟨t, ht⟩ := expression_consumes h.rest hidentifier h.dotted hends.1 n
  obtain ⟨hreport, hkind⟩ := expressionStatement_reports ht hends.2
  have hstarts : startsType c.kind := by
    rw [kind_of_rest h.rest]
    exact h.startsType
  rw [statement_of_startsType hstarts, startsLocal_eq_startsLocalType h hvoid,
    if_neg (by simp [hlocal])]
  exact ⟨hreport, fun t ht => by rw [hkind t ht]; decide⟩

/-- `T x = e;` reads as a field for every type `T`. It reads as a local variable with the same type
for the types that tell one; for other types a problem is reported and no variable declared. -/
theorem local_of_field (nested : Nat → List Tree → Parser) (typeName : Option (List Char))
    {T e : List Word} {name : List Char} {depth n : Nat} {c c' : Cursor} {r r' : List Token}
    (htype : Accepts typeReference T) (hvoid : T.head?.map Prod.fst ≠ some .voidKeyword)
    (hvalue : Accepts (expression depth) e) (hn : depth ≤ n) (hlimit : depth ≤ nestingLimit)
    (hc : c.Before (declarationWords T name e) r) (hc' : c'.Before (declarationWords T name e) r') :
    ∃ u w, DeclaresAs .fieldDeclaration u (member nested typeName) c' r' ∧ u.typeWord? = some w ∧
      (startsLocalType T → ∃ v, DeclaresAs .localDeclarationStatement v (statement (n + 1)) c r ∧
        v.typeWord? = some w ∧ v.isArray = u.isArray) ∧
      (startsLocalType T = false → (statement (n + 1) c).2.diagnostics ≠ [] ∧
        ∀ t ∈ (statement (n + 1) c).1, t.kind ≠ .node .localDeclarationStatement) := by
  obtain ⟨words, brackets, rfl, hname, hbrackets⟩ := exists_type_of_accepts htype
  obtain ⟨x, y, z, vs, hbefore, hx, hy, rfl, hz⟩ := exists_tokens_of_before hc
  obtain ⟨x', y', z', vs', hbefore', hx', hy', hvs, hz'⟩ := exists_tokens_of_before hc'
  have hread {m : Nat} (hm : depth ≤ m) {us : List Token}
      (hus : us.map Token.word = vs.map Token.word) {s : Token} {r : List Token}
      (hs : s.kind = .semicolon) (d : Cursor) (hd : d.rest = us ++ s :: r) :
      Consumes (expression m) d (expression m d).1 (s :: r) :=
    hvalue.consumes (rereads_expression hm) ⟨us, hus, hd⟩ hs
  obtain ⟨w, hw⟩ : ∃ w, words.getLast? = some w := by
    refine Option.isSome_iff_exists.1 (List.getLast?_isSome.2 ?_)
    rintro rfl
    exact ne_nil_of_isTypeName hname rfl
  obtain ⟨u, hfield, hword, harray⟩ := member_consumes nested typeName hname hbrackets hbefore'
    hx' hy' hz' (hread hlimit hvs hz')
  obtain ⟨a, parts, b, us, hbegins⟩ := exists_begins hname hbrackets hbefore hx
  refine ⟨u, w, hfield, hword.trans hw, fun hlocal => ?_, fun hlocal => ?_⟩
  · obtain ⟨v, ⟨span, ts, hconsumes, hdeclares⟩, hword', harray'⟩ :=
      localDeclaration_consumes hname hbrackets hbefore hx hy hz (hread hn rfl hz)
    have hstatement := statement_of_startsType
      (by rw [kind_of_rest hbegins.rest]; exact hbegins.startsType) n
    rw [startsLocal_eq_startsLocalType hbegins hvoid, if_pos hlocal] at hstatement
    exact ⟨v, ⟨span, ts, ⟨hstatement ▸ hconsumes.trees, hstatement ▸ hconsumes.rest,
      hstatement ▸ hconsumes.quiet⟩, hdeclares⟩, hword'.trans hw, harray'.trans harray.symm⟩
  · obtain ⟨m, rfl⟩ := Nat.exists_eq_succ_of_ne_zero
      (Nat.ne_of_gt (Nat.lt_of_lt_of_le (depth_pos_of_accepts hvalue) hn))
    exact statement_reports hbegins hvoid hlocal m

/-- The text `int[] x=1;`. -/
def arrayText : List Char := "int[] x=1;".toList

theorem local_of_field_array : ∃ u v w,
    DeclaresAs .fieldDeclaration u (member (fun _ _ => nothing) none) (startOf arrayText) [] ∧
      DeclaresAs .localDeclarationStatement v (statement nestingLimit) (startOf arrayText) [] ∧
        u.typeWord? = some w ∧ v.typeWord? = some w ∧ v.isArray = u.isArray := by
  have htype : Accepts typeReference
      [(.intKeyword, "int".toList), (.openBracket, ['[']), (.closeBracket, [']'])] :=
    ⟨startOf "int[];".toList, ⟨.semicolon, 5, [';']⟩, [], rfl,
      ⟨[⟨.intKeyword, 0, "int".toList⟩, ⟨.openBracket, 3, ['[']⟩, ⟨.closeBracket, 4, [']']⟩],
        rfl, by decide +kernel⟩, by decide +kernel, by decide +kernel⟩
  have hvalue : Accepts (expression 1) [(.numericLiteral, ['1'])] :=
    ⟨startOf "1;".toList, ⟨.semicolon, 1, [';']⟩, [], rfl,
      ⟨[⟨.numericLiteral, 0, ['1']⟩], rfl, by decide +kernel⟩, by decide +kernel, by decide +kernel⟩
  have hc : (startOf arrayText).Before (declarationWords
      [(.intKeyword, "int".toList), (.openBracket, ['[']), (.closeBracket, [']'])] ['x']
      [(.numericLiteral, ['1'])]) [] :=
    ⟨(startOf arrayText).rest, by decide +kernel, (List.append_nil _).symm⟩
  obtain ⟨u, w, hfield, hword, hlocal, -⟩ := local_of_field (fun _ _ => nothing) none htype
    (by decide) hvalue (n := 255) (by decide) (by decide) hc hc
  obtain ⟨v, hdeclares, hword', harray⟩ := hlocal rfl
  exact ⟨u, v, w, hfield, hdeclares, hword, hword', harray⟩

/-- A local variable and a field with an array of a named type. -/
def namedArrayLocal : List Char := "class C\x7bvoid M()\x7bAbc[] x=1;\x7d\x7d".toList

def namedArrayField : List Char := "class C\x7bAbc[] x=1;\x7d".toList

/-- An array of a named type does not tell a local variable. -/
theorem namedArray_not_local : (SourceFile.ofText namedArrayField).diagnostics = [] ∧
    (SourceFile.ofText namedArrayLocal).diagnostics ≠ [] := by
  decide +kernel

end Grammar

end Caret
