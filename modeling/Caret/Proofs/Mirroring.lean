import Caret.Proofs.Writing
/-!
# What an entry mirrors

The typed data of an entry, and of those below it, tell at most one expression
(`NodeTable.Mirrors.unique`): what is written in a token is found at its place in the text, and the
words of a type tell the type.
-/

namespace Caret

/-- Two ways to cut a text at the same place. -/
theorem append_inj_of_byteLength {as bs as' bs' : List Char} (h : as ++ bs = as' ++ bs')
    (hl : byteLength as = byteLength as') : as = as' ∧ bs = bs' := by
  induction as generalizing as' with
  | nil =>
    cases as' with
    | nil => exact ⟨rfl, h⟩
    | cons c cs =>
      have hpos := c.utf8Size_pos
      rw [byteLength_nil, byteLength_cons] at hl
      omega
  | cons c cs ih =>
    cases as' with
    | nil =>
      have hpos := c.utf8Size_pos
      rw [byteLength_nil, byteLength_cons] at hl
      omega
    | cons c' cs' =>
      obtain ⟨rfl, hrest⟩ := List.cons.inj h
      rw [byteLength_cons, byteLength_cons, Nat.add_left_cancel_iff] at hl
      obtain ⟨rfl, rfl⟩ := ih hrest hl
      exact ⟨rfl, rfl⟩

/-! ## Types -/

theorem TokenKind.word_injective {k l : TokenKind} (h : k.word = l.word) : k = l :=
  congrArg Prod.fst h

theorem Identifier.word_injective {x y : Identifier} (h : x.word = y.word) : x = y :=
  Subtype.ext (congrArg Prod.snd h)

theorem word_ne_of_isPredefinedType {k : TokenKind} {x : Identifier} (hk : k.isPredefinedType) :
    k.word ≠ x.word := by
  intro he
  have hkind : k = .identifier := congrArg Prod.fst he
  rw [hkind] at hk
  cases hk

/-- The words of further parts `.B.C` of a name. -/
theorem partWords_injective {more more' : List Identifier}
    (h : (more.flatMap fun x => [TokenKind.dot.word, x.word]) =
      more'.flatMap fun x => [TokenKind.dot.word, x.word]) : more = more' := by
  induction more generalizing more' with
  | nil => cases more' with
    | nil => rfl
    | cons => cases h
  | cons x more ih => cases more' with
    | nil => cases h
    | cons y more' =>
      obtain ⟨-, hrest⟩ := List.cons.inj h
      obtain ⟨hx, hrest⟩ := List.cons.inj hrest
      rw [Identifier.word_injective hx, ih hrest]

theorem TypeName.words_injective {T T' : TypeName} (h : T.words = T'.words) : T = T' := by
  cases T with
  | builtIn k =>
    cases T' with
    | builtIn l => rw [Subtype.ext (TokenKind.word_injective (List.cons.inj h).1)]
    | named => exact absurd (List.cons.inj h).1 (word_ne_of_isPredefinedType k.2)
  | named first more =>
    cases T' with
    | builtIn l => exact absurd (List.cons.inj h).1.symm (word_ne_of_isPredefinedType l.2)
    | named first' more' =>
      obtain ⟨hfirst, hmore⟩ := List.cons.inj h
      rw [Identifier.word_injective hfirst, partWords_injective hmore]

theorem WrittenType.any_closeBracket (T : WrittenType) :
    T.words.any (·.1 == .closeBracket) = T.isArray := by
  obtain ⟨name, isArray⟩ := T
  have hname : name.words.any (·.1 == .closeBracket) = false := by
    rw [List.any_eq_false]
    intro w hw
    cases name with
    | builtIn k =>
      obtain rfl := List.mem_singleton.1 hw
      obtain ⟨k, hk⟩ := k
      rw [beq_iff_eq]
      rintro rfl
      cases hk
    | named first more =>
      rcases List.mem_cons.1 hw with rfl | hw
      · exact Bool.false_ne_true
      · obtain ⟨x, -, hx⟩ := List.mem_flatMap.1 hw
        rcases List.mem_cons.1 hx with rfl | hx
        · decide
        · obtain rfl := List.mem_singleton.1 hx
          exact Bool.false_ne_true
  rw [WrittenType.words, List.any_append, hname, WrittenType.brackets]
  cases isArray <;> rfl

theorem WrittenType.words_injective {T T' : WrittenType} (h : T.words = T'.words) : T = T' := by
  have harray : T.isArray = T'.isArray := by
    rw [← T.any_closeBracket, ← T'.any_closeBracket, h]
  obtain ⟨name, isArray⟩ := T
  obtain ⟨name', isArray'⟩ := T'
  obtain rfl : isArray = isArray' := harray
  obtain rfl : name = name' := TypeName.words_injective (List.append_cancel_right h)
  rfl

/-- The kind of the node that stands for an expression. -/
def Expression.kind : Expression → NodeKind
  | name _ | builtIn _ => .identifierName
  | this => .thisExpression
  | base => .baseExpression
  | literal _ => .literalExpression
  | parenthesized _ => .parenthesizedExpression
  | signed .. => .prefixUnaryExpression
  | binary .. => .binaryExpression
  | assignment .. => .assignmentExpression
  | access .. => .memberAccessExpression
  | call .. => .invocationExpression
  | bareCreation _ | creation .. => .objectCreationExpression

namespace NodeTable

variable {t : NodeTable} {text : List Char} {i : Ref} {k : NodeKind} {w w' : Word}
  {words words' : List Word} {T T' : WrittenType} {e e' : Expression}

theorem Spells.unique (h : t.Spells text i w) (h' : t.Spells text i w') : w = w' := by
  have hkind : w.1 = w'.1 := Option.some.inj (h.token.symm.trans h'.token)
  obtain ⟨before, after, htext, hspan⟩ := h.written
  obtain ⟨before', after', htext', hspan'⟩ := h'.written
  rw [hspan] at hspan'
  obtain ⟨hstart, hstop⟩ := Span.mk.inj (Option.some.inj hspan')
  rw [htext, List.append_assoc, List.append_assoc] at htext'
  obtain ⟨rfl, hrest⟩ := append_inj_of_byteLength htext' hstart
  exact Prod.ext hkind (append_inj_of_byteLength hrest (Nat.add_left_cancel hstop)).1

theorem Consists.unique (h : t.Consists text i k words) (h' : t.Consists text i k words') :
    words = words' := by
  obtain ⟨n, rfl, -, hall⟩ := h
  obtain ⟨m, hm, -, hall'⟩ := h'
  obtain rfl := Option.some.inj hm
  generalize (t.children n).map some = refs at hall hall'
  induction hall generalizing words' with
  | nil =>
    cases hall'
    rfl
  | cons hw _ ih =>
    obtain - | ⟨hw', hall'⟩ := hall'
    rw [hw.unique hw', ih hall']

theorem Refers.unique (h : t.Refers text i T) (h' : t.Refers text i T') : T = T' :=
  WrittenType.words_injective (h.consists.unique h'.consists)

theorem Consists.node? (h : t.Consists text i k words) : t.node? i = some k := by
  obtain ⟨n, rfl, hk, -⟩ := h
  exact hk

theorem Mirrors.node? (h : t.Mirrors text e i) : t.node? i = some e.kind := by
  cases h <;> first | assumption | exact Consists.node? ‹_›

theorem unique_all {args args' : List Expression} {items : List Ref}
    (h : List.Forall₂ (t.Mirrors text) args items) (h' : List.Forall₂ (t.Mirrors text) args' items)
    (hargs : ∀ a ∈ args, ∀ {i a'}, t.Mirrors text a i → t.Mirrors text a' i → a = a') :
    args = args' := by
  induction h generalizing args' with
  | nil =>
    cases h'
    rfl
  | cons hi _ ih =>
    obtain - | ⟨hi', h'⟩ := h'
    obtain ⟨ha, hargs⟩ := List.forall_mem_cons.1 hargs
    rw [ha hi hi', ih h' hargs]

theorem Mirrors.kind_eq (h : t.Mirrors text e i) (h' : t.Mirrors text e' i) : e.kind = e'.kind :=
  Option.some.inj (h.node?.symm.trans h'.node?)

/-- Two operators at one place. -/
theorem Spells.operator {p : TokenKind → Prop} {k l : { k : TokenKind // p k }}
    (hk : t.Spells text i k.1.word) (hl : t.Spells text i l.1.word) : k = l :=
  Subtype.ext (TokenKind.word_injective (hk.unique hl))

theorem Consists.name {x y : Identifier} (hx : t.Consists text i k [x.word])
    (hy : t.Consists text i k [y.word]) : x = y :=
  Identifier.word_injective (List.cons.inj (hx.unique hy)).1

/-! ## Expressions without parts

A name and a built-in type are written in entries of one kind, and so are creations with and
without arguments. -/

theorem Mirrors.eq_name {x : Identifier} (h : t.Mirrors text (.name x) i)
    (h' : t.Mirrors text e' i) : .name x = e' := by
  have hkind := h.kind_eq h'
  cases h with | name hx =>
  cases h' with
  | name hy => rw [hx.name hy]
  | @builtIn _ k hk =>
    exact absurd (List.cons.inj (hx.unique hk)).1.symm (word_ne_of_isPredefinedType k.2.1)
  | _ => simp [Expression.kind] at hkind

theorem Mirrors.eq_builtIn {l : { k : TokenKind // k.isPredefinedType ∧ k ≠ .voidKeyword }}
    (h : t.Mirrors text (.builtIn l) i) (h' : t.Mirrors text e' i) : .builtIn l = e' := by
  have hkind := h.kind_eq h'
  cases h with | builtIn hl =>
  cases h' with
  | name hx => exact absurd (List.cons.inj (hl.unique hx)).1 (word_ne_of_isPredefinedType l.2.1)
  | builtIn hk => rw [Subtype.ext (TokenKind.word_injective (List.cons.inj (hl.unique hk)).1)]
  | _ => simp [Expression.kind] at hkind

theorem Mirrors.eq_literal {l : Literal} (h : t.Mirrors text (.literal l) i)
    (h' : t.Mirrors text e' i) : .literal l = e' := by
  have hkind := h.kind_eq h'
  cases h with | literal hw =>
  cases h' with
  | literal hw' => rw [Subtype.ext (List.cons.inj (hw.unique hw')).1]
  | _ => simp [Expression.kind] at hkind

theorem Mirrors.eq_bareCreation (h : t.Mirrors text (.bareCreation T) i)
    (h' : t.Mirrors text e' i) : .bareCreation T = e' := by
  have hkind := h.kind_eq h'
  cases h with | bareCreation _ hdata hT hnone =>
  cases h' with
  | bareCreation _ hdata' hT' _ =>
    obtain rfl := Data.call.inj (hdata.symm.trans hdata')
    rw [hT.unique hT']
  | creation _ hdata' _ hlist =>
    obtain rfl := Data.call.inj (hdata.symm.trans hdata')
    rw [hnone] at hlist
    cases hlist
  | _ => simp [Expression.kind] at hkind

/-- An entry mirrors no more than one expression. -/
theorem Mirrors.unique (he : e.Grouped) (h : t.Mirrors text e i) (h' : t.Mirrors text e' i) :
    e = e' := by
  induction he generalizing i e' with
  | name => exact h.eq_name h'
  | builtIn => exact h.eq_builtIn h'
  | this =>
    have hkind := h.kind_eq h'
    cases h' with
    | this => rfl
    | _ => simp [Expression.kind] at hkind
  | base =>
    have hkind := h.kind_eq h'
    cases h' with
    | base => rfl
    | _ => simp [Expression.kind] at hkind
  | literal => exact h.eq_literal h'
  | parenthesized _ ih =>
    have hkind := h.kind_eq h'
    cases h with | parenthesized _ hdata he =>
    cases h' with
    | parenthesized _ hdata' he' =>
      obtain rfl := Data.wrapped.inj (hdata.symm.trans hdata')
      rw [ih he he']
    | _ => simp [Expression.kind] at hkind
  | signed _ _ ih =>
    have hkind := h.kind_eq h'
    cases h with | signed _ hparts _ hk he =>
    cases h' with
    | signed _ hparts' _ hk' he' =>
      obtain rfl := Option.some.inj (hparts.symm.trans hparts')
      rw [hk.operator hk', ih he he']
    | _ => simp [Expression.kind] at hkind
  | binary _ _ _ _ ihl ihr =>
    have hkind := h.kind_eq h'
    cases h with | binary _ hparts hl hk hr =>
    cases h' with
    | binary _ hparts' hl' hk' hr' =>
      obtain rfl := Option.some.inj (hparts.symm.trans hparts')
      rw [hk.operator hk', ihl hl hl', ihr hr hr']
    | _ => simp [Expression.kind] at hkind
  | assignment _ _ _ ihl ihr =>
    have hkind := h.kind_eq h'
    cases h with | assignment _ hparts hl hk hr =>
    cases h' with
    | assignment _ hparts' hl' hk' hr' =>
      obtain rfl := Option.some.inj (hparts.symm.trans hparts')
      rw [hk.operator hk', ihl hl hl', ihr hr hr']
    | _ => simp [Expression.kind] at hkind
  | access _ _ _ ih =>
    have hkind := h.kind_eq h'
    cases h with | access _ hparts he _ hx =>
    cases h' with
    | access _ hparts' he' _ hx' =>
      obtain rfl := Option.some.inj (hparts.symm.trans hparts')
      rw [ih he he', hx.name hx']
    | _ => simp [Expression.kind] at hkind
  | call _ _ _ _ ih ihargs =>
    have hkind := h.kind_eq h'
    cases h with | call _ hdata he _ hitems hargs =>
    cases h' with
    | call _ hdata' he' _ hitems' hargs' =>
      obtain rfl := Data.call.inj (hdata.symm.trans hdata')
      obtain rfl := Option.some.inj (hitems.symm.trans hitems')
      rw [ih he he', unique_all hargs hargs' ihargs]
    | _ => simp [Expression.kind] at hkind
  | bareCreation => exact h.eq_bareCreation h'
  | creation _ ih =>
    have hkind := h.kind_eq h'
    cases h with | creation _ hdata hT hlist hitems hargs =>
    cases h' with
    | bareCreation _ hdata' _ hnone =>
      obtain rfl := Data.call.inj (hdata.symm.trans hdata')
      rw [hnone] at hlist
      cases hlist
    | creation _ hdata' hT' _ hitems' hargs' =>
      obtain rfl := Data.call.inj (hdata.symm.trans hdata')
      obtain rfl := Option.some.inj (hitems.symm.trans hitems')
      rw [hT.unique hT', unique_all hargs hargs' ih]
    | _ => simp [Expression.kind] at hkind

end NodeTable

end Caret
