import Caret.Proofs.Lineage
/-!
# Trees of any depth

Expressions and statements inside of others are counted, and there are no more than `nestingLimit`
of them. But an expression also becomes the first part of a larger one, with each access, call and
operator that follows it, and that is not counted: in `class C{int x=a.a…a;}` the first name has an
ancestor for every access (`exists_lineageKinds`). So trees of texts are as deep as one likes, and
`ancestors`, which takes no more than `walkLimit` steps, is cut off in some of them before the type
around the expression (`ancestors_ofText`).
-/

namespace Caret

open Tree

/-! ## Parsers that make a token a part of some nodes -/

namespace Parser

/-- Before these tokens the parser reads until only the latter are left. -/
def Passes (p : Parser) (before after : List Token) : Prop :=
  ∀ c : Cursor, c.rest = before → (p c).2.rest = after

/-- Before these tokens the parser makes a tree in which a token is in nodes of these kinds, the
outermost first. -/
def Buries (p : Parser) (before : List Token) (x : Token) (ks : List NodeKind) : Prop :=
  ∀ c : Cursor, c.rest = before → ∃ t ∈ (p c).1, ∃ fs, t.Holds x fs ∧ fs.map (·.kind) = ks

variable {p q : Parser} {ts us vs : List Token} {x y : Token} {ks : List NodeKind}
  {test : TokenKind → Bool}

namespace Passes

theorem append (hp : Passes p ts us) (hq : Passes q us vs) : Passes (p ++ q) ts vs :=
  fun c hc => hq _ (hp c hc)

theorem emit (found : List Tree) : Passes (Parser.emit found) ts ts := fun _ hc => hc

theorem take : Passes Parser.take (y :: ts) ts := by
  intro c hc
  rw [Parser.take]
  split
  · rename_i h
    rw [h] at hc
    cases hc
  · rename_i h
    rw [h] at hc
    exact (List.cons.inj hc).2

theorem into (hp : Passes p ts us) (slot : Slot) : Passes (p.into slot) ts us := hp

theorem node (hp : Passes p ts us) (k : NodeKind) : Passes (Parser.node k p) ts us := hp

theorem look {choose : Cursor → Parser} (h : ∀ c, c.rest = ts → Passes (choose c) ts us) :
    Passes (Parser.look choose) ts us := fun c hc => h c hc c hc

theorem ifNext (hp : Passes p (y :: ts) us) (h : test y.kind) :
    Passes (Parser.ifNext test p q) (y :: ts) us := by
  intro c hc
  rw [ifNext_pos (by rwa [kind_of_rest hc])]
  exact hp c hc

theorem unlessNext (hq : Passes q (y :: ts) us) (h : test y.kind = false) :
    Passes (Parser.ifNext test p q) (y :: ts) us := by
  intro c hc
  rw [ifNext_neg (by rwa [kind_of_rest hc])]
  exact hq c hc

theorem expect {k : TokenKind} (h : y.kind = k) : Passes (Parser.expect k) (y :: ts) ts :=
  take.ifNext (beq_iff_eq.2 h)

theorem none (h : test y.kind = false) : Passes (Parser.many test p) (y :: ts) (y :: ts) := by
  intro c hc
  rw [many, Parser.look, hc, manyAtMost, ifNext_neg (by rwa [kind_of_rest hc])]
  exact hc

end Passes

namespace Buries

theorem left (h : Buries p ts x ks) (q : Parser) : Buries (p ++ q) ts x ks := by
  intro c hc
  obtain ⟨t, ht, hx⟩ := h c hc
  exact ⟨t, List.mem_append_left _ ht, hx⟩

theorem right (h : Buries q us x ks) (hp : Passes p ts us) : Buries (p ++ q) ts x ks := by
  intro c hc
  obtain ⟨t, ht, hx⟩ := h _ (hp c hc)
  exact ⟨t, List.mem_append_right _ ht, hx⟩

theorem look {choose : Cursor → Parser} (h : ∀ c, c.rest = ts → Buries (choose c) ts x ks) :
    Buries (Parser.look choose) ts x ks := fun c hc => h c hc c hc

theorem read {next : Nat → List Tree → Parser} (hp : Passes p ts us)
    (h : ∀ start found, Buries (next start found) us x ks) : Buries (p.read next) ts x ks :=
  fun c hc => h _ _ _ (hp c hc)

theorem ifNext (h : Buries p (y :: ts) x ks) (htest : test y.kind) (q : Parser) :
    Buries (Parser.ifNext test p q) (y :: ts) x ks := by
  intro c hc
  rw [ifNext_pos (by rwa [kind_of_rest hc])]
  exact h c hc

theorem unlessNext (h : Buries q (y :: ts) x ks) (htest : test y.kind = false) (p : Parser) :
    Buries (Parser.ifNext test p q) (y :: ts) x ks := by
  intro c hc
  rw [ifNext_neg (by rwa [kind_of_rest hc])]
  exact h c hc

theorem into (h : Buries p ts x ks) (slot : Slot) : Buries (p.into slot) ts x ks := by
  intro c hc
  obtain ⟨t, ht, fs, hx, hks⟩ := h c hc
  show ∃ t ∈ lastInto slot (p c).1, _
  rcases List.eq_nil_or_concat (p c).1 with hnil | ⟨ts, u, hconcat⟩
  · rw [hnil] at ht
    cases ht
  rw [hconcat, List.concat_eq_append] at ht ⊢
  rw [lastInto_concat]
  rcases List.mem_append.1 ht with ht | ht
  · exact ⟨t, List.mem_append_left _ ht, fs, hx, hks⟩
  · rw [List.mem_singleton.1 ht] at hx
    exact ⟨_, List.mem_append_right _ (List.mem_singleton_self _), fs, hx.withSlot slot, hks⟩

/-- A node adds its kind. -/
theorem close (h : Buries p ts x ks) (k : NodeKind) (start : Nat) :
    Buries (Parser.close k start p) ts x (k :: ks) := by
  intro c hc
  obtain ⟨t, ht, fs, hx, hks⟩ := h c hc
  obtain ⟨before, after, hsplit⟩ := List.append_of_mem ht
  refine ⟨_, List.mem_singleton_self _, ⟨k, before, t, after⟩ :: fs, ?_, congrArg (k :: ·) hks⟩
  rw [hsplit]
  exact hx.child _ _ _ _ _

theorem node (h : Buries p ts x ks) (k : NodeKind) : Buries (Parser.node k p) ts x (k :: ks) :=
  look fun _ _ => h.close k _

theorem orSkip (h : Buries p ts x ks) (problem : Problem) :
    Buries (p.orSkip problem) ts x ks := by
  intro c hc
  obtain ⟨t, ht, hx⟩ := h c hc
  have hne : (p c).1.isEmpty = false := by
    cases hp : (p c).1 with
    | nil => rw [hp] at ht; cases ht
    | cons => rfl
  refine ⟨t, ?_, hx⟩
  simp only [Parser.orSkip, Parser.read, hne, Bool.false_eq_true, if_false]
  exact ht

theorem many (h : Buries p (y :: ts) x ks) (htest : test y.kind) :
    Buries (Parser.many test p) (y :: ts) x ks := by
  refine look fun c hc => ?_
  rw [hc]
  exact (h.left _).ifNext htest _

theorem separated (h : Buries p (y :: ts) x ks) (htest : test y.kind) :
    Buries (Parser.separated test p) (y :: ts) x ks :=
  look fun _ _ => (h.left _).ifNext htest _

end Buries

end Parser

/-! ## A chain of accesses -/

/-- The end of the text, with `n` more accesses before it. -/
def accesses : Nat → List Char
  | 0 => [';', '\x7d']
  | n + 1 => '.' :: 'a' :: accesses n

/-- The tokens of these accesses and of the end, where they start at an offset. -/
def links (offset : Nat) : Nat → List Token
  | 0 => [⟨.semicolon, offset, [';']⟩, ⟨.closeBrace, offset + 1, ['\x7d']⟩]
  | n + 1 => ⟨.dot, offset, ['.']⟩ :: ⟨.identifier, offset + 1, ['a']⟩ :: links (offset + 2) n

theorem length_links (offset n : Nat) : (links offset n).length = 2 * n + 2 := by
  induction n generalizing offset with
  | zero => rfl
  | succ n ih =>
    simp only [links, List.length_cons, ih]
    omega

namespace Grammar
open Caret.Parser

variable {x a : Token} {fs : List Frame} {c d : Cursor} {t : Tree} {e : Parser} {offset n : Nat}

/-- An access makes what stands before it a part of a larger expression. -/
theorem enlarge_link (e : Parser) (start : Nat) (t : Tree) (hc : c.rest = links offset (n + 1)) :
    ∃ ext u d f, suffix e c = some ext ∧ enlarge ext start [t] c = ([u], d) ∧
      d.rest = links (offset + 2) n ∧ f.kind = .memberAccessExpression ∧
      ∀ {x fs}, t.Holds x fs → u.Holds x (f :: fs) := by
  obtain ⟨rest, length, readEnd, diagnostics⟩ := c
  subst hc
  exact ⟨_, _, _, ⟨.memberAccessExpression, [], t.withSlot .left, _⟩, rfl, rfl, rfl, rfl,
    fun h => (h.withSlot .left).child _ _ _ [] _⟩

theorem extend_links (e : Parser) (start : Nat) {unread : List Token}
    (hc : c.rest = links offset n) (hn : n ≤ unread.length) (ht : t.Holds x fs) :
    ∃ u gs d, extend (suffix e) start unread [t] c = ([u], d) ∧ d.kind = .semicolon ∧
      u.Holds x (gs ++ fs) ∧ gs.map (·.kind) = List.replicate n .memberAccessExpression := by
  induction n generalizing c t offset unread fs with
  | zero =>
    have hkind : c.kind = .semicolon := kind_of_rest hc
    refine ⟨t, [], c, ?_, hkind, ht, rfl⟩
    cases unread with
    | nil => rfl
    | cons _ unread => rw [extend, look, suffix, hkind]; rfl
  | succ n ih =>
    cases unread with
    | nil => simp at hn
    | cons _ unread =>
      obtain ⟨ext, u, d, f, hext, henlarge, hd, hf, hu⟩ := enlarge_link e start t hc
      obtain ⟨v, gs, d', hextend, hd', hv, hgs⟩ := ih hd (Nat.le_of_succ_le_succ hn) (hu ht)
      refine ⟨v, gs ++ [f], d', ?_, hd', by simpa using hv, ?_⟩
      · rw [extend, look, hext, ← hextend]
        simp only [Parser.read, henlarge]
      · rw [List.map_append, hgs, List.map_singleton, hf, List.replicate_succ']

/-- The name `a` with all its accesses. -/
theorem suffixed_links (e : Parser) (ha : a.kind = .identifier)
    (hc : c.rest = a :: links offset n) :
    ∃ u fs d, suffixed e c = ([u], d) ∧ d.kind = .semicolon ∧ u.Holds a fs ∧
      fs.map (·.kind) = List.replicate n .memberAccessExpression ++ [.identifierName] := by
  obtain ⟨rest, length, readEnd, diagnostics⟩ := c
  subst hc
  have hname : primary e ⟨a :: links offset n, length, readEnd, diagnostics⟩ =
      identifierName ⟨a :: links offset n, length, readEnd, diagnostics⟩ := by
    rw [primary, look, kind_of_rest rfl, ha]
  have hle : n ≤ (links offset n).length := by rw [length_links]; omega
  have hrest : (⟨links offset n, length, a.stop, diagnostics⟩ : Cursor).rest = links offset n := rfl
  obtain ⟨u, gs, d, hu, hd, hgs, hkinds⟩ := extend_links e a.start hrest hle
    ((Holds.leaf (x := a) .loose).child .loose .identifierName ⟨a.start, max a.stop a.start⟩ [] [])
  refine ⟨u, _, d, ?_, hd, hgs, by rw [List.map_append, hkinds]; rfl⟩
  rw [← hu, suffixed, Parser.read, hname]
  rfl

/-! ## Nothing follows -/

theorem level_end {p : Parser} {precedence : Nat} (h : p c = ([t], d)) (hd : d.kind = .semicolon) :
    level precedence p c = ([t], d) := by
  have hrule : operation precedence p d = none := by rw [operation, hd]; rfl
  rw [level, extended, Parser.read, h, look]
  cases d.rest with
  | nil => rfl
  | cons _ unread => simp only [extend, look, hrule]; rfl

theorem assignment_end {p : Parser} (h : p c = ([t], d)) (hd : d.kind = .semicolon)
    (value : Parser) : assignment p value c = ([t], d) := by
  have hbinary : binary p c = ([t], d) :=
    level_end (level_end (level_end (level_end (level_end (level_end h hd) hd) hd) hd) hd) hd
  rw [assignment, Parser.read, hbinary]
  exact ifNext_neg (by rw [hd]; rfl) _ _

theorem buries_above (inner : Nesting) (ha : a.kind = .identifier) :
    Buries inner.above.above.expression (a :: links offset n) a
      (List.replicate n .memberAccessExpression ++ [.identifierName]) := by
  intro c hc
  obtain ⟨u, fs, d, hu, hd, hfs, hkinds⟩ := suffixed_links inner.above.expression ha hc
  have hsign : c.kind.isSign = false := by rw [kind_of_rest hc, ha]; rfl
  have hoperand : inner.above.operand c = ([u], d) := by
    rw [Nesting.above_operand, ifNext_neg hsign, hu]
  rw [Nesting.above_expression, assignment_end hoperand hd]
  exact ⟨u, List.mem_singleton_self u, fs, hfs, hkinds⟩

/-- An expression outside of every statement. -/
theorem buries_outerExpression (ha : a.kind = .identifier) :
    Buries outerExpression (a :: links offset n) a
      (List.replicate n .memberAccessExpression ++ [.identifierName]) := by
  have hlevels : outerExpression = (Nesting.of 254).above.above.expression := rfl
  rw [hlevels]
  exact buries_above _ ha

section

variable {ts : List Token} {ks : List NodeKind}

/-- A field with its initializer, from its name on. -/
theorem buries_fieldRest {name equals : Token} (hname : name.kind = .identifier)
    (hequals : equals.kind = .equals) (h : Buries outerExpression ts x ks) :
    Buries fieldRest (name :: equals :: ts) x (.variableDeclarator :: ks) := by
  have hinitializer : Buries
      (ifNext (· == .equals) (take ++ outerExpression.into .initializer) nothing)
      (equals :: ts) x ks :=
    ((h.into .initializer).right .take).ifNext (by rw [hequals]; rfl) _
  have hdeclarator : Buries (declarator outerExpression) (name :: equals :: ts) x _ :=
    (hinitializer.right ((Passes.expect hname).into .name)).node .variableDeclarator
  exact ((hdeclarator.into .declarator).separated rfl).left _

/-- A field, from its type on. -/
theorem buries_member {nested : Nat → List Tree → Parser} {typeName : Option (List Char)}
    {type name equals : Token} (htype : type.kind = .intKeyword) (hname : name.kind = .identifier)
    (hequals : equals.kind = .equals) (h : Buries outerExpression ts x ks) :
    Buries (member nested typeName) (type :: name :: equals :: ts) x
      (.fieldDeclaration :: .variableDeclarator :: ks) := by
  have hhead : Passes declarationHead (type :: name :: equals :: ts)
      (type :: name :: equals :: ts) :=
    (Passes.none (by rw [htype]; rfl)).append (Passes.none (by rw [htype]; rfl))
  have htypeReference : Passes typeReference (type :: name :: equals :: ts)
      (name :: equals :: ts) := by
    refine Passes.look fun c hc => ?_
    rw [if_pos (by rw [kind_of_rest hc, htype]; rfl)]
    refine ((Passes.take.into .name).append (Passes.look fun c hc => ?_)).node .typeReference
    rw [if_neg (by rw [peek_zero, kind_of_rest hc, hname]; simp)]
    exact .emit []
  refine Buries.read hhead fun start head => Buries.look fun c hc => ?_
  have hkind : c.kind = .intKeyword := by rw [kind_of_rest hc, htype]
  have hstart : startsConstructor typeName c = false := by rw [startsConstructor, hkind]; rfl
  rw [hkind, hstart, if_neg (by decide), if_neg (by decide), if_pos (by decide)]
  refine Buries.read ((Passes.emit head).append (htypeReference.into .type)) fun _ found => ?_
  refine Buries.look fun c hc => ?_
  have hkind : c.kind = .identifier := by rw [kind_of_rest hc, hname]
  have hpeek : c.peek 1 = .equals := by rw [Cursor.peek, hc, ← hequals]; rfl
  simp only [hkind, hpeek]
  exact ((buries_fieldRest hname hequals h).right (.emit found)).close .fieldDeclaration start

/-- A type, from its name on. -/
theorem buries_typeRest {memberOf : Option (List Char) → Parser} {name brace y : Token}
    (hname : name.kind = .identifier) (hbrace : brace.kind = .openBrace)
    (hy : continuesBraces y.kind)
    (h : ∀ typeName, Buries (memberOf typeName) (y :: ts) x ks) :
    Buries (typeRest memberOf) (name :: brace :: y :: ts) x ks := by
  refine Buries.look fun c _ => ?_
  have hmembers : Buries (take ++ many continuesBraces
      (((memberOf (if c.kind == .identifier then some c.next.text else none)).into .member).orSkip
        .expectedMember) ++ expect .closeBrace) (brace :: y :: ts) x ks :=
    (((((h _).into .member).orSkip .expectedMember).many hy).right .take).left _
  have hbases : Passes ((expect .identifier).into .name ++
      ifNext (· == .colon) (baseList.into .bases) nothing) (name :: brace :: y :: ts)
      (brace :: y :: ts) :=
    ((Passes.expect hname).into .name).append (.unlessNext (.emit []) (by rw [hbrace]; rfl))
  exact (hmembers.ifNext (by rw [hbrace]; rfl) _).right hbases

/-- A file that begins with a class. -/
theorem buries_declarations {keyword y : Token} (hkeyword : keyword.kind = .classKeyword)
    (h : ∀ nested, Buries (typeRest (member nested)) (y :: ts) x ks) :
    Buries declarations (keyword :: y :: ts) x (.classDeclaration :: ks) := by
  have hclass (start : Nat) (head : List Tree) :
      Buries (typeDeclaration (keyword :: y :: ts) start head) (keyword :: y :: ts) x
        (.classDeclaration :: ks) := by
    refine Buries.look fun c hc => ?_
    rw [kind_of_rest hc, hkeyword]
    exact ((h _).right ((Passes.emit head).append .take)).close .classDeclaration start
  have hhead : Passes declarationHead (keyword :: y :: ts) (keyword :: y :: ts) :=
    (Passes.none (by rw [hkeyword]; rfl)).append (Passes.none (by rw [hkeyword]; rfl))
  have htype : Buries outerType (keyword :: y :: ts) x (.classDeclaration :: ks) := by
    refine Buries.read hhead fun start head => Buries.look fun c hc => ?_
    rw [if_pos (by rw [kind_of_rest hc, hkeyword]; rfl), hc]
    exact hclass start head
  refine Buries.look fun c hc => ?_
  rw [hc]
  exact (((htype.unlessNext (by rw [hkeyword]; rfl) _).into .item).orSkip _).many
    (by rw [hkeyword]; rfl)

end

end Grammar
/-! ## The text -/

/-- A class with one field, which is initialized with `n` accesses. -/
def accessText (n : Nat) : List Char := "class C\x7bint x=a".toList ++ accesses n

/-- The tokens of the text before the initializer. -/
def accessHead : List Token :=
  [⟨.classKeyword, 0, "class".toList⟩, ⟨.identifier, 6, "C".toList⟩, ⟨.openBrace, 7, ['\x7b']⟩,
    ⟨.intKeyword, 8, "int".toList⟩, ⟨.identifier, 12, "x".toList⟩, ⟨.equals, 13, "=".toList⟩]

theorem first_accesses (n : Nat) : Piece.first 'a' (accesses n) = ⟨some .identifier, 0⟩ := by
  cases n <;> rfl

theorem scanFrom_accesses (offset n : Nat) :
    ∃ length, scanFrom offset 0 (accesses n) = links offset n ++ [.endOfFile length] := by
  induction n generalizing offset with
  | zero => exact ⟨_, rfl⟩
  | succ n ih =>
    obtain ⟨length, h⟩ := ih (offset + 2)
    have hdot : Piece.first '.' ('a' :: accesses n) = ⟨some .dot, 0⟩ := rfl
    have hoffset : offset + '.'.utf8Size + 'a'.utf8Size = offset + 2 := rfl
    refine ⟨length, ?_⟩
    rw [accesses, scanFrom, hdot]
    simp only [scanFrom, first_accesses, List.take_zero, hoffset, h]
    rfl

theorem dropLast_scan_accessText (n : Nat) : (scan (accessText n)).dropLast =
    accessHead ++ ⟨.identifier, 14, ['a']⟩ :: links 15 n := by
  obtain ⟨length, h⟩ := scanFrom_accesses 15 n
  have hname : scanFrom 14 0 ('a' :: accesses n) =
      ⟨.identifier, 14, ['a']⟩ :: scanFrom 15 0 (accesses n) := by
    rw [scanFrom, first_accesses]
    rfl
  have hscan : scan (accessText n) = accessHead ++ scanFrom 14 0 ('a' :: accesses n) := rfl
  rw [hscan, hname, h, ← List.cons_append, ← List.append_assoc, List.dropLast_concat]

/-- The kinds of the nodes around the first name of the initializer, the nearest first. -/
def accessKinds (n : Nat) : List NodeKind :=
  .identifierName :: List.replicate n .memberAccessExpression ++
    [.variableDeclarator, .fieldDeclaration, .classDeclaration, .compilationUnit]

theorem root_accessText (n : Nat) : ∃ x fs, (SourceFile.ofText (accessText n)).root.Holds x fs ∧
    fs.reverse.map (·.kind) = accessKinds n := by
  have hfile : Parser.Buries Grammar.declarations
      (accessHead ++ ⟨.identifier, 14, ['a']⟩ :: links 15 n) ⟨.identifier, 14, ['a']⟩
      (.classDeclaration :: .fieldDeclaration :: .variableDeclarator ::
        (List.replicate n .memberAccessExpression ++ [.identifierName])) := by
    refine Grammar.buries_declarations rfl fun nested => ?_
    refine Grammar.buries_typeRest rfl rfl rfl fun typeName => ?_
    exact Grammar.buries_member rfl rfl rfl (Grammar.buries_outerExpression rfl)
  obtain ⟨t, ht, fs, hx, hkinds⟩ :=
    hfile (Grammar.startOf (accessText n)) (dropLast_scan_accessText n)
  obtain ⟨before, after, hsplit⟩ := List.append_of_mem ht
  have hroot : ∃ span last, (SourceFile.ofText (accessText n)).root =
      .node .loose .compilationUnit span (before ++ t :: (after ++ [last])) := by
    simp only [SourceFile.ofText, hsplit, List.append_assoc, List.cons_append]
    exact ⟨_, _, rfl⟩
  obtain ⟨span, last, hroot⟩ := hroot
  refine ⟨_, _, hroot ▸ hx.child .loose .compilationUnit span before _, ?_⟩
  rw [List.map_reverse, List.map_cons, hkinds]
  simp [accessKinds]

namespace NodeTable

/-! ## Ancestors that are cut off -/

/-- The kinds of all ancestors of an entry, the nearest first. -/
def lineageKinds (t : NodeTable) (i : Ref) : List (Option NodeKind) :=
  (t.lineage i).map fun j => t.node? (some j)

section

variable {root : Tree} {x : Token} {fs : List Frame} {ls : List Level} {l : Level}

theorem node?_of_mem (hl : Ladder root ls) (h : l ∈ ls) :
    (ofTree root).node? (some l.site.index) = some l.frame.kind := by
  induction hl with
  | nil => cases h
  | cons hu ht hl ih =>
    rcases List.mem_cons.1 h with rfl | h
    · exact node?_top (.cons hu ht hl)
    · exact ih h

/-- The ancestors of a token are the nodes around it. -/
theorem exists_lineageKinds (h : root.Holds x fs) : ∃ i < (ofTree root).size,
    (ofTree root).lineageKinds (some i) = (fs.reverse.map (·.kind)).map some := by
  obtain ⟨s, ls, -, hframes, hs, hl⟩ := h.exists_ladder
  have hlt : s.index < (ofTree root).size := index_lt_size hs.mem
  have hlineage : (ofTree root).lineage (some s.index) = ls.map (·.site.index) := by
    have hwalk := walk_eq_take hlt (((ofTree root).lineage (some s.index)).length + ls.length)
    rwa [walk_of_stands hs hl, List.take_of_length_le (by omega),
      List.take_of_length_le (by omega), eq_comm] at hwalk
  refine ⟨s.index, hlt, ?_⟩
  rw [lineageKinds, hlineage, ← hframes, frames, List.map_map, List.map_map, List.map_map]
  exact List.map_congr_left fun l hmem => node?_of_mem hl hmem

/-- If the nearest ancestors have other kinds, nothing is found above the entry. -/
theorem nodeAbove_eq_none {i : Nat} {near far : List NodeKind} {p : NodeKind → Bool}
    (hi : i < (ofTree root).size)
    (h : (ofTree root).lineageKinds (some i) = (near ++ far).map some)
    (hlength : walkLimit ≤ near.length) (hp : ∀ k ∈ near, p k = false) :
    (ofTree root).nodeAbove (some i) p = none := by
  rw [nodeAbove_eq_find? hi, List.find?_eq_none]
  intro j hj
  have hmem : (ofTree root).node? (some j) ∈ ((near ++ far).map some).take walkLimit := by
    rw [← h, lineageKinds, ← List.map_take]
    exact List.mem_map_of_mem hj
  rw [← List.map_take, List.take_append_of_le_length hlength, List.mem_map] at hmem
  obtain ⟨k, hk, hkind⟩ := hmem
  rw [isNode, ← hkind, Option.any_some, hp k (List.mem_of_mem_take hk)]
  exact Bool.false_ne_true

end

theorem exists_lineageKinds_accessText (n : Nat) : ∃ i < (ofText (accessText n)).size,
    (ofText (accessText n)).lineageKinds (some i) = (accessKinds n).map some := by
  obtain ⟨x, fs, hx, hkinds⟩ := root_accessText n
  rw [← hkinds, ofText_eq]
  exact exists_lineageKinds hx

/-- If there are enough accesses then nothing is found beyond them. -/
theorem nodeAbove_accessText {n i : Nat} {p : NodeKind → Bool}
    (hi : i < (ofText (accessText n)).size)
    (h : (ofText (accessText n)).lineageKinds (some i) = (accessKinds n).map some)
    (hn : walkLimit ≤ n) (hname : p .identifierName = false)
    (haccess : p .memberAccessExpression = false) :
    (ofText (accessText n)).nodeAbove (some i) p = none := by
  rw [ofText_eq] at hi h ⊢
  refine nodeAbove_eq_none hi h ?_ fun k hk => ?_
  · rw [List.length_cons, List.length_replicate]
    omega
  · rcases List.mem_cons.1 hk with rfl | hk
    · exact hname
    · rw [List.eq_of_mem_replicate hk, haccess]

/-- What `ancestors` lists are the first `walkLimit` of all ancestors. So it goes up to the file,
and a node of some kind is found wherever there is one, if there are no more ancestors than that. -/
theorem ancestors_ofText (text : List Char) {i : Nat} (hi : i < (ofText text).size) :
    (∀ j, j ∈ (ofText text).lineage (some i) ↔
      Relation.TransGen (ofText text).HasParent i j) ∧
    (i :: (ofText text).lineage (some i)).getLast? = (ofText text).root ∧
    (ofText text).ancestors (some i) = ((ofText text).lineage (some i)).take walkLimit ∧
    ((i :: (ofText text).ancestors (some i)).getLast? = (ofText text).root ↔
      ((ofText text).lineage (some i)).length ≤ walkLimit) ∧
    (∀ p, (ofText text).nodeAbove (some i) p =
      (((ofText text).lineage (some i)).take walkLimit).find? fun j =>
        (ofText text).isNode p (some j)) ∧
    (((ofText text).lineage (some i)).length ≤ walkLimit →
      ∀ p, (ofText text).nodeAbove (some i) p =
        ((ofText text).lineage (some i)).find? fun j => (ofText text).isNode p (some j)) := by
  rw [ofText_eq] at hi ⊢
  have habove := nodeAbove_eq_find? hi
  refine ⟨fun j => mem_lineage hi, getLast?_lineage hi, ancestors_eq_take hi,
    getLast?_ancestors hi, habove, fun hlength p => ?_⟩
  rw [← List.take_of_length_le hlength]
  exact habove p

/-- The ancestors of the keyword of a class in a namespace. -/
theorem ancestors_ofText_namespace :
    ∃ text i, text = "namespace N { class C { } }".toList ∧ i < (ofText text).size ∧
      (ofText text).token? (some i) = some .classKeyword ∧
      (i :: (ofText text).ancestors (some i)).getLast? = (ofText text).root := by
  refine ⟨_, 3, rfl, by decide +kernel, by decide +kernel, ?_⟩
  obtain ⟨-, -, -, hlast, -, -⟩ := ancestors_ofText "namespace N { class C { } }".toList
    (i := 3) (by decide +kernel)
  exact hlast.2 (by decide +kernel)

/-- With as many accesses as a walk has steps, the ancestors are cut off before the file, and
neither the class nor the field around the initializer is found. -/
theorem ancestors_accessText_cut_off :
    ∃ i < (ofText (accessText walkLimit)).size,
      walkLimit < ((ofText (accessText walkLimit)).lineage (some i)).length ∧
      (i :: (ofText (accessText walkLimit)).ancestors (some i)).getLast? ≠
        (ofText (accessText walkLimit)).root ∧
      (∃ j ∈ (ofText (accessText walkLimit)).lineage (some i),
        (ofText (accessText walkLimit)).isNode NodeKind.isTypeDeclaration (some j)) ∧
      (ofText (accessText walkLimit)).nodeAbove (some i) NodeKind.isTypeDeclaration = none ∧
      (∃ j ∈ (ofText (accessText walkLimit)).lineage (some i),
        (ofText (accessText walkLimit)).isNode NodeKind.isMemberDeclaration (some j)) ∧
      (ofText (accessText walkLimit)).nodeAbove (some i) NodeKind.isMemberDeclaration = none := by
  obtain ⟨i, hi, hlineage⟩ := exists_lineageKinds_accessText walkLimit
  have hlength : walkLimit < ((ofText (accessText walkLimit)).lineage (some i)).length := by
    have hkinds := congrArg List.length hlineage
    rw [lineageKinds, List.length_map, List.length_map] at hkinds
    rw [hkinds]
    simp only [accessKinds, List.cons_append, List.length_cons, List.length_append,
      List.length_replicate]
    omega
  have hfound {k : NodeKind} (hk : k ∈ accessKinds walkLimit) {p : NodeKind → Bool} (hp : p k) :
      ∃ j ∈ (ofText (accessText walkLimit)).lineage (some i),
        (ofText (accessText walkLimit)).isNode p (some j) := by
    have hmem : some k ∈ (ofText (accessText walkLimit)).lineageKinds (some i) := by
      rw [hlineage]
      exact List.mem_map_of_mem hk
    obtain ⟨j, hj, hkind⟩ := List.mem_map.1 hmem
    exact ⟨j, hj, by rw [isNode, hkind]; exact hp⟩
  have hnone {p : NodeKind → Bool} (hname : p .identifierName = false)
      (haccess : p .memberAccessExpression = false) :
      (ofText (accessText walkLimit)).nodeAbove (some i) p = none :=
    nodeAbove_accessText hi hlineage (Nat.le_refl _) hname haccess
  refine ⟨i, hi, hlength, fun h => ?_, hfound (k := .classDeclaration) (by simp [accessKinds]) rfl,
    hnone rfl rfl, hfound (k := .fieldDeclaration) (by simp [accessKinds]) rfl, hnone rfl rfl⟩
  rw [ofText_eq] at hi hlength h
  exact absurd ((getLast?_ancestors hi).1 h) (Nat.not_le.2 hlength)

end NodeTable

end Caret
