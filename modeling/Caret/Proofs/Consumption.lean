import Caret.Proofs.Rereading
/-!
# What parsers read exactly

`Consumes p c ts rest` says that `p` reads the tokens before `rest` from the cursor, makes the trees
`ts` of them and reports nothing. The lemmas follow the ways in which parsers are put together, so
that a run on tokens of known kinds can be put together too. They are used for the tokens of a type
(`typeReference_consumes`), and for those of a qualified name that is read as an expression
(`expression_consumes`).
-/

namespace Caret

/-- The kind and the text of a token, without its place. -/
abbrev Word := TokenKind × List Char

/-- What is written in a token. -/
def Token.word (x : Token) : Word := (x.kind, x.text)

/-- Tokens with the given words stand before `rest`. -/
def Cursor.Before (c : Cursor) (words : List Word) (rest : List Token) : Prop :=
  ∃ ts, ts.map Token.word = words ∧ c.rest = ts ++ rest

namespace Parser

/-- The parser reads the tokens before `rest`, makes the trees of them and reports nothing. -/
structure Consumes (p : Parser) (c : Cursor) (ts : List Tree) (rest : List Token) : Prop where
  trees : (p c).1 = ts
  rest : (p c).2.rest = rest
  quiet : (p c).2.diagnostics = c.diagnostics

/-- The parser reads the words before a semicolon to their end and reports nothing. -/
def Accepts (p : Parser) (words : List Word) : Prop :=
  ∃ c s r, s.kind = .semicolon ∧ c.Before words (s :: r) ∧ (p c).2.rest = s :: r ∧
    (p c).2.diagnostics = []

variable {p q : Parser} {c : Cursor} {ts us : List Tree} {rest mid : List Token} {x : Token}
  {test : TokenKind → Bool} {n m : Nat} {words : List Word}

namespace Consumes

theorem emit (ts : List Tree) (c : Cursor) : Consumes (Parser.emit ts) c ts c.rest :=
  ⟨rfl, rfl, rfl⟩

theorem take (h : c.rest = x :: rest) : Consumes Parser.take c [.leaf .loose x] rest := by
  constructor <;> simp [Parser.take, h]

theorem append (hp : Consumes p c ts mid) (hq : Consumes q (p c).2 us rest) :
    Consumes (p ++ q) c (ts ++ us) rest := by
  constructor
  · rw [append_apply, hp.trees, hq.trees]
  · exact hq.rest
  · exact hq.quiet.trans hp.quiet

theorem ifNext_pos (ht : test c.kind) (h : Consumes p c ts rest) :
    Consumes (Parser.ifNext test p q) c ts rest := by
  have heq := Parser.ifNext_pos ht p q
  exact ⟨heq ▸ h.trees, heq ▸ h.rest, heq ▸ h.quiet⟩

theorem ifNext_neg (ht : test c.kind = false) (h : Consumes q c ts rest) :
    Consumes (Parser.ifNext test p q) c ts rest := by
  have heq := Parser.ifNext_neg ht p q
  exact ⟨heq ▸ h.trees, heq ▸ h.rest, heq ▸ h.quiet⟩

/-- A part that the next token does not start. -/
theorem skip (ht : test c.kind = false) :
    Consumes (Parser.ifNext test p Parser.nothing) c [] c.rest := ifNext_neg ht (emit [] c)

theorem expect {k : TokenKind} (h : c.rest = x :: rest) (hk : x.kind = k) :
    Consumes (Parser.expect k) c [.leaf .loose x] rest :=
  ifNext_pos (by rw [kind_of_rest h, hk]; exact beq_self_eq_true k) (take h)

theorem into (h : Consumes p c ts rest) (slot : Slot) :
    Consumes (p.into slot) c (Tree.lastInto slot ts) rest :=
  ⟨congrArg (Tree.lastInto slot) h.trees, h.rest, h.quiet⟩

theorem close (h : Consumes p c ts rest) (k : NodeKind) (start : Nat) :
    ∃ span, Consumes (Parser.close k start p) c [.node .loose k span ts] rest :=
  ⟨_, by rw [← h.trees]; rfl, h.rest, h.quiet⟩

theorem node (h : Consumes p c ts rest) (k : NodeKind) :
    ∃ span, Consumes (Parser.node k p) c [.node .loose k span ts] rest := by
  obtain ⟨span, htrees, hrest, hquiet⟩ := h.close k c.next.start
  exact ⟨span, htrees, hrest, hquiet⟩

theorem look {choose : Cursor → Parser} (h : Consumes (choose c) c ts rest) :
    Consumes (Parser.look choose) c ts rest := ⟨h.trees, h.rest, h.quiet⟩

/-- What is read first, and what the parser goes on with. -/
theorem read {next : Nat → List Tree → Parser} (hp : Consumes p c ts mid)
    (hnext : Consumes (next c.next.start ts) (p c).2 us rest) :
    Consumes (p.read next) c us rest := by
  rw [← hp.trees] at hnext
  exact ⟨hnext.trees, hnext.rest, hnext.quiet.trans hp.quiet⟩

end Consumes

/-- What is accepted somewhere is consumed wherever it stands before a semicolon. -/
theorem Accepts.consumes (h : Accepts p words) (hq : Rereads n Any p q)
    (hc : c.Before words (x :: rest)) (hx : x.kind = .semicolon) :
    Consumes q c (q c).1 (x :: rest) := by
  obtain ⟨d, s, r, hs, ⟨us, hus, hd⟩, hstop, hclean⟩ := h
  obtain ⟨vs, hvs, hc⟩ := hc
  have hkinds {ts : List Token} (hts : ts.map Token.word = words) :
      ts.map Token.kind = words.map Prod.fst := by
    rw [← hts, List.map_map]
    rfl
  have hfacing : Facing (s :: r) (x :: rest) (words.map Prod.fst) d c :=
    ⟨by simp [hs], by simp [hx], ⟨us, hkinds hus, hd⟩, ⟨vs, hkinds hvs, hc⟩⟩
  obtain ⟨-, hquiet, ks, -, hlast⟩ := hq.again trivial hfacing hclean
  obtain ⟨ls, rfl, hrest⟩ := hlast.rest
  obtain rfl : ls = [] := by simpa [hstop] using hrest
  obtain ⟨ls', hls', hrest'⟩ := hlast.rest'
  obtain rfl : ls' = [] := by simpa using hls'
  exact ⟨rfl, hrest', hquiet⟩

/-! ## Names and types -/

/-- Two tokens of the given kinds are next. -/
def StartsPair (k l : TokenKind) (ts : List Token) : Prop :=
  ∃ x y us, ts = x :: y :: us ∧ x.kind = k ∧ y.kind = l

/-- The kinds of further parts `.B.C` of a name. -/
inductive Dotted : List TokenKind → Prop
  | nil : Dotted []
  | cons {ks} : Dotted ks → Dotted (.dot :: .identifier :: ks)

/-- The kinds of the tokens of a name that a type may have: a built-in type, or a qualified name. -/
def IsTypeName (ks : List TokenKind) : Prop :=
  (∃ k, ks = [k] ∧ k.isPredefinedType) ∨ ∃ parts, ks = .identifier :: parts ∧ Dotted parts

/-- The kinds of the brackets of an array, or none. -/
def IsBrackets (ks : List TokenKind) : Prop := ks = [] ∨ ks = [.openBracket, .closeBracket]

theorem startsPair_iff {k l : TokenKind} (hk : k ≠ .endOfFile) (hl : l ≠ .endOfFile) :
    (c.peek 0 == k && c.peek 1 == l) = true ↔ StartsPair k l c.rest := by
  unfold Cursor.peek StartsPair
  rw [Bool.and_eq_true, beq_iff_eq, beq_iff_eq]
  constructor
  · rintro ⟨h0, h1⟩
    rcases hrest : c.rest with - | ⟨x, - | ⟨y, us⟩⟩
    · rw [hrest] at h0
      exact absurd h0.symm hk
    · rw [hrest] at h1
      exact absurd h1.symm hl
    · rw [hrest] at h0 h1
      exact ⟨x, y, us, rfl, h0, h1⟩
  · rintro ⟨x, y, us, hrest, rfl, rfl⟩
    simp [hrest]

theorem Consumes.takeTwo {x y : Token} (h : c.rest = x :: y :: rest) :
    Consumes (Parser.take ++ Parser.take) c [.leaf .loose x, .leaf .loose y] rest :=
  (Consumes.take h).append (.take (Consumes.take h).rest)

end Parser

namespace Grammar

open Caret.Parser

variable {c : Cursor} {ts name brackets rest : List Token} {e : Parser} {n : Nat}

/-- What a name of several parts begins with. -/
theorem dotted_cases (h : Dotted (ts.map Token.kind)) : ts = [] ∨ ∃ x y us, ts = x :: y :: us ∧
    x.kind = .dot ∧ y.kind = .identifier ∧ Dotted (us.map Token.kind) := by
  generalize hks : ts.map Token.kind = ks at h
  cases h with
  | nil => exact .inl (List.map_eq_nil_iff.1 hks)
  | cons h =>
    obtain ⟨x, ts, rfl, hx, hts⟩ := List.map_eq_cons_iff.1 hks
    obtain ⟨y, us, rfl, hy, rfl⟩ := List.map_eq_cons_iff.1 hts
    exact .inr ⟨x, y, us, rfl, hx, hy, h⟩

/-- Some of the next tokens are further parts of a name, and no further part follows them. -/
theorem exists_dotted : ∀ ts : List Token, ∃ parts rest, ts = parts ++ rest ∧
    Dotted (parts.map Token.kind) ∧ ¬ StartsPair .dot .identifier rest
  | [] => ⟨[], [], rfl, .nil, by rintro ⟨_, _, _, h, -⟩; cases h⟩
  | [x] => ⟨[], [x], rfl, .nil, by rintro ⟨_, _, _, h, -⟩; cases h⟩
  | x :: y :: ts => by
    by_cases h : x.kind = .dot ∧ y.kind = .identifier
    · obtain ⟨parts, rest, rfl, hparts, hstop⟩ := exists_dotted ts
      refine ⟨x :: y :: parts, rest, rfl, ?_, hstop⟩
      rw [List.map_cons, List.map_cons, h.1, h.2]
      exact .cons hparts
    · refine ⟨[], x :: y :: ts, rfl, .nil, ?_⟩
      rintro ⟨_, _, _, heq, hx, hy⟩
      cases heq
      exact h ⟨hx, hy⟩

theorem dotNameAt_iff : dotNameAt c 0 = true ↔ StartsPair .dot .identifier c.rest :=
  startsPair_iff (by decide) (by decide)

theorem dotted_consumes (hts : Dotted (ts.map Token.kind)) (hc : c.rest = ts ++ rest)
    (hstop : ¬ StartsPair .dot .identifier rest) :
    Consumes dotted c (ts.map (.leaf .loose)) rest := by
  suffices h : ∀ (unread : List Token) (ts : List Token) (c : Cursor), Dotted (ts.map Token.kind) →
      c.rest = ts ++ rest → ts.length ≤ unread.length →
        Consumes (dottedAtMost unread) c (ts.map (.leaf .loose)) rest from
    .look (h c.rest ts c hts hc (by simp [hc]))
  intro unread
  induction unread with
  | nil =>
    intro ts c _ hc hu
    obtain rfl := List.length_eq_zero_iff.1 (Nat.le_zero.1 hu)
    rw [← show c.rest = rest from hc]
    exact .emit [] c
  | cons t unread ih =>
    intro ts c hts hc hu
    refine .look ?_
    rcases dotted_cases hts with rfl | ⟨x, y, us, rfl, hx, hy, hus⟩
    · obtain rfl : c.rest = rest := hc
      rw [if_neg (by rwa [dotNameAt_iff])]
      exact .emit [] c
    · rw [if_pos (dotNameAt_iff.2 ⟨x, y, us ++ rest, hc, hx, hy⟩)]
      rw [List.length_cons, List.length_cons, List.length_cons] at hu
      exact (Consumes.takeTwo hc).append (ih us _ hus (Consumes.takeTwo hc).rest (by omega))

theorem arrayBrackets_consumes (hts : IsBrackets (ts.map Token.kind)) (hc : c.rest = ts ++ rest)
    (hstop : ts = [] → ¬ StartsPair .openBracket .closeBracket rest) :
    Consumes arrayBrackets c (ts.map (.leaf .loose)) rest := by
  have hiff := startsPair_iff (c := c) (k := .openBracket) (l := .closeBracket)
    (by decide) (by decide)
  refine .look ?_
  rcases hts with hts | hts
  · obtain rfl := List.map_eq_nil_iff.1 hts
    obtain rfl : c.rest = rest := hc
    rw [if_neg (by rw [hiff]; exact hstop rfl)]
    exact .emit [] c
  · obtain ⟨x, ts, rfl, hx, hts⟩ := List.map_eq_cons_iff.1 hts
    obtain ⟨y, ts, rfl, hy, hts⟩ := List.map_eq_cons_iff.1 hts
    obtain rfl := List.map_eq_nil_iff.1 hts
    rw [if_pos (hiff.2 ⟨x, y, rest, hc, hx, hy⟩)]
    exact .takeTwo hc

/-- The tree of a type with the given tokens. -/
def typeTree (span : Span) (name brackets : List Token) : Tree :=
  .node .loose .typeReference span
    (Tree.lastInto .name (name.map (.leaf .loose)) ++ brackets.map (.leaf .loose))

theorem typeReference_consumes (hname : IsTypeName (name.map Token.kind))
    (hbrackets : IsBrackets (brackets.map Token.kind)) (hc : c.rest = name ++ (brackets ++ rest))
    (hdot : c.kind = .identifier → ¬ StartsPair .dot .identifier (brackets ++ rest))
    (hstop : brackets = [] → ¬ StartsPair .openBracket .closeBracket rest) :
    ∃ span, Consumes typeReference c [typeTree span name brackets] rest := by
  have harray : ∀ d : Cursor, d.rest = brackets ++ rest →
      Consumes arrayBrackets d (brackets.map (.leaf .loose)) rest :=
    fun d hd => arrayBrackets_consumes hbrackets hd hstop
  rcases hname with ⟨k, hk, hpredefined⟩ | ⟨parts, hk, hparts⟩
  · obtain ⟨x, ts, rfl, rfl, hts⟩ := List.map_eq_cons_iff.1 hk
    obtain rfl := List.map_eq_nil_iff.1 hts
    have hname := (Consumes.take hc).into .name
    obtain ⟨span, h⟩ := (hname.append (harray _ hname.rest)).node .typeReference
    refine ⟨span, .look ?_⟩
    rw [if_pos (by rwa [kind_of_rest hc])]
    exact h
  · obtain ⟨x, ts, rfl, hx, rfl⟩ := List.map_eq_cons_iff.1 hk
    have hkind : c.kind = .identifier := (kind_of_rest hc).trans hx
    have hname : Consumes (take ++ dotted) c ((x :: ts).map (.leaf .loose)) (brackets ++ rest) :=
      (Consumes.take hc).append (dotted_consumes hparts (Consumes.take hc).rest (hdot hkind))
    obtain ⟨span, h⟩ := ((hname.into .name).append (harray _ hname.rest)).node .typeReference
    refine ⟨span, .look ?_⟩
    rw [hkind]
    exact h

/-- Some of the next tokens are brackets, unless no brackets follow. -/
theorem exists_brackets (ts : List Token) : ∃ brackets rest, ts = brackets ++ rest ∧
    IsBrackets (brackets.map Token.kind) ∧
      (brackets = [] → ¬ StartsPair .openBracket .closeBracket rest) := by
  by_cases h : StartsPair .openBracket .closeBracket ts
  · obtain ⟨x, y, rest, rfl, hx, hy⟩ := h
    exact ⟨[x, y], rest, rfl, .inr (by simp [hx, hy]), fun h => by cases h⟩
  · exact ⟨[], ts, rfl, .inl rfl, fun _ => h⟩

/-- What begins like a type begins with the tokens of one. -/
theorem exists_type (h : startsType c.kind) : ∃ name brackets rest span,
    c.rest = name ++ (brackets ++ rest) ∧ IsTypeName (name.map Token.kind) ∧
      IsBrackets (brackets.map Token.kind) ∧
        Consumes typeReference c [typeTree span name brackets] rest := by
  obtain ⟨ts, hc⟩ := exists_rest (c := c) fun he => by rw [he] at h; cases h
  have hkind := kind_of_rest hc
  rw [startsType, Bool.or_eq_true, beq_iff_eq] at h
  rcases h with h | h
  · obtain ⟨parts, after, rfl, hparts, hdot⟩ := exists_dotted ts
    obtain ⟨brackets, rest, rfl, hbrackets, hstop⟩ := exists_brackets after
    have hname : IsTypeName ((c.next :: parts).map Token.kind) :=
      .inr ⟨_, by rw [List.map_cons, ← hkind, h], hparts⟩
    obtain ⟨span, hconsumes⟩ := typeReference_consumes hname hbrackets hc (fun _ => hdot) hstop
    exact ⟨_, brackets, rest, span, hc, hname, hbrackets, hconsumes⟩
  · obtain ⟨brackets, rest, rfl, hbrackets, hstop⟩ := exists_brackets ts
    have hname : IsTypeName ([c.next].map Token.kind) := .inl ⟨_, rfl, hkind ▸ h⟩
    obtain ⟨span, hconsumes⟩ := typeReference_consumes hname hbrackets hc
      (fun he => by rw [he] at h; cases h) hstop
    exact ⟨_, brackets, rest, span, hc, hname, hbrackets, hconsumes⟩

/-! ## Qualified names as expressions -/

variable {x y : Token}

/-- A token that no expression goes on with. -/
def endsExpression (k : TokenKind) : Bool :=
  k != .dot && k != .openParen && k.precedence?.isNone && !k.isAssignment

theorem identifierName_consumes (hc : c.rest = x :: ts) :
    ∃ t, Consumes identifierName c [t] ts := by
  obtain ⟨span, h⟩ := (Consumes.take hc).node .identifierName
  exact ⟨_, h⟩

theorem suffix_dot_consumes (hc : c.rest = x :: y :: ts) (hx : x.kind = .dot)
    (hy : y.kind = .identifier) : ∃ ext us, suffix e c = some ext ∧ Consumes ext.rest c us ts := by
  have hdot := (Consumes.take hc).into .operator
  obtain ⟨t, hname⟩ := identifierName_consumes hdot.rest
  have hmember : Consumes
      (ifNext (· == .identifier) (identifierName.into .right) (report .expectedMemberName))
      (take.into .operator c).2 [t.withSlot .right] ts :=
    .ifNext_pos (by rw [kind_of_rest hdot.rest, hy]; rfl) (hname.into .right)
  refine ⟨⟨.memberAccessExpression, .left, take.into .operator ++
    ifNext (· == .identifier) (identifierName.into .right) (report .expectedMemberName)⟩, _, ?_,
      hdot.append hmember⟩
  rw [suffix, kind_of_rest hc, hx]

/-- Further parts of a name are accesses to members. -/
theorem extend_consumes {parts : List Token} (hparts : Dotted (parts.map Token.kind))
    (hc : c.rest = parts ++ y :: ts) (hy : endsExpression y.kind) {unread : List Token}
    (hu : parts.length < unread.length) (start : Nat) (t : Tree) :
    ∃ u, Consumes (extend (suffix e) start unread [t]) c [u] (y :: ts) := by
  simp only [endsExpression, Bool.and_eq_true, bne_iff_ne] at hy
  induction unread generalizing parts c t with
  | nil => exact absurd hu (Nat.not_lt_zero _)
  | cons z unread ih =>
    rcases dotted_cases hparts with rfl | ⟨a, b, us, rfl, ha, hb, hus⟩
    · have hnone : suffix e c = none := by
        have hkind := kind_of_rest (c := c) hc
        unfold suffix
        split <;> simp_all
      have hemit := Consumes.emit [t] c
      rw [show c.rest = y :: ts from hc] at hemit
      refine ⟨t, .look ?_⟩
      rw [hnone]
      exact hemit
    · obtain ⟨ext, vs, hext, hrest⟩ := suffix_dot_consumes (e := e) hc ha hb
      obtain ⟨span, henlarge⟩ := ((Consumes.emit ([t].map (Tree.withSlot ext.slot)) c).append
        hrest).close ext.kind start
      rw [List.length_cons, List.length_cons, List.length_cons] at hu
      obtain ⟨u, hu⟩ := ih hus henlarge.rest (by omega)
        (.node .loose ext.kind span ([t].map (Tree.withSlot ext.slot) ++ vs))
      refine ⟨u, .look ?_⟩
      rw [hext]
      exact .read henlarge hu

theorem suffixed_consumes {parts : List Token} (hc : c.rest = x :: (parts ++ y :: ts))
    (hx : x.kind = .identifier) (hparts : Dotted (parts.map Token.kind))
    (hy : endsExpression y.kind) : ∃ t, Consumes (suffixed e) c [t] (y :: ts) := by
  obtain ⟨t, h⟩ := identifierName_consumes hc
  have hprimary : Consumes (primary e) c [t] (parts ++ y :: ts) := by
    refine .look ?_
    rw [kind_of_rest hc, hx]
    exact h
  have hu : parts.length < (primary e c).2.rest.length := by
    rw [hprimary.rest]
    simp
  obtain ⟨u, hu⟩ := extend_consumes (e := e) hparts hprimary.rest hy hu c.next.start t
  exact ⟨u, .read hprimary (.look hu)⟩

/-- A chain that ends with its first operand. -/
theorem level_consumes {p : Parser} {t : Tree} (h : Consumes p c [t] (y :: ts))
    (hy : endsExpression y.kind) (precedence : Nat) :
    Consumes (level precedence p) c [t] (y :: ts) := by
  simp only [endsExpression, Bool.and_eq_true, Option.isNone_iff_eq_none] at hy
  unfold level extended
  refine .read h (.look ?_)
  have hnone : operation precedence p (p c).2 = none := by
    rw [operation, kind_of_rest h.rest, hy.1.2]
    rfl
  have hemit := Consumes.emit [t] (p c).2
  rw [h.rest] at hemit ⊢
  refine .look ?_
  rw [hnone]
  exact hemit

theorem expression_consumes {parts : List Token} (hc : c.rest = x :: (parts ++ y :: ts))
    (hx : x.kind = .identifier) (hparts : Dotted (parts.map Token.kind))
    (hy : endsExpression y.kind) (n : Nat) :
    ∃ t, Consumes (expression (n + 1)) c [t] (y :: ts) := by
  have hsign : c.kind.isSign = false := by rw [kind_of_rest hc, hx]; rfl
  obtain ⟨t, h⟩ : ∃ t, Consumes (Nesting.of n).operand c [t] (y :: ts) := by
    cases n with
    | zero =>
      rw [Nesting.of_zero_operand]
      exact (suffixed_consumes hc hx hparts hy).imp fun _ h => .ifNext_neg hsign h
    | succ n =>
      rw [Nesting.of_succ_operand]
      exact (suffixed_consumes hc hx hparts hy).imp fun _ h => .ifNext_neg hsign h
  have hlevel {p : Parser} (precedence : Nat) (h : Consumes p c [t] (y :: ts)) :
      Consumes (level precedence p) c [t] (y :: ts) := level_consumes h hy precedence
  have hbinary : Consumes (binary (Nesting.of n).operand) c [t] (y :: ts) :=
    hlevel 1 (hlevel 2 (hlevel 3 (hlevel 4 (hlevel 5 (hlevel 6 h)))))
  have hassign : (binary (Nesting.of n).operand c).2.kind.isAssignment = false := by
    rw [kind_of_rest hbinary.rest]
    simp only [endsExpression, Bool.and_eq_true] at hy
    simpa using hy.2
  have hemit := Consumes.emit [t] (binary (Nesting.of n).operand c).2
  rw [hbinary.rest] at hemit
  refine ⟨t, ?_⟩
  rw [expression, Nesting.of_succ_expression]
  unfold assignment
  exact .read hbinary (.ifNext_neg hassign hemit)

end Grammar

end Caret
