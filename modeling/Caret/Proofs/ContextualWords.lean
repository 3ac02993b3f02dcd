import Caret.Proofs.Neighbours
import Caret.Proofs.Spacing
import Caret.Proofs.Stability
/-!
# Words that are keywords in some places only

`get`, `set` and `partial` are read as keywords (`text_to_keyword`) wherever they stand, also where
a name is expected. So none of them is ever a declared name: a name stands behind a type or a comma,
such a word behind a modifier, attributes, a brace or a semicolon, or first in the text. If one of
them takes the place of a declared name, the text is not read without diagnostics any more
(`NodeTable.diagnostics_ne_nil_of_contextual`).
-/

namespace Caret

open Pattern Tree

namespace TokenKind

/-- A word that is meant to be a keyword in some places only. -/
def isContextual (k : TokenKind) : Bool :=
  k == .getKeyword || k == .setKeyword || k == .partialKeyword

/-- A comma or a type is before a place, told by the kinds of the tokens before it, the nearest
first. -/
def introduceName : List TokenKind → Bool
  | .closeBracket :: .openBracket :: k :: _ => Grammar.startsType k
  | k :: _ => k == .comma || Grammar.startsType k
  | [] => false

/-- A token that a declaration may stand behind. -/
def isClosed (k : TokenKind) : Bool := k == .openBrace || k == .closeBrace || k == .semicolon

theorem introduceName_of_ne {k : TokenKind} (h : k ≠ .closeBracket) (ks : List TokenKind) :
    introduceName (k :: ks) = (k == .comma || Grammar.startsType k) := by
  cases k <;> first | rfl | exact absurd rfl h

/-- Behind brackets with something in them there is no name. -/
theorem introduceName_brackets {k : TokenKind} (h : k ≠ .openBracket) (ks : List TokenKind) :
    introduceName (.closeBracket :: k :: ks) = false := by
  cases k <;> first | rfl | exact absurd rfl h

end TokenKind

open TokenKind

namespace NodeKind

/-- A declaration with a type before its name. -/
def isTyped (k : NodeKind) : Bool :=
  k == .methodDeclaration || k == .propertyDeclaration || k == .parameter

/-- What declares a name that is not that of a type: a method, a property, a parameter, or a
declarator of fields or locals. -/
def declaresName (k : NodeKind) : Bool := k.isTyped || k == .variableDeclarator

/-- A declaration of a namespace, a type, a member or an accessor. -/
def isDeclaration (k : NodeKind) : Bool := k.isOuter || k.isInner || k == .accessorDeclaration

/-- A tree right before a declared name or declarator. -/
def beforeName (s : Slot) (k : Kind) : Bool :=
  (s == .type && k == .node .typeReference) || k == .token .comma

/-- A name behind a type, and what stands for a list of names behind a type. -/
def named (k : NodeKind) (s : Slot) (kind : Kind) : Bool :=
  (k.isTyped && s == .name) || kind == .node .variableDeclarator

theorem follows_named (k : NodeKind) : k.whole.follows beforeName k.named := by cases k <;> decide

theorem starts_named (k : NodeKind) : k.whole.starts fun s kind => !k.named s kind := by
  cases k <;> decide

/-- A declarator starts with its name. -/
theorem follows_name_of_declarator :
    (whole .variableDeclarator).follows (fun _ _ => false) (fun s _ => s == .name) := by decide

/-- A tree that a contextual word may stand behind. -/
def beforeContextual (_ : Slot) (k : Kind) : Bool :=
  k.isToken isModifier || k == .node .attributeList

theorem follows_contextual (k : NodeKind) :
    k.whole.follows beforeContextual fun _ kind => kind.isToken isContextual := by
  cases k <;> decide

/-- Lists of attributes come first. -/
theorem follows_attributes (k : NodeKind) :
    k.whole.follows (fun _ kind => kind == .node .attributeList)
      fun _ kind => kind == .node .attributeList := by
  cases k <;> decide

/-- Contextual words stand in declarations only. -/
theorem isDeclaration_of_contextual {k : NodeKind} {s : Slot} {t : TokenKind}
    (h : k.whole.allows s (.token t)) (ht : t.isContextual) : k.isDeclaration := by
  by_contra hk
  have hexcludes : k.whole.excludes (.token t) := by
    have hwords : t = .getKeyword ∨ t = .setKeyword ∨ t = .partialKeyword := by
      simpa [isContextual, or_assoc] using ht
    rcases hwords with rfl | rfl | rfl <;> cases k <;> first | rfl | exact absurd rfl hk
  rw [allows_eq_false hexcludes] at h
  cases h

/-- Declarations follow each other, or an opening brace. -/
theorem follows_declaration (k : NodeKind) :
    k.whole.follows (fun _ kind => kind.isNode isDeclaration || kind == .token .openBrace)
      fun _ kind => kind.isNode isDeclaration := by
  cases k <;> decide

/-- Only a whole text starts with a declaration. -/
theorem starts_declaration {k : NodeKind} (h : k ≠ .compilationUnit) :
    k.whole.starts fun _ kind => !kind.isNode isDeclaration := by
  cases k <;> first | decide | exact absurd rfl h

theorem excludes_compilationUnit (k : NodeKind) : k.whole.excludes (.node .compilationUnit) := by
  cases k <;> rfl

theorem isClosed_of_endings {k : NodeKind} {t : TokenKind} (hk : k.isDeclaration)
    (ht : k.endings t) : t.isClosed := by
  have hend : t = .semicolon ∨ t = .closeBrace := by
    cases k <;> first | cases hk; done | simpa [endings, or_comm] using ht | simp_all [endings]
  rcases hend with rfl | rfl <;> rfl

end NodeKind

/-! ## What stands before a token -/

/-- The kinds of some tokens, the last one first. -/
def kindsBack (ts : List Token) : List TokenKind := (ts.map (·.kind)).reverse

theorem kindsBack_append (ts us : List Token) :
    kindsBack (ts ++ us) = kindsBack us ++ kindsBack ts := by
  simp [kindsBack]

theorem kindsBack_concat (ts : List Token) (x : Token) :
    kindsBack (ts ++ [x]) = x.kind :: kindsBack ts := kindsBack_append ts [x]

theorem ahead_concat (gs : List Frame) (f : Frame) :
    ahead (gs ++ [f]) = ahead gs ++ tokensAll f.before := by
  simp [ahead]

/-- Before a token of a text stands what is before it in its frames. -/
theorem Tree.Holds.ahead_eq {t : Tree} {x : Token} {fs : List Frame} {n : Nat} (h : t.Holds x fs)
    (hsorted : t.tokens.Pairwise fun t u => t.start < u.start) (hx : t.tokens[n]? = some x) :
    ahead fs = t.tokens.take n := by
  obtain ⟨hlt, hget⟩ := List.getElem?_eq_some_iff.1 hx
  have hsplit : t.tokens = t.tokens.take n ++ x :: t.tokens.drop (n + 1) := by
    rw [← hget, List.cons_getElem_drop_succ, List.take_append_drop]
  exact (h.around_eq hsorted hsplit).1

section Whole

variable {u : Tree} {next : TokenKind} {ks : List TokenKind}

/-- The last token of some trees is that of the last tree. -/
theorem exists_kindsBack (hu : Throughout WholeNode next u) (before : List Tree) : ∃ k ks,
    kindsBack (tokensAll (before ++ [u])) = k :: ks ∧ u.kind.endings k := by
  obtain ⟨init, x, hx, hends⟩ := exists_last hu
  refine ⟨x.kind, kindsBack (tokensAll before ++ init), ?_, hends⟩
  rw [tokensAll_append, tokensAll, tokensAll, List.append_nil, hx, ← List.append_assoc,
    kindsBack_concat]

/-- A type reference ends with the name of a type, or with brackets behind it. -/
theorem introduceName_of_type (hu : Throughout WholeNode next u)
    (hk : u.kind = .node .typeReference) (ks : List TokenKind) :
    introduceName (kindsBack u.tokens ++ ks) := by
  obtain ⟨slot, span, ts, rfl⟩ := eq_node_of_kind hk
  cases hu with | node hnode _ =>
  obtain ⟨names, brackets, rfl, hnames, hbrackets⟩ := covers_seq.1 hnode.covers
  obtain ⟨init, x, hx, htype⟩ : ∃ init x, tokensAll names = init ++ [x] ∧
      Grammar.startsType x.kind := by
    rcases covers_alt.1 hnames with hname | hname
    · obtain ⟨x, rfl, hx⟩ := covers_leaf.1 hname
      exact ⟨[], x, rfl, by simp [Grammar.startsType, hx]⟩
    · obtain ⟨parts, last, rfl, -, hlast⟩ := covers_seq.1 hname
      obtain ⟨x, rfl, hx⟩ := covers_leaf.1 hlast
      exact ⟨tokensAll parts, x, by simp [tokensAll_append, tokensAll, tokens],
        by simp [Grammar.startsType, hx]⟩
  rw [tokens, tokensAll_append, hx]
  rcases covers_opt.1 hbrackets with hbrackets | rfl
  · obtain ⟨opening, closing, rfl, hopening, hclosing⟩ := covers_seq.1 hbrackets
    obtain ⟨y, rfl, hy⟩ := covers_leaf.1 hopening
    obtain ⟨z, rfl, hz⟩ := covers_leaf.1 hclosing
    simp only [kindsBack, tokensAll, tokens, List.map_append, List.map_cons, List.map_nil,
      List.reverse_append, List.reverse_cons, List.append_nil, List.reverse_nil, List.nil_append,
      List.cons_append, eq_of_beq hy, eq_of_beq hz]
    exact htype
  · have hne : x.kind ≠ .closeBracket := fun he => by rw [he] at htype; cases htype
    rw [tokensAll, List.append_nil, kindsBack_concat, List.cons_append, introduceName_of_ne hne,
      htype, Bool.or_true]

/-- Behind a list of attributes there is no name if there is none right before it. -/
theorem not_introduceName_of_attributes (hu : Throughout WholeNode next u)
    (hk : u.kind = .node .attributeList) (hks : ∀ k ∈ ks.head?, Grammar.startsType k = false) :
    introduceName (kindsBack u.tokens ++ ks) = false := by
  obtain ⟨slot, span, ts, rfl⟩ := eq_node_of_kind hk
  cases hu with | node hnode hinside =>
  obtain ⟨front, closing, rfl, hfront, hclosing⟩ := covers_seq.1 hnode.covers
  obtain ⟨opening, items, rfl, hopening, hitems⟩ := covers_seq.1 hfront
  obtain ⟨y, rfl, hy⟩ := covers_leaf.1 hopening
  obtain ⟨z, rfl, hz⟩ := covers_leaf.1 hclosing
  rw [tokens, tokensAll_append, tokensAll, tokensAll, tokens, List.append_nil, kindsBack_concat,
    eq_of_beq hz, List.cons_append]
  rcases List.eq_nil_or_concat' items with rfl | ⟨init, v, rfl⟩
  · have hopen : kindsBack (tokensAll ([.leaf .loose y] ++ [])) = [.openBracket] :=
      congrArg ([·]) (eq_of_beq hy)
    rw [hopen]
    cases ks with
    | nil => rfl
    | cons k ks => exact hks k rfl
  · obtain ⟨k, ks', hback, hends⟩ :=
      exists_kindsBack (hinside ([.leaf .loose y] ++ init) v [.leaf .loose z] (by simp))
        ([.leaf .loose y] ++ init)
    have hlast := hitems.ends (p := fun _ kind => !kind.endings .openBracket) (by decide) v
      (by simp)
    have hne : k ≠ .openBracket := by
      rintro rfl
      simp [hends] at hlast
    rw [← List.append_assoc, hback, List.cons_append, introduceName_brackets hne]

end Whole

/-! ## Declared names and contextual words in their frames -/

/-- The children of a frame are whole, and as many as its kind asks for. -/
structure Frame.Whole (f : Frame) : Prop where
  covers : f.kind.whole.Covers f.children
  inside : ∀ u ∈ f.children, ∃ next, Throughout WholeNode next u

/-- A declared name, or a declarator, stands behind a type or a comma. -/
theorem Frame.Whole.introduceName_before {g : Frame} (hg : g.Whole)
    (hn : g.kind.named g.child.slot g.child.kind) (ks : List TokenKind) :
    introduceName (kindsBack (tokensAll g.before) ++ ks) := by
  obtain ⟨init, u, hinit, hu⟩ := hg.covers.exists_before g.kind.follows_named g.kind.starts_named hn
  obtain ⟨next, hwhole⟩ := hg.inside u (by simp [Frame.children, hinit])
  rw [hinit]
  rcases Bool.or_eq_true_iff.1 hu with hu | hu
  · rw [tokensAll_append, tokensAll, tokensAll, List.append_nil, kindsBack_append,
      List.append_assoc]
    exact introduceName_of_type hwhole (eq_of_beq (Bool.and_eq_true_iff.1 hu).2) _
  · obtain ⟨k, ks', hback, hends⟩ := exists_kindsBack hwhole init
    rw [eq_of_beq hu] at hends
    rw [hback, ← eq_of_beq hends]
    rfl

/-- Behind the attributes of a declaration there is no name if there is none before it. -/
theorem Frame.Whole.not_introduceName_before {f : Frame} (hf : f.Whole) {init : List Tree}
    {u : Tree} (hinit : f.before = init ++ [u]) (hu : u.kind = .node .attributeList)
    {ks : List TokenKind} (hks : ∀ k ∈ ks.head?, Grammar.startsType k = false) :
    introduceName (kindsBack (tokensAll f.before) ++ ks) = false := by
  obtain ⟨next, hwhole⟩ := hf.inside u (by simp [Frame.children, hinit])
  rw [hinit, tokensAll_append, tokensAll, tokensAll, List.append_nil, kindsBack_append,
    List.append_assoc]
  refine not_introduceName_of_attributes hwhole hu ?_
  rcases List.eq_nil_or_concat' init with rfl | ⟨init', v, rfl⟩
  · exact hks
  · have hcovers := hf.covers
    rw [Frame.children, hinit, List.append_assoc] at hcovers
    have hv := hcovers.before f.kind.follows_attributes (by simp [hu]) v (by simp)
    obtain ⟨next, hvw⟩ := hf.inside v (by simp [Frame.children, hinit])
    obtain ⟨k, ks', hback, hends⟩ := exists_kindsBack hvw init'
    rw [eq_of_beq hv] at hends
    rw [hback]
    rintro _ ⟨⟩
    rw [show k = .closeBracket from eq_of_beq hends]
    rfl

section Frames

variable {root : Tree} {x : Token} {fs gs : List Frame} {f : Frame} {next : TokenKind}
  (hroot : root.kind = .node .compilationUnit) (hw : Throughout WholeNode next root)

theorem Tree.Holds.whole {t : Tree} (h : t.Holds x fs) (hw : Throughout WholeNode next t) :
    ∀ f ∈ fs, f.Whole := by
  induction h generalizing next with
  | leaf => simp
  | node f _ ih =>
    cases hw with
    | node hk hu =>
      refine List.forall_mem_cons.2 ⟨⟨hk.covers, fun u hmem => ?_⟩, ih (hu f.before _ f.after rfl)⟩
      obtain ⟨before, after, hsplit⟩ := List.append_of_mem hmem
      exact ⟨_, hu before u after hsplit⟩

include hroot in
theorem exists_outer (h : root.Holds x (gs ++ f :: fs)) (hf : f.kind ≠ .compilationUnit) :
    ∃ hs g, gs = hs ++ [g] ∧ g.child.kind = .node f.kind := by
  rcases List.eq_nil_or_concat' gs with rfl | ⟨hs, g, rfl⟩
  · have hkind := h.kind_eq
    rw [hroot] at hkind
    exact absurd (Kind.node.inj hkind).symm hf
  · rw [List.append_assoc] at h
    exact ⟨hs, g, rfl, h.inner.kind_eq⟩

include hw in
/-- The frame of the whole text is the outermost one. -/
theorem eq_nil_of_compilationUnit (h : root.Holds x (gs ++ f :: fs))
    (hf : f.kind = .compilationUnit) : gs = [] := by
  have hwhole := h.whole hw
  rcases List.eq_nil_or_concat' gs with rfl | ⟨hs, g, rfl⟩
  · rfl
  · rw [List.append_assoc] at h
    have hkind := h.inner.kind_eq
    rw [hf] at hkind
    exact absurd hkind ((hwhole g (by simp)).covers.excludes g.kind.excludes_compilationUnit
      g.child (by simp [Frame.children]))

include hroot hw

/-- Before a declared name stands a type or a comma. -/
theorem introduceName_of_declared (h : root.Holds x (gs ++ [f])) (hf : f.kind.declaresName)
    (hs : f.child.slot = .name) : introduceName (kindsBack (ahead (gs ++ [f]))) := by
  have hwhole := h.whole hw
  have hfw := hwhole f (by simp)
  rw [ahead_concat, kindsBack_append]
  rcases Bool.or_eq_true_iff.1 hf with htyped | hdeclarator
  · exact hfw.introduceName_before (by simp [NodeKind.named, htyped, hs]) _
  · have hdeclarator : f.kind = .variableDeclarator := eq_of_beq hdeclarator
    obtain ⟨hs', g, rfl, hg⟩ := exists_outer hroot h (by simp [hdeclarator])
    have hcovers := hfw.covers
    rw [hdeclarator] at hcovers
    have hbefore : f.before = [] := by
      refine List.getLast?_eq_none_iff.1 (Option.eq_none_iff_forall_not_mem.2 fun u hu => ?_)
      have hfalse := hcovers.before NodeKind.follows_name_of_declarator (by simp [hs]) u hu
      cases hfalse
    rw [hbefore, ahead_concat, kindsBack_append]
    exact (hwhole g (by simp)).introduceName_before (by simp [NodeKind.named, hg, hdeclarator]) _

/-- Before a declaration stands a brace, a semicolon, or nothing. -/
theorem isClosed_of_declaration (h : root.Holds x (gs ++ f :: fs)) (hf : f.kind.isDeclaration) :
    ∀ k ∈ (kindsBack (ahead gs)).head?, k.isClosed := by
  have hwhole := h.whole hw
  obtain ⟨hs, g, rfl, hg⟩ := exists_outer hroot h (by rintro he; rw [he] at hf; cases hf)
  have hgw := hwhole g (by simp)
  have hdeclaration : g.child.kind.isNode NodeKind.isDeclaration := by rw [hg]; exact hf
  rw [ahead_concat, kindsBack_append]
  rcases List.eq_nil_or_concat' g.before with hnil | ⟨init, u, hinit⟩
  · have hunit : g.kind = .compilationUnit := by
      by_contra hne
      have hcovers := hgw.covers
      rw [Frame.children, hnil] at hcovers
      have hfirst := hcovers.starts (NodeKind.starts_declaration hne) g.child rfl
      simp [hdeclaration] at hfirst
    rw [List.append_assoc] at h
    rw [hnil, eq_nil_of_compilationUnit hw h hunit]
    simp [kindsBack, ahead, tokensAll]
  · have hcovers := hgw.covers
    obtain ⟨next, hu⟩ := hgw.inside u (by simp [Frame.children, hinit])
    obtain ⟨k, ks, hback, hends⟩ := exists_kindsBack hu init
    have hbefore := hcovers.before g.kind.follows_declaration hdeclaration u (by simp [hinit])
    rw [hinit, hback]
    rintro _ ⟨⟩
    rcases Bool.or_eq_true_iff.1 hbefore with hnode | hbrace
    · obtain ⟨n, hn, hdeclared⟩ := Kind.isNode_iff.1 hnode
      rw [hn] at hends
      exact NodeKind.isClosed_of_endings hdeclared hends
    · rw [eq_of_beq hbrace] at hends
      rw [← eq_of_beq hends]
      rfl

/-- Before a contextual word stands neither a type nor a comma. -/
theorem not_introduceName_of_contextual (h : root.Holds x fs) (hx : x.kind.isContextual) :
    introduceName (kindsBack (ahead fs)) = false := by
  rcases List.eq_nil_or_concat' fs with rfl | ⟨gs, f, rfl⟩
  · rw [h.kind_of_nil] at hroot
    cases hroot
  have hfw := h.whole hw f (by simp)
  have hkind : f.child.kind = .token x.kind := h.inner.kind_of_nil
  have hdeclaration : f.kind.isDeclaration := by
    have hallows := hfw.covers.allows f.child (by simp [Frame.children])
    rw [hkind] at hallows
    exact NodeKind.isDeclaration_of_contextual hallows hx
  have hclosed := isClosed_of_declaration hroot hw h hdeclaration
  have hnotype {k : TokenKind} (hk : k.isClosed) : k ≠ .closeBracket ∧ (k == .comma) = false ∧
      Grammar.startsType k = false := by
    cases k <;> first | cases hk; done | decide
  rw [ahead_concat, kindsBack_append]
  rcases List.eq_nil_or_concat' f.before with hnil | ⟨init, u, hinit⟩
  · rw [hnil]
    change introduceName (kindsBack (ahead gs)) = false
    cases hback : kindsBack (ahead gs) with
    | nil => rfl
    | cons k ks =>
      obtain ⟨hne, hcomma, htype⟩ := hnotype (hclosed k (by simp [hback]))
      rw [introduceName_of_ne hne, hcomma, htype]
      rfl
  · obtain ⟨next, hu⟩ := hfw.inside u (by simp [Frame.children, hinit])
    have hbefore := hfw.covers.before f.kind.follows_contextual (by rw [hkind]; exact hx) u
      (by simp [hinit])
    rcases Bool.or_eq_true_iff.1 hbefore with hmodifier | hattributes
    · obtain ⟨m, hm, hmodifier⟩ := Kind.isToken_iff.1 hmodifier
      obtain ⟨k, ks, hback, hends⟩ := exists_kindsBack hu init
      rw [hm] at hends
      obtain rfl : m = k := eq_of_beq hends
      rw [hinit, hback, List.cons_append]
      cases m <;> first | cases hmodifier; done | rfl
    · exact hfw.not_introduceName_before hinit (eq_of_beq hattributes) fun k hk =>
        (hnotype (hclosed k hk)).2.2

end Frames

/-! ## Tables of texts -/

namespace NodeTable

/-- The entry is the declared name of a method, a property, a field, a local or a parameter. -/
def DeclaresName (t : NodeTable) (n : Nat) : Prop :=
  ∃ i k, t.node? (some i) = some k ∧ k.declaresName ∧ (.name, some n) ∈ (t.data (some i)).slots

/-- The token that is a declared name is so in its frames. -/
theorem DeclaresName.exists_frames {root : Tree} {n place : Nat} (h : (ofTree root).DeclaresName n)
    (hsorted : root.tokens.Pairwise fun t u => t.start < u.start)
    (hn : (ofTree root).tokens[place]? = some n) : ∃ x gs f, root.Holds x (gs ++ [f]) ∧
      f.kind.declaresName ∧ f.child.slot = .name ∧ ahead (gs ++ [f]) = root.tokens.take place := by
  obtain ⟨i, k, hk, hname, hslot⟩ := h
  obtain ⟨s, hs, x, rfl, hx, hplace⟩ := exists_leafSite_of_place hn
  obtain ⟨fs, ls, hholds, hls, hstands, hladder⟩ := exists_ladder_of_site hsorted hs hx
  obtain ⟨u, hu, rfl, hkind⟩ := exists_site_of_node hk
  obtain ⟨owner, -, -, v, hv, hvslot, hvs⟩ := exists_child_of_slots hu hslot
  obtain rfl := site_unique (Site.mem_sites_of_mem_children hu hv) hs hvs
  obtain ⟨_, _, _, _, _, -, hparent, -⟩ := Site.mem_children.1 hv
  rw [hstands.parent] at hparent
  cases hladder with
  | nil => cases hparent
  | @cons w f ls slot span hw ht hladder =>
    obtain rfl := site_unique hw.mem hu (Option.some.inj hparent)
    have hf : f.kind = k := by
      rw [ht] at hkind
      exact Kind.node.inj hkind
    have hfs : fs = (frames ls).reverse ++ [f] := by
      rw [← List.reverse_reverse fs, ← hls]
      simp [frames]
    rw [hfs] at hholds
    refine ⟨x, _, f, hholds, hf ▸ hname, ?_, hholds.ahead_eq hsorted hplace⟩
    rw [(hstands.child _ rfl).1, hvslot]

/-- A text that is read without diagnostics is not read so if the word of a declared name in it is
`get`, `set` or `partial` instead. -/
theorem diagnostics_ne_nil_of_contextual {text text' : List Char} {place n : Nat} {w : TokenKind}
    (hclean : (SourceFile.ofText text).diagnostics = [])
    (hn : (ofText text).tokens[place]? = some n) (hname : (ofText text).DeclaresName n)
    (hw : w.isContextual)
    (hreplaced : (scan text').map Token.word = ((scan text).map Token.word).set place w.word) :
    (SourceFile.ofText text').diagnostics ≠ [] := by
  intro hclean'
  rw [ofText_eq] at hn hname
  have hsorted := SourceFile.root_sorted text
  have hsorted' := SourceFile.root_sorted text'
  obtain ⟨x, gs, f, hholds, hf, hslot, hahead⟩ := hname.exists_frames hsorted hn
  have hintroduce := introduceName_of_declared rfl (SourceFile.root_whole hclean) hholds hf hslot
  rw [hahead, SourceFile.root_tokens] at hintroduce
  have hlt : place < (scan text).length := by
    rw [← SourceFile.root_tokens, ← size_tokens]
    exact (Array.getElem?_eq_some_iff.1 hn).1
  obtain ⟨y, hy, hyw⟩ : ∃ y, (scan text')[place]? = some y ∧ y.word = w.word := by
    rw [← Option.map_eq_some_iff, ← List.getElem?_map, hreplaced,
      List.getElem?_set_self (by simpa using hlt)]
  rw [← SourceFile.root_tokens text'] at hy
  obtain ⟨fs, hholds'⟩ := exists_holds (List.mem_of_getElem? hy)
  have hcontextual : y.kind.isContextual := by rwa [show y.kind = w from congrArg Prod.fst hyw]
  have hnot :=
    not_introduceName_of_contextual rfl (SourceFile.root_whole hclean') hholds' hcontextual
  have hearly : ((scan text').take place).map Token.word =
      ((scan text).take place).map Token.word := by
    rw [List.map_take, hreplaced, List.take_set_of_le (Nat.le_refl _), List.map_take]
  have hkinds {ts us : List Token} (h : ts.map Token.word = us.map Token.word) :
      kindsBack ts = kindsBack us := by
    have hfst := congrArg (List.map Prod.fst) h
    simpa [kindsBack, Token.word, Function.comp_def] using hfst
  rw [hholds'.ahead_eq hsorted' hy, SourceFile.root_tokens, hkinds hearly, hintroduce] at hnot
  cases hnot

/-- A method with one parameter. -/
def oneParameterText : List Char := "class C\x7bvoid M(int x)\x7b\x7d\x7d".toList

theorem diagnostics_ne_nil_of_partial_parameter :
    (SourceFile.ofText oneParameterText).diagnostics = [] ∧
      (SourceFile.ofText "class C\x7bvoid M(int partial)\x7b\x7d\x7d".toList).diagnostics ≠ [] := by
  have hclean : (SourceFile.ofText oneParameterText).diagnostics = [] := by decide +kernel
  have hn : (ofText oneParameterText).tokens[7]? = some 9 := by decide +kernel
  have hname : (ofText oneParameterText).DeclaresName 9 :=
    ⟨10, .parameter, by decide +kernel, rfl, by decide +kernel⟩
  have hw : isContextual .partialKeyword := rfl
  exact ⟨hclean, diagnostics_ne_nil_of_contextual hclean hn hname hw (by decide +kernel)⟩

/-- A class with one field. -/
def oneFieldText : List Char := "class C\x7bint x;\x7d".toList

/-- The same class with a field that is called `get`. -/
def getFieldText : List Char := "class C\x7bint get;\x7d".toList

theorem getFieldText_reported :
    (SourceFile.ofText oneFieldText).diagnostics = [] ∧
      (ofText oneFieldText).tokens[4]? = some 5 ∧ (ofText oneFieldText).DeclaresName 5 ∧
      (scan getFieldText).map Token.word =
        ((scan oneFieldText).map Token.word).set 4 (TokenKind.word .getKeyword) ∧
      (SourceFile.ofText getFieldText).diagnostics.map (·.problem) =
        [.expectedMemberName, .expectedMember] :=
  ⟨by decide +kernel, by decide +kernel,
    ⟨6, .variableDeclarator, by decide +kernel, rfl, by decide +kernel⟩, by decide +kernel,
    by decide +kernel⟩

end NodeTable

end Caret
