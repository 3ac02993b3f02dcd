import Caret.Proofs.ReadingBack
/-!
# A field with a written value

The words of a class with one field, whose initializer is an expression, are read as the tree of the
class (`readsAs_declarations`), where the grouping of the expression is explicit.
-/

namespace Caret

/-- The words of a class `C` with a field `x` of the type `T` and the value `e`. -/
def fieldWords (C : Identifier) (T : WrittenType) (x : Identifier) (e : Expression) : List Word :=
  [TokenKind.classKeyword.word, C.word, TokenKind.openBrace.word] ++ T.words ++
    [x.word, TokenKind.equals.word] ++ e.words ++
      [TokenKind.semicolon.word, TokenKind.closeBrace.word]

/-- The tree of a declared name with its value. -/
def declaratorOutline (x : Identifier) (e : Expression) : Outline :=
  .node .declarator .variableDeclarator
    [.leaf .name x.word, .leaf .loose TokenKind.equals.word, e.outline.withSlot .initializer]

/-- The tree of the field. -/
def fieldOutline (T : WrittenType) (x : Identifier) (e : Expression) : Outline :=
  .node .member .fieldDeclaration
    [T.outline.withSlot .type, declaratorOutline x e, .leaf .loose TokenKind.semicolon.word]

/-- The tree of the class. -/
def classOutline (C : Identifier) (T : WrittenType) (x : Identifier) (e : Expression) : Outline :=
  .node .item .classDeclaration
    [.leaf .loose TokenKind.classKeyword.word, .leaf .name C.word,
      .leaf .loose TokenKind.openBrace.word, fieldOutline T x e,
      .leaf .loose TokenKind.closeBrace.word]

namespace Grammar

open Caret.Parser

variable {T : WrittenType} {x C : Identifier} {e : Expression} {p : Parser}
  {ok : TokenKind → Prop}

/-! ## The field -/

theorem readsAs_declaredName (x : Identifier) :
    ReadsAs ((expect .identifier).into .name) [x.word] [.leaf .name x.word] ok :=
  (ReadsAs.expect (w := x.word) rfl).into_one .name

theorem readsAs_declarators (x : Identifier)
    (h : ReadsAs p e.words [e.outline] (fun k => k.endsValue)) :
    ReadsAs (declarators p) (x.word :: TokenKind.equals.word :: e.words) [declaratorOutline x e]
      (· = .semicolon) := by
  have hname : ReadsAs _ [x.word] _ (fun _ => True) := readsAs_declaredName x
  have hequals : ReadsAs take [TokenKind.equals.word] _ (fun _ => True) := .take _
  have hvalue : ReadsAs (ifNext (· == .equals) (take ++ p.into .initializer) nothing) _ _
      (fun k => k.endsValue) :=
    .ifNext_pos (fun _ _ => rfl) (hequals.append (h.into_one .initializer) fun _ _ => trivial)
  have hnode := (hname.append hvalue fun _ _ => trivial).node .variableDeclarator
  have hparts : ∀ part ∈ [(x.word :: TokenKind.equals.word :: e.words, declaratorOutline x e)],
      ReadsAs ((declarator p).into .declarator) part.1 [part.2] (fun k => k.endsValue) ∧
        StartsWith (fun _ => true) part.1 := by
    intro part hpart
    obtain rfl := List.mem_singleton.1 hpart
    exact ⟨hnode.into_one .declarator, _, _, rfl, rfl⟩
  have hall : ReadsAs (separated (fun _ => true) ((declarator p).into .declarator)) _ _
      (· = .semicolon) :=
    .separated (by rfl) (by rintro k rfl; exact ⟨rfl, by decide, nofun⟩) hparts
  exact hall

/-- What follows the type of a field. -/
theorem readsAs_namedMember {found : List Tree} (start : Nat)
    (hfound : Tree.outlines found = [T.outline.withSlot .type])
    (h : ReadsAs outerExpression e.words [e.outline] (fun k => k.endsValue)) :
    ReadsAs (namedMember start found)
      (x.word :: TokenKind.equals.word :: e.words ++ [TokenKind.semicolon.word])
      [(fieldOutline T x e).withSlot .loose] ok := by
  have hend : ReadsAs (expect .semicolon) [TokenKind.semicolon.word] _ ok := .expect rfl
  have hemit : ReadsAs (emit found) [] _ (fun _ => True) := .emit hfound
  have hrest := (readsAs_declarators x h).append hend fun _ _ => rfl
  have hfield := (hemit.append hrest fun _ _ => trivial).close .fieldDeclaration start
  refine .look fun c rest hc _ => ?_
  have hkind : c.kind = .identifier := hc.kind
  have hpeek : c.peek 1 = .equals := hc.peek_one
  rw [if_neg (by rw [hkind]; decide), hpeek]
  exact hfield

theorem readsAs_declarationHead :
    ReadsAs declarationHead [] [] (fun k => k ≠ .openBracket ∧ k.isModifier = false) := by
  have hattributes : ReadsAs attributeLists [] [] (fun k => (k == .openBracket) = false) :=
    .many_skip
  have hmodifiers : ReadsAs modifiers [] [] (fun k => k.isModifier = false) := .many_skip
  exact hattributes.append (hmodifiers.mono fun k (hk : k ≠ .openBracket ∧ _) => hk.2)
    fun k hk => beq_false_of_ne hk.1

/-- A type and a name do not look like the constructor of a class. -/
theorem not_startsConstructor {c : Cursor} {words : List Word} {rest : List Token}
    (hc : c.Before (T.words ++ x.word :: words) rest) (typeName : Option (List Char)) :
    startsConstructor typeName c = false := by
  obtain ⟨mid, hmid, hafter⟩ := hc.split
  obtain ⟨ts, hts, hrest⟩ := hafter ⟨mid, 0, 0, []⟩ rfl
  obtain ⟨y, us, rfl, hy, -⟩ := List.map_eq_cons_iff.1 hts
  obtain rfl : mid = y :: (us ++ rest) := hrest
  have hkind : y.kind = .identifier := congrArg Prod.fst hy
  obtain ⟨a, parts, z, vs, hbegins⟩ :=
    exists_begins (isTypeName_words T.name) (isBrackets_words T) hmid hkind
  exact hbegins.not_startsConstructor typeName

theorem readsAs_member (nested : Nat → List Tree → Parser) (typeName : Option (List Char))
    (h : ReadsAs outerExpression e.words [e.outline] (fun k => k.endsValue)) :
    ReadsAs (member nested typeName)
      (T.words ++ (x.word :: TokenKind.equals.word :: e.words ++ [TokenKind.semicolon.word]))
      [(fieldOutline T x e).withSlot .loose] ok := by
  have hstarts (k : TokenKind) :=
    ((startsWith_type T).append (x.word :: TokenKind.equals.word :: e.words ++
      [TokenKind.semicolon.word])).firstKind k
  refine readsAs_declarationHead.read (fun start head hhead => ?_) fun k _ => ?_
  · obtain rfl := List.map_eq_nil_iff.1 ((Tree.outlines_eq_map head).symm.trans hhead)
    refine .look fun c rest hc _ => ?_
    have hkind : startsType c.kind := by
      rw [hc.kind]
      exact hstarts _
    have htype : c.kind.isTypeKeyword = false := by
      revert hkind
      cases c.kind <;> decide
    rw [if_neg (by simp [htype]), if_neg (by simp [not_startsConstructor hc]), if_pos hkind]
    have hemit : ReadsAs (emit []) [] [] (fun _ => True) := .nothing
    have htype := hemit.append ((readsAs_typeReference T).into_one .type) fun _ _ => trivial
    exact htype.read (fun start found hfound => readsAs_namedMember _ hfound h)
      fun k _ => ⟨show TokenKind.identifier ≠ .dot by decide,
        show TokenKind.identifier ≠ .openBracket by decide⟩
  · have hkind := hstarts k
    revert hkind
    cases firstKind (T.words ++ (x.word :: TokenKind.equals.word :: e.words ++
      [TokenKind.semicolon.word])) k <;> decide

/-! ## The class -/

/-- A type with one member. -/
theorem readsAs_typeRest {memberOf : Option (List Char) → Parser} {words : List Word} {o : Outline}
    (hstarts : StartsWith continuesBraces words)
    (h : ∀ typeName, ReadsAs (memberOf typeName) words [o] (· = .closeBrace)) :
    ReadsAs (typeRest memberOf)
      (C.word :: TokenKind.openBrace.word :: (words ++ [TokenKind.closeBrace.word]))
      [.leaf .name C.word, .leaf .loose TokenKind.openBrace.word, o.withSlot .member,
        .leaf .loose TokenKind.closeBrace.word] ok := by
  refine .look fun c rest _ _ => ?_
  have hname : ReadsAs _ [C.word] _ (fun _ => True) := readsAs_declaredName C
  have hbases : ReadsAs (ifNext (· == .colon) (baseList.into .bases) nothing) [] []
      (fun k => (k == .colon) = false) := .skip fun k hk => hk
  have hopen : ReadsAs take [TokenKind.openBrace.word] _ (fun _ => True) := .take _
  have hclose : ReadsAs (expect .closeBrace) [TokenKind.closeBrace.word] _ ok := .expect rfl
  have hmembers (typeName : Option (List Char)) :=
    ReadsAs.many_one (((h typeName).into_one .member).orSkip .expectedMember) hstarts
      (by rintro k rfl; rfl)
  have hbraces (typeName : Option (List Char)) :=
    (hopen.append (hmembers typeName) fun _ _ => trivial).append hclose fun _ _ => rfl
  exact (hname.append hbases fun _ _ => trivial).append
    (.ifNext_pos (fun _ _ => rfl) (hbraces _)) fun _ _ => rfl

/-- A class outside of every type. -/
theorem readsAs_outerType {words : List Word} {o : Outline}
    (hstarts : StartsWith continuesBraces words)
    (h : ∀ nested typeName, ReadsAs (member nested typeName) words [o] (· = .closeBrace)) :
    ReadsAs outerType (TokenKind.classKeyword.word ::
        (C.word :: TokenKind.openBrace.word :: (words ++ [TokenKind.closeBrace.word])))
      [.node .loose .classDeclaration [.leaf .loose TokenKind.classKeyword.word,
        .leaf .name C.word, .leaf .loose TokenKind.openBrace.word, o.withSlot .member,
        .leaf .loose TokenKind.closeBrace.word]] ok := by
  refine readsAs_declarationHead.read (fun start head hhead => ?_) fun k _ =>
    ⟨show TokenKind.classKeyword ≠ .openBracket by decide, rfl⟩
  obtain rfl := List.map_eq_nil_iff.1 ((Tree.outlines_eq_map head).symm.trans hhead)
  refine .look fun c rest hc _ => ?_
  have hkind : c.kind = .classKeyword := hc.kind
  rw [hkind, if_pos (show TokenKind.classKeyword.isTypeKeyword = true from rfl)]
  obtain ⟨x, ts, hrest⟩ : ∃ x ts, c.rest = x :: ts := by
    obtain ⟨ts, hts, hrest⟩ := hc
    obtain ⟨x, ts, rfl, -, -⟩ := List.map_eq_cons_iff.1 hts
    exact ⟨x, _, hrest⟩
  have hemit : ReadsAs (emit []) [] [] (fun _ => True) := .nothing
  have hkeyword : ReadsAs take [TokenKind.classKeyword.word] _ (fun _ => True) := .take _
  have hname : ReadsAs _ _ _ ok := readsAs_typeRest (C := C) hstarts (h (typeDeclaration ts))
  have hall := ((hemit.append hkeyword fun _ _ => trivial).append hname fun _ _ => trivial).close
    .classDeclaration start
  rw [hrest]
  refine .of_kind (fun d hd => ?_) hall
  have hd : d.kind = .classKeyword := hd
  simp only [typeDeclaration, look, hd]
  rfl

/-- The words of a class with a field are a file that is read as the class. -/
theorem readsAs_declarations
    (h : ReadsAs outerExpression e.words [e.outline] (fun k => k.endsValue)) :
    ReadsAs declarations (fieldWords C T x e) [classOutline C T x e] (· = .endOfFile) := by
  have hstarts : StartsWith continuesBraces
      (T.words ++ (x.word :: TokenKind.equals.word :: e.words ++ [TokenKind.semicolon.word])) :=
    ((startsWith_type T).append _).mono fun k hk => by
      revert hk
      cases k <;> decide
  have htype : ReadsAs outerType _ _ (· = .endOfFile) :=
    readsAs_outerType (C := C) hstarts fun nested typeName => readsAs_member nested typeName h
  refine .look fun c rest hc _ => ?_
  obtain ⟨y, ts, hrest⟩ : ∃ y ts, c.rest = y :: ts := by
    obtain ⟨ts, hts, hrest⟩ := hc
    obtain ⟨y, ts, rfl, -, -⟩ := List.map_eq_cons_iff.1 hts
    exact ⟨y, _, hrest⟩
  have hmember : ReadsAs (namespaceMember (y :: ts)) _ _ (· = .endOfFile) :=
    .ifNext_neg (fun _ _ => rfl) htype
  have hone : ReadsAs (many (· != .endOfFile) _) _ _ (· = .endOfFile) :=
    .many_one ((hmember.into_one .item).orSkip .expectedDeclaration) ⟨_, _, rfl, rfl⟩
      (by rintro k rfl; rfl)
  have hwords : fieldWords C T x e = TokenKind.classKeyword.word :: (C.word ::
      TokenKind.openBrace.word :: ((T.words ++ (x.word :: TokenKind.equals.word :: e.words ++
        [TokenKind.semicolon.word])) ++ [TokenKind.closeBrace.word])) := by
    simp [fieldWords]
  rw [hwords, hrest]
  exact hone

end Grammar

end Caret
