import Caret.Proofs.DeclarationLockstep
import Caret.Proofs.SourceOrder
/-!
# The names of constructors

A member of a type is a constructor if its name and a parenthesis are next where its attributes and
modifiers end and the name is written as that of the type. So it is in every type of a text
(`SourceFile.root_constructorsNamed`), and it can be told from the children of the type and the
token behind the member.

Types are read by `typeDeclaration` only, so nothing is to be shown of the parsers for statements,
expressions and parameters: what they yield holds no types (`Ignores`).
-/

namespace Caret

open Caret.Parser Pattern Tree

/-! ## Members behind their heads -/

/-- From the cursor on one node is made of the head and of what is read; no attribute and no
modifier is read. -/
structure Closes (d : Cursor) (head : List Tree) (k : NodeKind) (rest : List Tree)
    (r : List Tree × Cursor) : Prop where
  tree : ∃ span, r.1 = [.node .loose k span (head ++ rest)]
  reads : Reads d rest r.2
  beyond : ∀ t ∈ rest, inHead t.slot = false

namespace Closes

variable {d e : Cursor} {head found rest : List Tree} {k : NodeKind} {start : Nat}

/-- A node that is closed behind the head. -/
theorem close {q : Parser} {a : Pattern} (hq : Yields (· = d) q a) (ha : a.lacks inHead) :
    Closes d head k (q d).1 (Parser.close k start (emit head ++ q) d) :=
  ⟨⟨_, rfl⟩, (hq d rfl).1, (hq d rfl).2.lacks ha⟩

/-- Trees that are read behind the head belong to the rest. -/
theorem behind {r : List Tree × Cursor} (h : Closes e (head ++ found) k rest r)
    (hr : Reads d found e) (hf : ∀ t ∈ found, inHead t.slot = false) :
    Closes d head k (found ++ rest) r := by
  obtain ⟨span, htree⟩ := h.tree
  refine ⟨⟨span, by rw [htree, List.append_assoc]⟩, hr.append h.reads, fun t ht => ?_⟩
  exact (List.mem_append.1 ht).elim (hf t) (h.beyond t)

theorem incomplete (problem : Problem) : Closes d head .incompleteMember []
    ((Parser.report problem ++ Grammar.incomplete start head) d) :=
  ⟨⟨_, by rw [List.append_nil]; rfl⟩, .report d problem, by simp⟩

end Closes

namespace Grammar

variable {d : Cursor} {head : List Tree} {start n : Nat}

/-- A name that is next is read. -/
theorem name_of_kind (h : d.kind = .identifier) :
    ((expect .identifier).into .name d).1 = [.leaf .name d.next] := by
  obtain ⟨rest, hr⟩ := exists_rest (c := d) (by simp [h])
  have he : expect .identifier d = take d := by rw [expect, ifNext_pos (by simp [h])]
  have ht : (take d).1 = [.leaf .loose d.next] := by simp only [take, hr]
  simp only [into, he, ht]
  rfl

/-- What is read from the name of a member on is no constructor. -/
theorem closes_namedMember (start : Nat) (head : List Tree) (d : Cursor) : ∃ k rest,
    (k ≠ .constructorDeclaration ∧ k.isScope = false) ∧
      Closes d head k rest (namedMember start head d) := by
  simp only [namedMember, look]
  split
  · exact ⟨_, _, by decide, .incomplete _⟩
  · rename_i hi
    have hi : d.kind = .identifier := by simpa using hi
    cases hp : d.peek 1 with
    | openParen =>
      exact ⟨_, _, by decide, .close (yields_methodRest.mono (by rintro _ rfl; exact ⟨hi, hp⟩)) rfl⟩
    | openBrace | equalsGreater =>
      exact ⟨_, _, by decide,
        .close (yields_propertyRest.mono (by rintro _ rfl; simp [At, hi])) rfl⟩
    | _ => exact ⟨_, _, by decide, .close yields_fieldRest rfl⟩

/-- What `nested` reads from the keyword of a type on is a type, where no more than `n` tokens are
left. -/
def ClosesType (n : Nat) (nested : Nat → List Tree → Parser) : Prop :=
  ∀ start head d, Within n d → d.kind.isTypeKeyword → ∃ k rest,
    k.isTypeDeclaration ∧ Closes d head k rest (nested start head d)

/-- Behind its head a member is a constructor if its name and a parenthesis are next. -/
theorem closes_memberRest {nested : Nat → List Tree → Parser} (hn : ClosesType n nested)
    (typeName : Option (List Char)) (hd : Within n d) :
    (memberRest nested typeName start head d).1 = [] ∨ ∃ k rest,
      Closes d head k rest (memberRest nested typeName start head d) ∧
      (k = .constructorDeclaration ↔ startsConstructor typeName d) ∧
      (k = .constructorDeclaration → ∃ later, rest = .leaf .name d.next :: later) ∧
      (d.kind.isTypeKeyword = false → k.isScope = false) := by
  have hother {k : NodeKind} {rest : List Tree} {r : List Tree × Cursor}
      (h : Closes d head k rest r) (hk : k ≠ .constructorDeclaration)
      (hs : startsConstructor typeName d = false)
      (hscope : d.kind.isTypeKeyword = false → k.isScope = false) : ∃ k rest,
        Closes d head k rest r ∧ (k = .constructorDeclaration ↔ startsConstructor typeName d) ∧
        (k = .constructorDeclaration → ∃ later, rest = .leaf .name d.next :: later) ∧
        (d.kind.isTypeKeyword = false → k.isScope = false) :=
    ⟨k, rest, h, iff_of_false hk (by simp [hs]), fun he => absurd he hk, hscope⟩
  simp only [memberRest, look]
  split
  · rename_i hk
    obtain ⟨k, rest, htype, h⟩ := hn start head d hd hk
    refine .inr (hother h (by rintro rfl; cases htype) ?_ fun hnot => by simp [hk] at hnot)
    rw [startsConstructor, beq_eq_false_iff_ne.2 (by rintro he; rw [he] at hk; cases hk)]
    rfl
  · split
    · rename_i hs
      obtain ⟨⟨hi, hp⟩, -⟩ : (d.kind = .identifier ∧ d.peek 1 = .openParen) ∧ _ := by
        simpa only [startsConstructor, Bool.and_eq_true, beq_iff_eq] using hs
      refine .inr ⟨_, _, .close (yields_constructorRest.mono (by rintro _ rfl; exact ⟨hi, hp⟩)) rfl,
        iff_of_true rfl hs, fun _ => ?_, fun _ => rfl⟩
      simp only [constructorRest, append_apply, name_of_kind hi]
      exact ⟨_, rfl⟩
    · rename_i hs
      have hs : startsConstructor typeName d = false := by simpa using hs
      split
      · rename_i ht
        have htype : Yields (· = d) (typeReference.into .type) type :=
          yields_typeReference_at.into_one.mono (by rintro _ rfl; exact ht)
        obtain ⟨k, rest, ⟨hk, hscope⟩, h⟩ := closes_namedMember start
          (head ++ (typeReference.into .type d).1) (typeReference.into .type d).2
        have hbehind := h.behind (htype d rfl).1 ((htype d rfl).2.lacks rfl)
        exact .inr (hother hbehind hk hs fun _ => hscope)
      · split
        · exact .inl rfl
        · exact .inr (hother (.incomplete _) (by decide) hs fun _ => rfl)

theorem closes_typeDeclaration (unread : List Token) :
    ClosesType unread.length (typeDeclaration unread) := by
  intro start head d hd hk
  cases unread with
  | nil =>
    have : d.rest = [] := List.length_eq_zero_iff.1 (Nat.le_zero.1 hd)
    simp [Cursor.kind, Cursor.next, this, Token.endOfFile, TokenKind.isTypeKeyword] at hk
  | cons t unread =>
    have hkeyword : Yields (· = d) take (leaf .loose TokenKind.isTypeKeyword) :=
      (Yields.takeAt rfl).mono (by rintro _ rfl; exact hk)
    have hleft : Within unread.length (take d).2 :=
      within_take hd fun he => by rw [he] at hk; cases hk
    have hmember := yields_typeRest (declares_member (reads_typeDeclaration unread))
    have hrest := hkeyword.appendWhen hmember (by rintro _ rfl; exact hleft)
    simp only [typeDeclaration, look, append_assoc]
    refine ⟨_, _, ?_, .close hrest rfl⟩
    unfold declarationKind
    split <;> rfl

end Grammar

/-! ## Names of types and constructors -/

/-- A member of this kind is a constructor if its name is written as that of the type, where a
parenthesis is right behind the name; a constructor has that name. -/
structure NamedAfter (typeName : Option (List Char)) (k : NodeKind) (rest : List Tree)
    (next : TokenKind) : Prop where
  recognized : ∀ x later, tokensAll rest = x :: later → x.kind = .identifier →
    kindAfter later next = .openParen → (k = .constructorDeclaration ↔ typeName = some x.text)
  named : k = .constructorDeclaration →
    ∃ x later, rest = .leaf .name x :: later ∧ x.kind = .identifier ∧ typeName = some x.text

/-- So it is for the tree behind its attributes and modifiers, if it is a member. -/
def MemberNamed (typeName : Option (List Char)) (next : TokenKind) (t : Tree) : Prop :=
  ∀ k span ts, t = .node .member k span ts → ∃ head rest, ts = head ++ rest ∧
    (∀ u ∈ head, inHead u.slot) ∧ (∀ u ∈ rest, inHead u.slot = false) ∧
      NamedAfter typeName k rest next

/-- The name among the children of a type, as it is written. -/
def writtenName (ts : List Tree) : Option (List Char) :=
  match ts.find? (·.slot == .name) with
  | some (.leaf _ x) => some x.text
  | _ => none

/-- The constructors among the children of a type are the members with its name. -/
def ConstructorsNamed (k : NodeKind) (ts : List Tree) (next : TokenKind) : Prop :=
  k.isTypeDeclaration → Along (MemberNamed (writtenName ts)) next ts

/-- All constructors in the tree have the names of their types, and the tree too if it is a
member. -/
def InType (typeName : Option (List Char)) (next : TokenKind) (t : Tree) : Prop :=
  Throughout ConstructorsNamed next t ∧ MemberNamed typeName next t

theorem Closes.namedAfter {d : Cursor} {head rest : List Tree} {k : NodeKind}
    {typeName : Option (List Char)} {r : List Tree × Cursor} (h : Closes d head k rest r)
    (hk : k = .constructorDeclaration ↔ Grammar.startsConstructor typeName d)
    (hname : k = .constructorDeclaration → ∃ later, rest = .leaf .name d.next :: later) :
    NamedAfter typeName k rest r.2.kind where
  recognized x later hx hkind hparen := by
    have htokens := h.reads.tokens
    rw [hx] at htokens
    have hnext : d.next = x := by rw [Cursor.next, ← htokens]; rfl
    have hpeek : d.peek 1 = .openParen := by
      rw [← hparen, Cursor.peek, ← htokens, Cursor.kind, Cursor.next]
      cases later with
      | nil => cases hr : r.2.rest <;> simp [kindAfter, Token.endOfFile]
      | cons y later => simp [kindAfter]
    rw [hk, Grammar.startsConstructor, hpeek, Cursor.kind, hnext, hkind]
    simp
  named hc := by
    obtain ⟨later, hrest⟩ := hname hc
    have hs := hk.1 hc
    simp only [Grammar.startsConstructor, Bool.and_eq_true, beq_iff_eq] at hs
    exact ⟨d.next, later, hrest, hs.1.1, hs.2⟩

/-! ## Parsers of declarations -/

/-- A property that all trees have which hold no types, unless they are members. -/
def Ignores (S : TokenKind → Tree → Prop) : Prop :=
  ∀ next t, t.WellFormed → t.kind.isNode NodeKind.isScope = false → t.slot ≠ .member → S next t

/-- A tree that holds no types has no constructors in types. -/
theorem throughout_of_wellFormed {t : Tree} (h : t.WellFormed) (next : TokenKind)
    (hk : t.kind.isNode NodeKind.isScope = false) : Throughout ConstructorsNamed next t := by
  induction h generalizing next with
  | leaf s x => exact .leaf s x
  | @node s k span children covers _ ih =>
    have hscope : k.isScope = false := hk
    refine .node (fun htype => ?_) ?_
    · simp [NodeKind.isScope, htype] at hscope
    · rintro before u after rfl
      refine ih u (by simp) _ (Bool.eq_false_iff.2 fun hu => ?_)
      obtain ⟨n, hn, hns⟩ := Kind.isNode_iff.1 hu
      have hallows := covers.allows u (by simp)
      rw [hn] at hallows
      rw [NodeKind.isScope_of_allows hns hallows] at hscope
      cases hscope

theorem ignores_throughout : Ignores (Throughout ConstructorsNamed) :=
  fun next _ hw hk _ => throughout_of_wellFormed hw next hk

theorem ignores_inType (typeName : Option (List Char)) : Ignores (InType typeName) := by
  refine fun next t hw hk hs => ⟨throughout_of_wellFormed hw next hk, ?_⟩
  rintro k span ts rfl
  exact absurd rfl hs

theorem Ignores.of_covers {S : TokenKind → Tree → Prop} {a : Pattern} {ts : List Tree}
    (hS : Ignores S) (hw : ∀ t ∈ ts, t.WellFormed) (ha : a.Covers ts)
    (hn : a.onlyNodes (!NodeKind.isScope ·)) (hs : a.lacks (· == .member)) (next : TokenKind) :
    ∀ t ∈ ts, S next t := by
  refine fun t ht => hS next t (hw t ht) (Bool.eq_false_iff.2 fun hk => ?_) ?_
  · obtain ⟨n, hkind, hscope⟩ := Kind.isNode_iff.1 hk
    have hallows := ha.allows t ht
    rw [hkind] at hallows
    simpa [hscope] using of_allows_node hn hallows
  · simpa using ha.lacks hs t ht

/-- From every cursor with the first property the parser reads on, and its trees have the second
one. -/
def YieldsAlong (S : TokenKind → Tree → Prop) (P : Cursor → Prop) (p : Parser) : Prop :=
  ∀ c, P c → Reads c (p c).1 (p c).2 ∧ Along S (p c).2.kind (p c).1

namespace YieldsAlong

variable {S : TokenKind → Tree → Prop} {P Q : Cursor → Prop} {p q : Parser} {a : Pattern}
  {test : TokenKind → Bool}

theorem mono (h : YieldsAlong S P p) (hQ : ∀ c, Q c → P c) : YieldsAlong S Q p :=
  fun c hc => h c (hQ c hc)

/-- What is yielded holds no types and has no members. -/
theorem plain (hS : Ignores S) (h : Yields P p a) (hn : a.onlyNodes (!NodeKind.isScope ·))
    (hs : a.lacks (· == .member)) : YieldsAlong S P p := by
  intro c hc
  obtain ⟨hr, ha⟩ := h c hc
  exact ⟨hr, .of_forall (hS.of_covers hr.wellFormed ha hn hs)⟩

theorem append (hp : YieldsAlong S P p) (hq : YieldsAlong S Q q) (h : ∀ c, P c → Q (p c).2) :
    YieldsAlong S P (p ++ q) := by
  intro c hc
  obtain ⟨hr, ha⟩ := hp c hc
  obtain ⟨hr', ha'⟩ := hq _ (h c hc)
  rw [hr'.kind_eq] at ha
  exact ⟨hr.append hr', ha.append ha'⟩

theorem ifNext (hp : YieldsAlong S (fun c => P c ∧ At test c) p) (hq : YieldsAlong S P q) :
    YieldsAlong S P (Parser.ifNext test p q) := by
  intro c hc
  by_cases ht : test c.kind = true
  · rw [ifNext_pos ht]
    exact hp c ⟨hc, ht⟩
  · rw [ifNext_neg (by simpa using ht)]
    exact hq c hc

theorem manyKept (hP : Kept P) (hp : YieldsAlong S P p) : YieldsAlong S P (many test p) := by
  suffices h : ∀ unread, YieldsAlong S P (manyAtMost test p unread) from fun c hc => h c.rest c hc
  intro unread
  induction unread with
  | nil => exact fun c _ => ⟨.refl c, .nil⟩
  | cons t unread ih =>
    refine .ifNext ?_ fun c _ => ⟨.refl c, .nil⟩
    exact (hp.append ih fun c hc => hP hc (hp c hc).1).mono fun c hc => hc.1

/-- In place of a declaration one token may be passed over. -/
theorem orSkip (hS : Ignores S) (hp : YieldsAlong S P p) (problem : Problem) :
    YieldsAlong S P (p.orSkip problem) := by
  intro c hc
  obtain ⟨hr, ha⟩ := hp c hc
  simp only [Parser.orSkip, Parser.read]
  split
  · rename_i hnil
    rw [List.isEmpty_iff.1 hnil] at hr
    have hskip : ∀ d, Reads d (take d).1 (take d).2 ∧ Along S (take d).2.kind (take d).1 := by
      intro d
      unfold take
      split
      · exact ⟨.refl d, .nil⟩
      · rename_i x rest hrest
        exact ⟨.take hrest, .single (hS _ _ (.leaf _ _) rfl (by simp [Tree.slot]))⟩
    obtain ⟨hr', ha'⟩ := hskip ((p c).2.report problem)
    exact ⟨hr.append ((Reads.report _ problem).append hr'), ha'⟩
  · exact ⟨hr, ha⟩

/-- Declarations up to the end of the braces, or of the file. -/
theorem parts {n : Nat} (hS : Ignores S) (hp : YieldsAlong S (Within n) p) (problem : Problem) :
    YieldsAlong S (Within n) (many test (p.orSkip problem)) :=
  .manyKept (kept_within n) (.orSkip hS hp problem)

end YieldsAlong

namespace Grammar

variable {n : Nat} {nested : Nat → List Tree → Parser}

/-- The constructors in what `nested` reads from the keyword of a type on have the names of their
types, where no more than `n` tokens are left. -/
def NamesType (n : Nat) (nested : Nat → List Tree → Parser) : Prop :=
  ∀ c head d, Within n d → Reads c head d → Pattern.head.Covers head → d.kind.isTypeKeyword →
    ThroughoutAll ConstructorsNamed (nested c.next.start head d).2.kind
      (nested c.next.start head d).1

section Members

variable (hr : ReadsType n nested) (hc : ClosesType n nested) (ht : NamesType n nested)
  (typeName : Option (List Char))

include hc ht

theorem along_memberRest {c d : Cursor} {head : List Tree} (hd : Within n d)
    (hread : Reads c head d) (hhead : Pattern.head.Covers head)
    (hw : ∀ t ∈ (memberRest nested typeName c.next.start head d).1, t.WellFormed) :
    Along (InType typeName) (memberRest nested typeName c.next.start head d).2.kind
      ((memberRest nested typeName c.next.start head).into .member d).1 := by
  rw [into]
  rcases closes_memberRest hc typeName hd with hnil | ⟨k, rest, hcloses, hk, hname, hscope⟩
  · rw [hnil]
    exact .nil
  · obtain ⟨span, htree⟩ := hcloses.tree
    have hthrough : Throughout ConstructorsNamed
        (memberRest nested typeName c.next.start head d).2.kind
        (.node .loose k span (head ++ rest)) := by
      by_cases hkeyword : d.kind.isTypeKeyword = true
      · have hall := ht c head d hd hread hhead hkeyword
        have hrest : memberRest nested typeName c.next.start head d =
            nested c.next.start head d := by
          simp only [memberRest, look, if_pos hkeyword]
        rw [← hrest, htree] at hall
        exact hall [] _ [] rfl
      · exact throughout_of_wellFormed (hw _ (by rw [htree]; simp)) _
          (hscope (by simpa using hkeyword))
    rw [htree]
    refine .single ⟨hthrough.withSlot .member, ?_⟩
    rintro _ _ _ heq
    cases heq
    refine ⟨head, rest, rfl, fun u hu => ?_, hcloses.beyond, hcloses.namedAfter hk hname⟩
    simpa using hhead.lacks (p := (!inHead ·)) rfl u hu

include hr

theorem along_member :
    YieldsAlong (InType typeName) (Within n) ((member nested typeName).into .member) := by
  intro c hwithin
  obtain ⟨hreads, -⟩ := (declares_member hr typeName).yields c hwithin
  obtain ⟨hread, hhead⟩ := yields_declarationHead (P := Any) c trivial
  exact ⟨hreads.relabel (map_bare_lastInto .member _),
    along_memberRest hc ht typeName (kept_within n hwithin hread) hread hhead hreads.wellFormed⟩

end Members

/-- The name that a type has whose name is next. -/
def nameAt (c : Cursor) : Option (List Char) :=
  if c.kind == .identifier then some c.next.text else none

section Types

variable {memberOf : Option (List Char) → Parser}
  (hm : ∀ typeName, YieldsAlong (InType typeName) (Within n) ((memberOf typeName).into .member))

include hm in
theorem along_typeRest {c : Cursor} (hc : Within n c) :
    Along (InType (nameAt c)) (typeRest memberOf c).2.kind (typeRest memberOf c).1 := by
  have hS := ignores_inType (nameAt c)
  have hname : YieldsAlong (InType (nameAt c)) Any ((expect .identifier).into .name) :=
    .plain hS (Yields.expect (by decide)).into_opt rfl rfl
  have hbases : YieldsAlong (InType (nameAt c)) Any
      (ifNext (· == .colon) (baseList.into .bases) nothing) :=
    .plain hS (Yields.optional yields_baseList.into_one) rfl rfl
  have hclose : YieldsAlong (InType (nameAt c)) Any (expect .closeBrace) :=
    .plain hS (Yields.expect (by decide)) rfl rfl
  have hopen :
      YieldsAlong (InType (nameAt c)) (fun c => Within n c ∧ At (· == .openBrace) c) take :=
    .plain hS ((Yields.takeAt rfl).mono fun _ h => h.2) rfl rfl
  have hbraces : YieldsAlong (InType (nameAt c)) (Within n) (ifNext (· == .openBrace)
      (take ++ many continuesBraces
        (((memberOf (nameAt c)).into .member).orSkip .expectedMember) ++ expect .closeBrace)
      (report (.expected .openBrace))) := by
    refine .ifNext ?_ (.plain hS (Yields.report _) rfl rfl)
    refine (hopen.append (.parts hS (hm _) _) fun d hd => ?_).append hclose fun _ _ => trivial
    exact kept_within n hd.1 (hopen d hd).1
  have hfront := hname.append hbases fun _ _ => trivial
  have hall := (hfront.mono (Q := Within n) fun _ _ => trivial).append hbraces fun d hd =>
    kept_within n hd (hfront d trivial).1
  exact (hall c hc).2

/-- The name of a type is the one that is next behind its keyword. -/
theorem writtenName_typeRest
    (hd : ∀ typeName, Declares (Within n) (memberOf typeName) NodeKind.isInner) {c : Cursor}
    (hc : Within n c) {before : List Tree} (hb : ∀ t ∈ before, t.slot ≠ .name) :
    writtenName (before ++ (typeRest memberOf c).1) = nameAt c := by
  obtain ⟨hr, hcovers⟩ := yields_typeRest hd c hc
  obtain ⟨us, braces, hts, hus, hbraces⟩ := covers_seq.1 hcovers
  obtain ⟨names, bases, rfl, hnames, hbases⟩ := covers_seq.1 hus
  have hnone : before.find? (·.slot == .name) = none :=
    List.find?_eq_none.2 fun t ht => by simpa using hb t ht
  rw [writtenName, List.find?_append, hnone, Option.none_or, nameAt]
  rcases covers_opt.1 hnames with hnames | rfl
  · obtain ⟨x, rfl, hx⟩ := covers_leaf.1 hnames
    have htokens := hr.tokens
    rw [hts] at htokens
    have hnext : c.next = x := by
      rw [Cursor.next, ← htokens]
      rfl
    rw [hts, Cursor.kind, hnext, if_pos hx]
    rfl
  · have hlacks : ∀ t ∈ (typeRest memberOf c).1, (t.slot == .name) = false := by
      rw [hts, List.nil_append]
      intro t ht
      exact (List.mem_append.1 ht).elim (hbases.lacks (p := (· == .name)) rfl t)
        (hbraces.lacks (p := (· == .name)) rfl t)
    have hkind : c.kind ≠ .identifier := by
      intro h
      have hmem : Tree.leaf .name c.next ∈ (typeRest memberOf c).1 := by
        simp [typeRest, look, append_apply, name_of_kind h]
      simpa [Tree.slot] using hlacks _ hmem
    rw [List.find?_eq_none.2 fun t ht => by simp [hlacks t ht], if_neg (by simpa using hkind)]

end Types

theorem namesType_typeDeclaration (unread : List Token) :
    NamesType unread.length (typeDeclaration unread) := by
  induction unread with
  | nil =>
    intro c head d hd _ _ hk
    have : d.rest = [] := List.length_eq_zero_iff.1 (Nat.le_zero.1 hd)
    simp [Cursor.kind, Cursor.next, this, Token.endOfFile, TokenKind.isTypeKeyword] at hk
  | cons t unread ih =>
    intro c head d hd hr hh hk
    have hreads := reads_typeDeclaration unread
    have hleft : Within unread.length (take d).2 :=
      within_take hd fun he => by rw [he] at hk; cases hk
    obtain ⟨hkr, hkeyword⟩ : Reads d (take d).1 (take d).2 ∧
        (leaf .loose TokenKind.isTypeKeyword).Covers (take d).1 := Yields.takeAt rfl d hk
    have hstart := hh.seq hkeyword
    have hS := ignores_inType (nameAt (take d).2)
    have hall : Along (InType (nameAt (take d).2))
        (typeRest (member (typeDeclaration unread)) (take d).2).2.kind
        (head ++ (take d).1 ++ (typeRest (member (typeDeclaration unread)) (take d).2).1) := by
      refine .append (.of_forall (hS.of_covers (hr.append hkr).wellFormed hstart rfl rfl)) ?_
      exact along_typeRest (along_member hreads (closes_typeDeclaration unread) ih) hleft
    have hname : writtenName (head ++ (take d).1 ++
        (typeRest (member (typeDeclaration unread)) (take d).2).1) = nameAt (take d).2 :=
      writtenName_typeRest (declares_member hreads) hleft fun u hu => by
        simpa using hstart.lacks (p := (· == .name)) rfl u hu
    have hnamed : ConstructorsNamed (declarationKind d.kind) (head ++ (take d).1 ++
        (typeRest (member (typeDeclaration unread)) (take d).2).1) _ :=
      fun _ => by rw [hname]; exact hall.mono fun _ _ h => h.2
    exact .single (.node hnamed (hall.mono fun _ _ h => h.1))

/-! ## Namespaces -/

/-- In all that the parser yields the constructors have the names of their types. -/
abbrev NamesConstructors : (Cursor → Prop) → Parser → Prop :=
  YieldsAlong (Throughout ConstructorsNamed)

/-- A declaration goes into a slot. -/
theorem NamesConstructors.into {P : Cursor → Prop} {p : Parser} (h : NamesConstructors P p)
    (s : Slot) : NamesConstructors P (p.into s) := fun c hc =>
  ⟨(h c hc).1.relabel (map_bare_lastInto s _),
    ThroughoutAll.relabel (h c hc).2 (map_bare_lastInto s _)⟩

theorem namesConstructors_namespace {inner : Parser} (h : NamesConstructors (Within n) inner) :
    NamesConstructors (Within n) (ifNext (· == .semicolon) take (expect .openBrace ++
      many continuesBraces ((inner.into .member).orSkip .expectedDeclaration) ++
      expect .closeBrace)) := by
  have hS := ignores_throughout
  have hopen : NamesConstructors (Within n) (expect .openBrace) :=
    .plain hS (Yields.expect (by decide)) rfl rfl
  have hsemicolon : Yields (At (· == .semicolon)) take (mark .semicolon) := .takeAt (by decide)
  refine .ifNext ?_ ((hopen.append (.parts hS (h.into .member) _) fun c hc => ?_).append
    (.plain (P := Any) hS (Yields.expect (by decide)) rfl rfl) fun _ _ => trivial)
  · exact .plain hS (hsemicolon.mono fun _ h => h.2) rfl rfl
  · exact kept_within n hc (hopen c hc).1

theorem namesConstructors_namespaceDeclaration {inner : Parser}
    (hi : Declares (Within n) inner NodeKind.isOuter) (h : NamesConstructors (Within n) inner) :
    NamesConstructors (fun c => Within (n + 1) c ∧ At (· == .namespaceKeyword) c)
      (namespaceDeclaration inner) := by
  have hS := ignores_throughout
  have hname : NamesConstructors Any qualifiedName := .plain hS yields_qualifiedName rfl rfl
  have hkeyword : NamesConstructors (fun c => Within (n + 1) c ∧ At (· == .namespaceKeyword) c)
      (expect .namespaceKeyword) :=
    .plain hS ((Yields.expectAt (by decide)).mono fun _ h => h.2) rfl rfl
  have hall := (hkeyword.append hname fun _ _ => trivial).append (namesConstructors_namespace h)
    fun c hc => ?_
  · intro c hc
    refine ⟨(yields_namespaceDeclaration hi c hc).1, ?_⟩
    exact .single (.node (fun htype => by cases htype) (hall c hc).2)
  · have hleft : Within n (expect .namespaceKeyword c).2 := by
      have hk : (c.kind == .namespaceKeyword) = true := hc.2
      rw [expect, ifNext_pos hk]
      exact within_take hc.1 (by simp [eq_of_beq hk])
    exact kept_within n hleft (hname _ trivial).1

theorem namesConstructors_outerType {P : Cursor → Prop} : NamesConstructors P outerType := by
  intro c _
  obtain ⟨hr, hh⟩ := yields_declarationHead (P := Any) c trivial
  have hreads := ((declares_outerType (P := Any)).yields c trivial).1
  refine ⟨hreads, ?_⟩
  have hw := hreads.wellFormed
  simp only [outerType, Parser.read, look] at hw ⊢
  split
  · rename_i hk
    exact namesType_typeDeclaration _ c _ _ (Nat.le_refl _) hr hh hk
  · rename_i hk
    rw [if_neg hk] at hw
    split
    · exact .nil
    · rename_i hne
      rw [if_neg hne] at hw
      exact .single (throughout_of_wellFormed
        (hw _ (by simp [append_apply, report, incomplete, close])) _ rfl)

theorem namesConstructors_namespaceMember (unread : List Token) :
    NamesConstructors (Within unread.length) (namespaceMember unread) := by
  induction unread with
  | nil => exact .plain ignores_throughout Yields.nothing rfl rfl
  | cons t unread ih =>
    exact .ifNext (namesConstructors_namespaceDeclaration (declares_namespaceMember unread) ih)
      namesConstructors_outerType

end Grammar

/-- In the tree of a text the constructors have the names of their types. -/
theorem SourceFile.root_constructorsNamed (text : List Char) :
    Throughout ConstructorsNamed .endOfFile (ofText text).root := by
  have hall : Grammar.NamesConstructors (Within (Grammar.startOf text).rest.length)
      (many (· != .endOfFile) (((Grammar.namespaceMember (Grammar.startOf text).rest).into
        .item).orSkip .expectedDeclaration)) :=
    .parts ignores_throughout ((Grammar.namesConstructors_namespaceMember _).into .item) _
  have hdeclarations : ThroughoutAll ConstructorsNamed
      (Grammar.declarations (Grammar.startOf text)).2.kind
      (Grammar.declarations (Grammar.startOf text)).1 := (hall _ (Nat.le_refl _)).2
  rw [Grammar.kind_declarations] at hdeclarations
  refine .node (fun htype => ?_) (ThroughoutAll.append hdeclarations (.single (.leaf _ _)))
  cases htype

end Caret
