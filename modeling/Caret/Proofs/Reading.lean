import Caret.Proofs.NodePattern
/-!
# What parsers do

`Reads c ts d` lists all that a parser can do between two cursors: report a problem, read a token,
put trees into other slots, and close a node whose children are as its kind says. Whatever holds of
these steps holds of every parser: no token is lost (`Reads.tokens`) and every tree is well formed
(`Reads.wellFormed`).

`Yields P p a` says of a parser that from every cursor with the property `P` it does such steps and
yields trees as the pattern `a` says. The lemmas on it follow the ways in which parsers are put
together.
-/

namespace Caret

open Pattern

namespace Tree

/-- A tree without its slot. -/
def bare (t : Tree) : Tree := t.withSlot .loose

@[simp] theorem bare_withSlot (s : Slot) (t : Tree) : (t.withSlot s).bare = t.bare := by
  cases t <;> rfl

theorem tokens_bare (t : Tree) : t.bare.tokens = t.tokens := tokens_withSlot _ _

theorem tokensAll_map_bare (ts : List Tree) : tokensAll (ts.map bare) = tokensAll ts := by
  induction ts with
  | nil => rfl
  | cons t ts ih => simp [tokensAll, tokens_bare, ih]

/-- A forest with its last tree in a slot. -/
def lastInto (s : Slot) (ts : List Tree) : List Tree :=
  ts.dropLast ++ (ts.getLast?.map (withSlot s)).toList

theorem lastInto_concat (s : Slot) (ts : List Tree) (t : Tree) :
    lastInto s (ts ++ [t]) = ts ++ [t.withSlot s] := by
  simp [lastInto]

theorem map_bare_lastInto (s : Slot) (ts : List Tree) :
    (lastInto s ts).map bare = ts.map bare := by
  rcases List.eq_nil_or_concat ts with rfl | ⟨us, u, rfl⟩
  · rfl
  · simp [lastInto]

theorem wellFormed_bare {t : Tree} : t.bare.WellFormed ↔ t.WellFormed :=
  ⟨fun h => by cases t <;> exact h.withSlot _, fun h => h.withSlot _⟩

end Tree

namespace Pattern

variable {a : Pattern} {s s' : Slot} {t : Kind → Bool} {ts : List Tree}

theorem Covers.lastInto (h : Covers (.one s t) ts) : Covers (.one s' t) (Tree.lastInto s' ts) := by
  obtain ⟨u, rfl, -, hu⟩ := covers_one.1 h
  exact covers_one.2 ⟨u.withSlot s', by simp [Tree.lastInto], by simp, by simpa using hu⟩

theorem Covers.lastInto_seq (h : Covers (.seq a (.one s t)) ts) :
    Covers (.seq a (.one s' t)) (Tree.lastInto s' ts) := by
  obtain ⟨us, vs, rfl, ha, hv⟩ := covers_seq.1 h
  obtain ⟨v, rfl, -, hk⟩ := covers_one.1 hv
  rw [Tree.lastInto_concat]
  exact ha.seq (.one (by simp) (by simpa using hk))

theorem Covers.map_withSlot (h : Covers (.one s t) ts) :
    Covers (.one s' t) (ts.map (Tree.withSlot s')) := by
  obtain ⟨u, rfl, -, hu⟩ := covers_one.1 h
  exact covers_one.2 ⟨u.withSlot s', rfl, by simp, by simpa using hu⟩

theorem Covers.map_withSlot_opt (h : Covers (opt (.one s t)) ts) :
    Covers (opt (.one s' t)) (ts.map (Tree.withSlot s')) := by
  rcases covers_opt.1 h with h | rfl
  · exact h.map_withSlot.some
  · exact .none

end Pattern

namespace NodeKind

/-- A list of parameters or a parameter. -/
def isParameters (k : NodeKind) : Bool := k == .parameterList || k == .parameter

/-- A child of such a node behind which a parameter or the rest of it may start. -/
def opensParameter : NodeKind → Kind → Bool
  | .parameterList, k => k == .token .openParen
  | .parameter, k => k == .node .attributeList
  | _, _ => false

theorem isParameters_of_opensParameter {k : NodeKind} {child : Kind} (h : k.opensParameter child) :
    k.isParameters := by
  cases k <;> first | rfl | cases h

/-- A node that some children keep from ending before some tokens. -/
def goesOn (k : NodeKind) : Bool := k.isParameters || k.isTypeDeclaration

/-- A node with these children does not end right behind such a child if a token that starts a
parameter is next, and a type ends behind a node other than its bases only with the file. -/
def EndsBefore (k : NodeKind) (ts : List Tree) (next : TokenKind) : Prop :=
  ∀ t, ts.getLast? = some t →
    (k.opensParameter t.kind → Grammar.startsParameter next = false) ∧
    (k.isTypeDeclaration → t.kind.isNode (· != .baseList) → next = .endOfFile)

theorem endsBefore (k : NodeKind) (ts : List Tree) (next : TokenKind)
    (h : k.goesOn = false) : k.EndsBefore ts next := by
  rw [goesOn, Bool.or_eq_false_iff] at h
  refine fun t _ => ⟨fun ho => ?_, fun ht => ?_⟩
  · rw [isParameters_of_opensParameter ho] at h
    cases h.1
  · rw [ht] at h
    cases h.2

theorem goesOn_of_isExpression {k : NodeKind} (h : k.isExpression) : k.goesOn = false := by
  cases k <;> first | rfl | cases h

end NodeKind

/-- Reading on from the first cursor to the second makes the trees. -/
inductive Reads : Cursor → List Tree → Cursor → Prop
  | refl (c) : Reads c [] c
  | report (c problem) : Reads c [] (c.report problem)
  | take {c t rest} : c.rest = t :: rest →
      Reads c [.leaf .loose t] { c with rest, readEnd := t.stop }
  | append {c d e ts us} : Reads c ts d → Reads d us e → Reads c (ts ++ us) e
  | relabel {c d ts us} : Reads c ts d → us.map Tree.bare = ts.map Tree.bare → Reads c us d
  | close {c d ts} (k : NodeKind) : Reads c ts d → k.pattern.Covers ts →
      k.EndsBefore ts d.kind → Reads c [.node .loose k ⟨c.next.start, max d.readEnd c.next.start⟩ ts] d

theorem Cursor.kind_congr {c d : Cursor} (h : d.rest = c.rest) : d.kind = c.kind := by
  unfold Cursor.kind Cursor.next
  rw [h]
  cases c.rest <;> rfl

namespace Reads

variable {c d : Cursor} {ts us : List Tree}

theorem rest_report (c : Cursor) (problem : Problem) : (c.report problem).rest = c.rest := by
  unfold Cursor.report; split <;> rfl

theorem length_eq (h : Reads c ts d) : d.length = c.length := by
  induction h with
  | refl | take => rfl
  | report c problem => unfold Cursor.report; split <;> rfl
  | append _ _ ih ih' => rw [ih', ih]
  | relabel _ _ ih | close _ _ _ _ ih => exact ih

/-- The leaves of the trees are the tokens that were read. -/
theorem tokens (h : Reads c ts d) : Tree.tokensAll ts ++ d.rest = c.rest := by
  induction h with
  | refl => simp [Tree.tokensAll]
  | report => simp [Tree.tokensAll, rest_report]
  | take h => simp [Tree.tokensAll, Tree.tokens, h]
  | append _ _ ih ih' => rw [Tree.tokensAll_append, List.append_assoc, ih', ih]
  | relabel _ hr ih => rw [← Tree.tokensAll_map_bare, hr, Tree.tokensAll_map_bare, ih]
  | close _ _ _ _ ih => simpa [Tree.tokensAll, Tree.tokens] using ih

theorem length_rest (h : Reads c ts d) :
    (Tree.tokensAll ts).length + d.rest.length = c.rest.length := by
  rw [← h.tokens, List.length_append]

theorem wellFormed (h : Reads c ts d) : ∀ t ∈ ts, t.WellFormed := by
  induction h with
  | refl | report => simp
  | take => simpa using .leaf _ _
  | append _ _ ih ih' =>
    intro t ht
    exact (List.mem_append.1 ht).elim (ih t) (ih' t)
  | relabel _ hr ih =>
    intro u hu
    obtain ⟨t, ht, hb⟩ := List.mem_map.1 (hr ▸ List.mem_map_of_mem hu)
    exact Tree.wellFormed_bare.1 (hb ▸ Tree.wellFormed_bare.2 (ih t ht))
  | close _ _ hk _ ih => simpa using .node hk ih

/-- Trees that ask for more than declared names take a token. -/
theorem rest_lt {a : Pattern} (h : Reads c ts d) (ha : a.Covers ts)
    (hb : a.beyond (.node .variableDeclarator)) : d.rest.length < c.rest.length := by
  have hne := List.length_pos_iff.2 (Tree.tokensAll_ne_nil_of_beyond ha h.wellFormed hb)
  have := h.length_rest
  omega

end Reads

namespace Parser

/-- From every cursor with the property the parser reads on and yields trees as the pattern says. -/
def Yields (P : Cursor → Prop) (p : Parser) (a : Pattern) : Prop :=
  ∀ c, P c → Reads c (p c).1 (p c).2 ∧ a.Covers (p c).1

/-- Any cursor. -/
def Any (_ : Cursor) : Prop := True

/-- The kind of the next token passes the test. -/
def At (test : TokenKind → Bool) (c : Cursor) : Prop := test c.kind

/-- No more than `n` tokens are left. -/
def Within (n : Nat) (c : Cursor) : Prop := c.rest.length ≤ n

/-- The property stays true while tokens are read. -/
def Kept (P : Cursor → Prop) : Prop := ∀ ⦃c ts d⦄, P c → Reads c ts d → P d

theorem kept_any : Kept Any := fun _ _ _ _ _ => trivial

theorem kept_within (n : Nat) : Kept (Within n) := fun c ts d hc h => by
  have := h.length_rest
  unfold Within at *
  omega

variable {P Q : Cursor → Prop} {p q : Parser} {a b : Pattern} {test : TokenKind → Bool}

theorem append_apply (p q : Parser) (c : Cursor) :
    (p ++ q) c = ((p c).1 ++ (q (p c).2).1, (q (p c).2).2) := rfl

theorem append_assoc (p q s : Parser) : p ++ q ++ s = p ++ (q ++ s) := by
  funext c
  simp only [append_apply, List.append_assoc]

theorem ifNext_pos {c : Cursor} (h : test c.kind) (p q : Parser) : ifNext test p q c = p c := by
  simp [ifNext, look, h]

theorem ifNext_neg {c : Cursor} (h : test c.kind = false) (p q : Parser) :
    ifNext test p q c = q c := by
  simp [ifNext, look, h]

theorem manyAtMost_stop {c : Cursor} (unread : List Token) (h : test c.kind = false) :
    manyAtMost test p unread c = ([], c) := by
  cases unread with
  | nil => rfl
  | cons => exact ifNext_neg h _ _

theorem peek_zero (c : Cursor) : c.peek 0 = c.kind := by
  unfold Cursor.kind Cursor.next Cursor.peek
  cases c.rest <;> rfl

theorem peek_take (c : Cursor) (n : Nat) : (Parser.take c).2.peek n = c.peek (n + 1) := by
  unfold Parser.take Cursor.peek
  cases h : c.rest <;> simp [h]

theorem kind_take (c : Cursor) : (Parser.take c).2.kind = c.peek 1 := by
  rw [← peek_zero, peek_take]

theorem exists_rest {c : Cursor} (h : c.kind ≠ .endOfFile) :
    ∃ rest, c.rest = c.next :: rest := by
  unfold Cursor.kind Cursor.next at *
  cases hr : c.rest with
  | nil => simp [hr, Token.endOfFile] at h
  | cons t rest => exact ⟨rest, by simp⟩

theorem kind_of_rest {c : Cursor} {x : Token} {ts : List Token} (h : c.rest = x :: ts) :
    c.kind = x.kind := by
  rw [Cursor.kind, Cursor.next, h]
  rfl

namespace Yields

theorem mono (h : Yields P p a) (hQ : ∀ c, Q c → P c) : Yields Q p a := fun c hc => h c (hQ c hc)

theorem weaken (h : Yields P p a) (hb : ∀ ts, a.Covers ts → b.Covers ts) : Yields P p b :=
  fun c hc => ⟨(h c hc).1, hb _ (h c hc).2⟩

/-- A parser that is fine anywhere is so under any condition. -/
theorem whenever (h : Yields Any p a) : Yields P p a := h.mono fun _ _ => trivial

theorem nothing : Yields P Parser.nothing .empty := fun c _ => ⟨.refl c, .empty⟩

theorem report (problem : Problem) : Yields P (Parser.report problem) .empty :=
  fun c _ => ⟨.report c problem, .empty⟩

theorem appendWhen (hp : Yields P p a) (hq : Yields Q q b) (h : ∀ c, P c → Q (p c).2) :
    Yields P (p ++ q) (.seq a b) := by
  intro c hc
  obtain ⟨hr, ha⟩ := hp c hc
  obtain ⟨hr', hb⟩ := hq _ (h c hc)
  exact ⟨hr.append hr', ha.seq hb⟩

theorem append (hp : Yields P p a) (hq : Yields Any q b) : Yields P (p ++ q) (.seq a b) :=
  hp.appendWhen hq fun _ _ => trivial

/-- What stays true on the way is true for what follows. -/
theorem appendKept (hp : Yields P p a) (hP : Kept P) (hq : Yields P q b) :
    Yields P (p ++ q) (.seq a b) := hp.appendWhen hq fun c hc => hP hc (hp c hc).1

theorem look {choose : Cursor → Parser} (h : ∀ c, P c → Yields (· = c) (choose c) a) :
    Yields P (Parser.look choose) a := fun c hc => h c hc c rfl

theorem ifNext (hp : Yields (fun c => P c ∧ At test c) p a)
    (hq : Yields (fun c => P c ∧ test c.kind = false) q b) :
    Yields P (Parser.ifNext test p q) (.alt a b) := by
  intro c hc
  by_cases ht : test c.kind = true
  · rw [ifNext_pos ht]; exact ⟨(hp c ⟨hc, ht⟩).1, (hp c ⟨hc, ht⟩).2.left⟩
  · rw [Bool.not_eq_true] at ht
    rw [ifNext_neg ht]; exact ⟨(hq c ⟨hc, ht⟩).1, (hq c ⟨hc, ht⟩).2.right⟩

/-- A part that is only read where the next token tells. -/
theorem optional (hp : Yields (At test) p a) : Yields P (Parser.ifNext test p Parser.nothing) (opt a) :=
  ifNext (hp.mono fun _ h => h.2) nothing

/-- A part that is reported where the next token does not start it. -/
theorem orReport (hp : Yields (At test) p a) (problem : Problem) :
    Yields P (Parser.ifNext test p (Parser.report problem)) (opt a) :=
  ifNext (hp.mono fun _ h => h.2) (report problem)

/-- A part that is left out where the next token ends what it stands in. -/
theorem unlessNext (hq : Yields Any q (opt a)) : Yields P (Parser.ifNext test Parser.nothing q) (opt a) :=
  (ifNext nothing hq.whenever).weaken fun _ h => by
    rcases covers_alt.1 h with h | h
    · exact covers_opt.2 (.inr (covers_empty.1 h))
    · exact h

theorem take (hP : ∀ c, P c → c.kind ≠ .endOfFile ∧ test c.kind) :
    Yields P Parser.take (leaf .loose test) := by
  intro c hc
  obtain ⟨hk, ht⟩ := hP c hc
  obtain ⟨rest, hr⟩ := exists_rest hk
  have : Parser.take c = ([.leaf .loose c.next], { c with rest, readEnd := c.next.stop }) := by
    simp only [Parser.take, hr]
  rw [this]
  exact ⟨.take hr, .one rfl ht⟩

/-- A token that the parser has looked at. -/
theorem takeAt (he : test .endOfFile = false) : Yields (At test) Parser.take (leaf .loose test) :=
  take fun _ hc => ⟨fun e => by simp [At, e, he] at hc, hc⟩

/-- Two tokens that the parser has looked at. -/
theorem takeTwo {k l : TokenKind} (hk : k ≠ .endOfFile) (hl : l ≠ .endOfFile)
    (hP : ∀ c, P c → c.peek 0 = k ∧ c.peek 1 = l) :
    Yields P (Parser.take ++ Parser.take) (.seq (mark k) (mark l)) := by
  refine (take fun c hc => ?_).appendWhen (takeAt (by simpa using hl.symm)) fun c hc => ?_
  · rw [← peek_zero, (hP c hc).1]
    exact ⟨hk, by simp⟩
  · simp [At, kind_take, (hP c hc).2]

theorem expectAt {k : TokenKind} (hk : k ≠ .endOfFile) :
    Yields (At (· == k)) (Parser.expect k) (mark k) := by
  intro c hc
  have ht : (c.kind == k) = true := hc
  rw [Parser.expect, ifNext_pos ht]
  exact takeAt (by simpa using hk.symm) c hc

theorem expect {k : TokenKind} (hk : k ≠ .endOfFile) : Yields P (Parser.expect k) (opt (mark k)) :=
  orReport (takeAt (by simpa using hk.symm)) _

/-! ## Slots -/

theorem into {s : Slot} (h : Yields P p a)
    (hb : ∀ ts, a.Covers ts → b.Covers (Tree.lastInto s ts)) : Yields P (p.into s) b :=
  fun c hc => ⟨(h c hc).1.relabel (Tree.map_bare_lastInto s _), hb _ (h c hc).2⟩

theorem into_one {s s' : Slot} {t : Kind → Bool} (h : Yields P p (.one s t)) :
    Yields P (p.into s') (.one s' t) := h.into fun _ h => h.lastInto

theorem into_opt {s s' : Slot} {t : Kind → Bool} (h : Yields P p (opt (.one s t))) :
    Yields P (p.into s') (opt (.one s' t)) :=
  h.into fun ts h => by
    rcases covers_opt.1 h with h | rfl
    · exact h.lastInto.some
    · exact .none

/-- The last of several trees goes into the slot. -/
theorem into_last {s s' : Slot} {t : Kind → Bool} (h : Yields P p (.seq a (.one s t))) :
    Yields P (p.into s') (.seq a (.one s' t)) := h.into fun _ h => h.lastInto_seq

theorem into_optLast {s s' : Slot} {t : Kind → Bool} (h : Yields P p (opt (.seq a (.one s t)))) :
    Yields P (p.into s') (opt (.seq a (.one s' t))) :=
  h.into fun ts h => by
    rcases covers_opt.1 h with h | rfl
    · exact h.lastInto_seq.some
    · exact .none

/-! ## Nodes -/

theorem nodeEnding {k : NodeKind} (h : Yields P p k.pattern)
    (he : ∀ c, P c → k.EndsBefore (p c).1 (p c).2.kind) :
    Yields P (Parser.node k p) (.node .loose (· == k)) := by
  intro c hc
  obtain ⟨hr, hk⟩ := h c hc
  exact ⟨hr.close k hk (he c hc), .one rfl (by simp [Tree.kind, Kind.isNode, Kind.node?])⟩

theorem node {k : NodeKind} (hk : k.goesOn = false) (h : Yields P p k.pattern) :
    Yields P (Parser.node k p) (.node .loose (· == k)) :=
  nodeEnding h fun _ _ => k.endsBefore _ _ hk

/-! ## Repetition -/

theorem manyKept (hP : Kept P) (hp : Yields (fun c => P c ∧ At test c) p a) :
    Yields P (Parser.many test p) (.many a) := by
  suffices h : ∀ unread, Yields P (manyAtMost test p unread) (.many a) from
    fun c hc => h c.rest c hc
  intro unread
  induction unread with
  | nil => exact fun c _ => ⟨.refl c, .nil⟩
  | cons t unread ih =>
    intro c hc
    by_cases ht : test c.kind = true
    · rw [manyAtMost, ifNext_pos ht]
      obtain ⟨hr, ha⟩ := hp c ⟨hc, ht⟩
      obtain ⟨hr', hm⟩ := ih (p c).2 (hP hc hr)
      exact ⟨hr.append hr', .cons ha hm⟩
    · rw [manyAtMost, ifNext_neg (by simpa using ht)]
      exact ⟨.refl c, .nil⟩

theorem many (hp : Yields (At test) p a) : Yields P (Parser.many test p) (.many a) :=
  (manyKept kept_any (hp.mono fun _ h => h.2)).whenever

/-- A repetition whose parts all take tokens ends where the next token starts no part. -/
theorem many_stops (hP : Kept P) (hp : Yields (fun c => P c ∧ At test c) p a)
    (hb : a.beyond (.node .variableDeclarator)) (he : test .endOfFile = false) {c : Cursor}
    (hc : P c) : test (Parser.many test p c).2.kind = false := by
  suffices h : ∀ (unread : List Token) c, P c → c.rest.length ≤ unread.length →
      test (manyAtMost test p unread c).2.kind = false from h c.rest c hc (Nat.le_refl _)
  intro unread
  induction unread with
  | nil =>
    intro c _ hl
    have hr : c.rest = [] := List.length_eq_zero_iff.1 (Nat.le_zero.1 hl)
    have hk : c.kind = .endOfFile := by unfold Cursor.kind Cursor.next; rw [hr]; rfl
    show test c.kind = false
    rw [hk, he]
  | cons t unread ih =>
    intro c hc hl
    by_cases ht : test c.kind = true
    · rw [manyAtMost, ifNext_pos ht, append_apply]
      obtain ⟨hr, ha⟩ := hp c ⟨hc, ht⟩
      have := hr.rest_lt ha hb
      rw [List.length_cons] at hl
      exact ih _ (hP hc hr) (by omega)
    · rw [Bool.not_eq_true] at ht
      rw [manyAtMost, ifNext_neg ht]
      exact ht

/-- A repetition reads at least one part where the next token starts one. -/
theorem many_ne_nil (hp : Yields (At test) p a) (hne : ∀ ts, a.Covers ts → ts ≠ [])
    (he : test .endOfFile = false) {c : Cursor} (h : test c.kind) :
    (Parser.many test p c).1 ≠ [] := by
  obtain ⟨rest, hr⟩ := exists_rest (c := c) fun e => by simp [e, he] at h
  have hm : Parser.many test p c = manyAtMost test p (c.next :: rest) c := by
    unfold Parser.many Parser.look
    rw [← hr]
  rw [hm, manyAtMost, ifNext_pos h, append_apply]
  simp [hne _ (hp c h).2]

theorem separated (hp : Yields (At test) p a) :
    Yields P (Parser.separated test p) (Pattern.separated a) := by
  suffices h : ∀ unread, Yields Any (separatedAtMost test p unread) (Pattern.separated a) from
    fun c _ => h _ c trivial
  intro unread
  induction unread with
  | nil => exact fun c _ => ⟨.refl c, .nil⟩
  | cons t unread ih =>
    intro c hc
    by_cases ht : test c.kind = true
    · rw [separatedAtMost, ifNext_pos ht]
      have hcomma : Yields Any (Parser.ifNext (· == .comma)
          (Parser.take ++ separatedAtMost test p unread) Parser.nothing) (Pattern.separated a) :=
        (optional ((takeAt rfl).append ih)).weaken fun _ h => h.commas
      obtain ⟨hr, ha⟩ := hp c ht
      obtain ⟨hr', hm⟩ := hcomma (p c).2 trivial
      exact ⟨hr.append hr', .cons ha.left hm⟩
    · rw [separatedAtMost, ifNext_neg (by simpa using ht)]
      exact ⟨.refl c, .nil⟩

/-- There is a first part where the next token starts one. -/
theorem separated_ne_nil (hp : Yields (At test) p a) (hne : ∀ ts, a.Covers ts → ts ≠ [])
    {c : Cursor} (h : test c.kind) : (Parser.separated test p c).1 ≠ [] := by
  have hs : Parser.separated test p c = separatedAtMost test p (c.next :: c.rest) c := rfl
  rw [hs, separatedAtMost, ifNext_pos h, append_apply]
  simp [hne _ (hp c h).2]

/-- A part in whose place one token may be passed over that is no modifier. -/
theorem orSkip {test : TokenKind → Bool} (hp : Yields P p (opt a)) (he : test .endOfFile = false)
    (hP : ∀ c, P c → test c.kind) (hm : ∀ c, P c → c.kind.isModifier → (p c).1 ≠ [])
    (problem : Problem) : Yields P (p.orSkip problem) (.alt a (skipped test)) := by
  intro c hc
  obtain ⟨hr, ha⟩ := hp c hc
  have hmodifier := hm c hc
  simp only [Parser.orSkip, Parser.read]
  generalize p c = r at hr ha hmodifier
  obtain ⟨ts, d⟩ := r
  simp only at hr ha hmodifier ⊢
  cases ts with
  | nil =>
    have hkind : (d.report problem).kind = c.kind :=
      Cursor.kind_congr ((Reads.rest_report d problem).trans hr.tokens)
    have hskip : Yields (· = d.report problem) Parser.take (skipped test) := by
      have htest : test c.kind := hP c hc
      refine take fun _ h => ?_
      rw [h, hkind]
      refine ⟨fun hend => ?_, by simpa [htest] using hmodifier⟩
      rw [hend, he] at htest
      cases htest
    obtain ⟨hs, ht⟩ := hskip _ rfl
    exact ⟨hr.append ((Reads.report d problem).append hs), ht.right⟩
  | cons t ts => exact ⟨hr, (by simpa [covers_opt] using ha : a.Covers (t :: ts)).left⟩

end Yields

/-! ## Going on from trees that are read -/

/-- What the parser yields at the second cursor is all that is read from the first one on, and it is
as the pattern says. -/
def Completes (c d : Cursor) (p : Parser) (a : Pattern) : Prop :=
  Reads c (p d).1 (p d).2 ∧ a.Covers (p d).1

theorem Yields.read {next : Nat → List Tree → Parser} (hp : Yields P p a)
    (hn : ∀ c found d, P c → Reads c found d → a.Covers found →
      Completes c d (next c.next.start found) b) : Yields P (p.read next) b :=
  fun c hc => hn c _ _ hc (hp c hc).1 (hp c hc).2

namespace Completes

variable {c d : Cursor} {found : List Tree}

theorem emit (hr : Reads c found d) (ha : a.Covers found) : Completes c d (Parser.emit found) a :=
  ⟨hr, ha⟩

theorem weaken (h : Completes c d p a) (hb : ∀ ts, a.Covers ts → b.Covers ts) :
    Completes c d p b := ⟨h.1, hb _ h.2⟩

theorem appendWhen (hp : Completes c d p a) (hq : Yields Q q b) (h : Q (p d).2) :
    Completes c d (p ++ q) (.seq a b) := by
  obtain ⟨hr, ha⟩ := hp
  obtain ⟨hr', hb⟩ := hq _ h
  exact ⟨hr.append hr', ha.seq hb⟩

theorem append (hp : Completes c d p a) (hq : Yields Any q b) : Completes c d (p ++ q) (.seq a b) :=
  hp.appendWhen hq trivial

/-- What directly follows the trees that are read. -/
theorem emitAppend (hr : Reads c found d) (ha : a.Covers found) (hq : Yields (· = d) q b) :
    Completes c d (Parser.emit found ++ q) (.seq a b) := by
  obtain ⟨hr', hb⟩ := hq d rfl
  exact ⟨hr.append hr', ha.seq hb⟩

theorem closeEnding {k : NodeKind} (h : Completes c d p k.pattern)
    (he : k.EndsBefore (p d).1 (p d).2.kind) :
    Completes c d (Parser.close k c.next.start p) (Pattern.node .loose (· == k)) :=
  ⟨h.1.close k h.2 he, covers_node.2 ⟨_, _, _, rfl, beq_self_eq_true k⟩⟩

theorem close {k : NodeKind} (h : Completes c d p k.pattern) (hk : k.goesOn = false) :
    Completes c d (Parser.close k c.next.start p) (Pattern.node .loose (· == k)) :=
  h.closeEnding (k.endsBefore _ _ hk)

theorem look {choose : Cursor → Parser} (h : Completes c d (choose d) a) :
    Completes c d (Parser.look choose) a := h

theorem ifNext (hp : test d.kind → Completes c d p a)
    (hq : test d.kind = false → Completes c d q a) :
    Completes c d (Parser.ifNext test p q) a := by
  refine look ?_
  by_cases h : test d.kind = true
  · rw [if_pos h]; exact hp h
  · rw [if_neg h]; exact hq (by simpa using h)

theorem into_one {s s' : Slot} {t : Kind → Bool} (h : Completes c d p (.one s t)) :
    Completes c d (p.into s') (.one s' t) :=
  ⟨h.1.relabel (Tree.map_bare_lastInto s' _), h.2.lastInto⟩

end Completes

/-! ## Extension to the right -/

/-- What the rule adds to trees of the pattern takes a token and makes an expression. -/
def Extends (a : Pattern) (rule : Cursor → Option Extension) : Prop :=
  ∀ d ext left, rule d = some ext → a.Covers left →
    ext.kind.isExpression ∧ Reads d (ext.rest d).1 (ext.rest d).2 ∧
      (ext.rest d).2.rest.length < d.rest.length ∧
      ext.kind.pattern.Covers (left.map (Tree.withSlot ext.slot) ++ (ext.rest d).1)

theorem reads_enlarge {ext : Extension} {c d : Cursor} {left : List Tree} (hr : Reads c left d)
    (hx : ext.kind.isExpression) (hrest : Reads d (ext.rest d).1 (ext.rest d).2)
    (hk : ext.kind.pattern.Covers (left.map (Tree.withSlot ext.slot) ++ (ext.rest d).1)) :
    Reads c (enlarge ext c.next.start left d).1 (enlarge ext c.next.start left d).2 := by
  have hl : Reads c (left.map (Tree.withSlot ext.slot)) d := hr.relabel (by simp)
  exact (hl.append hrest).close ext.kind hk
    (ext.kind.endsBefore _ _ (NodeKind.goesOn_of_isExpression hx))

theorem completes_extend {rule : Cursor → Option Extension} (hrule : Extends a rule)
    (ha : ∀ k span ts, NodeKind.isExpression k → a.Covers [.node .loose k span ts])
    (unread : List Token) {c d : Cursor} {left : List Tree} (hr : Reads c left d)
    (hl : a.Covers left) : Completes c d (extend rule c.next.start unread left) a := by
  induction unread generalizing left d with
  | nil => exact ⟨hr, hl⟩
  | cons t unread ih =>
    refine Completes.look ?_
    cases he : rule d with
    | none => exact .emit hr hl
    | some ext =>
      obtain ⟨hx, hrest, -, hk⟩ := hrule d ext left he hl
      exact ih (reads_enlarge hr hx hrest hk) (ha _ _ _ hx)

end Parser

end Caret
