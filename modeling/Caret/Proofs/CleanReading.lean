import Caret.Proofs.WholePattern
/-!
# Parsers that report nothing

Reports are only ever added (`Reads.diagnostics_eq_nil`), and one is made wherever a part is missing
or passed over. So what a parser yields without a report lacks nothing: `YieldsClean P p a` says that
from every cursor with the property `P` the parser reads on, and that its trees are as the pattern
says and all their nodes are whole, unless something was reported. A parser that makes a report may
yield anything (`YieldsClean.report`).

The lemmas follow the ways in which parsers are put together, like those on `Yields`.
-/

namespace Caret

open Pattern

theorem Cursor.report_diagnostics (c : Cursor) (problem : Problem) :
    (c.report problem).diagnostics ≠ [] := by
  unfold Cursor.report
  split
  · rename_i h
    rintro hnil
    simp [hnil] at h
  · simp

theorem Parser.diagnostics_take (c : Cursor) : (take c).2.diagnostics = c.diagnostics := by
  unfold take
  split <;> rfl

theorem Reads.diagnostics_eq_nil {c d : Cursor} {ts : List Tree} (h : Reads c ts d)
    (hd : d.diagnostics = []) : c.diagnostics = [] := by
  induction h with
  | refl | take => exact hd
  | report c problem => exact absurd hd (c.report_diagnostics problem)
  | append _ _ ih ih' => exact ih (ih' hd)
  | relabel _ _ ih | close _ _ _ _ ih => exact ih hd

/-- All nodes of the trees are whole; bodies may be missing at the end of braces or of the file. -/
abbrev WholeAll : TokenKind → List Tree → Prop :=
  ThroughoutAll (NodeKind.Whole fun k => !Grammar.continuesBraces k)

theorem NodeKind.takesBody_of_isExpression {k : NodeKind} (h : k.isExpression) :
    k.takesBody = false := by
  cases k <;> first | rfl | cases h

namespace Parser

/-- If nothing is reported up to the end of the parser, the trees that it yields from the cursor are
whole and as the pattern says. -/
def Clean (c : Cursor) (p : Parser) (a : Pattern) : Prop :=
  (p c).2.diagnostics = [] → WholeAll (p c).2.kind (p c).1 ∧ a.Covers (p c).1

/-- From every cursor with the property the parser reads on, and yields whole trees as the pattern
says unless it makes a report. -/
def YieldsClean (P : Cursor → Prop) (p : Parser) (a : Pattern) : Prop :=
  ∀ c, P c → Reads c (p c).1 (p c).2 ∧ Clean c p a

/-- If nothing is reported, a statement is among the trees, or what may follow a missing body is
next. -/
def HasBody (c : Cursor) (p : Parser) : Prop :=
  (p c).2.diagnostics = [] → (∃ t ∈ (p c).1, t.kind.isNode NodeKind.isStatement) ∨
    (!Grammar.continuesBraces (p c).2.kind) = true

variable {P Q : Cursor → Prop} {p q : Parser} {a b : Pattern} {test : TokenKind → Bool}
  {c d : Cursor} {found : List Tree}

/-- A token that is read is one less that is left. -/
theorem within_take {n : Nat} (h : Within n c) (hk : c.kind ≠ .endOfFile) :
    Within (n - 1) (take c).2 := by
  obtain ⟨rest, hr⟩ := exists_rest hk
  have hlength := congrArg List.length hr
  unfold Within at h ⊢
  rw [List.length_cons] at hlength
  simp only [take, hr]
  omega

theorem HasBody.behind (h : HasBody (p c).2 q) : HasBody c (p ++ q) := by
  intro hc
  obtain ⟨t, ht, hk⟩ | hk := h hc
  · exact .inl ⟨t, List.mem_append_right _ ht, hk⟩
  · exact .inr hk

namespace Clean

theorem weaken (h : Clean c p a) (hb : ∀ ts, a.Covers ts → b.Covers ts) : Clean c p b :=
  fun hc => ⟨(h hc).1, hb _ (h hc).2⟩

theorem appendWhen (hp : Clean c p a) (hq : YieldsClean Q q b) (h : Q (p c).2) :
    Clean c (p ++ q) (.seq a b) := by
  intro hc
  obtain ⟨hr, hb⟩ := hq _ h
  obtain ⟨hw, hcovers⟩ := hp (hr.diagnostics_eq_nil hc)
  obtain ⟨hw', hcovers'⟩ := hb hc
  rw [hr.kind_eq] at hw
  exact ⟨hw.append hw', hcovers.seq hcovers'⟩

theorem append (hp : Clean c p a) (hq : YieldsClean Any q b) : Clean c (p ++ q) (.seq a b) :=
  hp.appendWhen hq trivial

/-- What directly follows trees that are read. -/
theorem emitAppend (h : Clean d (emit found) a) (hq : YieldsClean (· = d) q b) :
    Clean d (emit found ++ q) (.seq a b) := h.appendWhen hq rfl

/-- Behind a report anything may be yielded. -/
theorem of_report (problem : Problem) (hq : ∀ d, (q d).2.diagnostics = d.diagnostics) :
    Clean c (Parser.report problem ++ q) a :=
  fun hc => absurd ((hq _).symm.trans hc) (c.report_diagnostics problem)

theorem look {choose : Cursor → Parser} (h : Clean c (choose c) a) :
    Clean c (Parser.look choose) a := h

theorem read {next : Nat → List Tree → Parser}
    (h : Clean (p c).2 (next c.next.start (p c).1) a) : Clean c (p.read next) a := h

/-- Trees that are read, as their own parser. -/
theorem emitted (h : Clean c p a) : Clean (p c).2 (emit (p c).1) a := h

theorem ifNext (hp : test c.kind → Clean c p a) (hq : test c.kind = false → Clean c q a) :
    Clean c (Parser.ifNext test p q) a := by
  unfold Clean
  by_cases h : test c.kind = true
  · rw [ifNext_pos h]
    exact hp h
  · rw [Bool.not_eq_true] at h
    rw [ifNext_neg h]
    exact hq h

theorem into {s : Slot} (h : Clean c p a)
    (hb : ∀ ts, a.Covers ts → b.Covers (Tree.lastInto s ts)) : Clean c (p.into s) b :=
  fun hc => ⟨(h hc).1.relabel (Tree.map_bare_lastInto s _), hb _ (h hc).2⟩

/-- A node is whole if its children are, and its body is there or may be missing. -/
theorem closeBody {k : NodeKind} {start : Nat} (h : Clean c p k.whole)
    (hb : k.takesBody → HasBody c p) :
    Clean c (Parser.close k start p) (Pattern.node .loose (· == k)) := by
  intro hc
  obtain ⟨hw, hcovers⟩ := h hc
  exact ⟨.single (.node ⟨hcovers, fun hk => hb hk hc⟩ hw),
    covers_node.2 ⟨_, _, _, rfl, beq_self_eq_true k⟩⟩

theorem close {k : NodeKind} {start : Nat} (h : Clean c p k.whole) (hk : k.takesBody = false) :
    Clean c (Parser.close k start p) (Pattern.node .loose (· == k)) :=
  h.closeBody fun hb => absurd hb (by simp [hk])

/-- What may not lack anything is there if nothing is reported. -/
theorem unlessEmpty {s : Slot} (h : Clean d (emit found) (operand s)) (hq : Clean d q b) :
    Clean d (if found.isEmpty then Parser.nothing else q) b := by
  split
  · rename_i hf
    intro hd
    obtain ⟨k, span, ts, rfl, -⟩ := covers_node.1 (h hd).2
    cases hf
  · exact hq

end Clean

namespace YieldsClean

theorem mono (h : YieldsClean P p a) (hQ : ∀ c, Q c → P c) : YieldsClean Q p a :=
  fun c hc => h c (hQ c hc)

theorem weaken (h : YieldsClean P p a) (hb : ∀ ts, a.Covers ts → b.Covers ts) :
    YieldsClean P p b := fun c hc => ⟨(h c hc).1, (h c hc).2.weaken hb⟩

/-- A parser that is fine anywhere is so under any condition. -/
theorem whenever (h : YieldsClean Any p a) : YieldsClean P p a := h.mono fun _ _ => trivial

theorem nothing : YieldsClean P Parser.nothing .empty := fun c _ => ⟨.refl c, fun _ => ⟨.nil, .empty⟩⟩

theorem report (problem : Problem) : YieldsClean P (Parser.report problem) a :=
  fun c _ => ⟨.report c problem, fun h => absurd h (c.report_diagnostics problem)⟩

/-- Tokens are whole. -/
theorem ofTokens (h : Yields P p a) (ha : a.onlyNodes fun _ => false) : YieldsClean P p a :=
  fun c hc => ⟨(h c hc).1, fun _ => ⟨.of_tokens (h c hc).2 ha, (h c hc).2⟩⟩

theorem appendWhen (hp : YieldsClean P p a) (hq : YieldsClean Q q b) (h : ∀ c, P c → Q (p c).2) :
    YieldsClean P (p ++ q) (.seq a b) := fun c hc =>
  ⟨(hp c hc).1.append (hq _ (h c hc)).1, (hp c hc).2.appendWhen hq (h c hc)⟩

theorem append (hp : YieldsClean P p a) (hq : YieldsClean Any q b) :
    YieldsClean P (p ++ q) (.seq a b) := hp.appendWhen hq fun _ _ => trivial

/-- What stays true on the way is true for what follows. -/
theorem appendKept (hp : YieldsClean P p a) (hP : Kept P) (hq : YieldsClean P q b) :
    YieldsClean P (p ++ q) (.seq a b) := hp.appendWhen hq fun c hc => hP hc (hp c hc).1

theorem look {choose : Cursor → Parser} (h : ∀ c, P c → YieldsClean (· = c) (choose c) a) :
    YieldsClean P (Parser.look choose) a := fun c hc => h c hc c rfl

theorem ifNext (hp : YieldsClean (fun c => P c ∧ At test c) p a)
    (hq : YieldsClean (fun c => P c ∧ test c.kind = false) q b) :
    YieldsClean P (Parser.ifNext test p q) (.alt a b) := by
  refine look fun c hc => ?_
  split
  · rename_i ht
    exact (hp.mono (by rintro _ rfl; exact ⟨hc, ht⟩)).weaken fun _ h => h.left
  · rename_i ht
    exact (hq.mono (by rintro _ rfl; exact ⟨hc, by simpa using ht⟩)).weaken fun _ h => h.right

/-- A part that is only read where the next token tells. -/
theorem optional (hp : YieldsClean (At test) p a) :
    YieldsClean P (Parser.ifNext test p Parser.nothing) (opt a) :=
  ifNext (hp.mono fun _ h => h.2) nothing

/-- A part that is reported where the next token does not start it. -/
theorem orReport (hp : YieldsClean (At test) p a) (problem : Problem) :
    YieldsClean P (Parser.ifNext test p (Parser.report problem)) a :=
  (ifNext (hp.mono fun _ h => h.2) (report problem)).weaken fun _ h => (covers_alt.1 h).elim id id

/-- A part that is left out where the next token ends what it stands in. -/
theorem unlessNext (hq : YieldsClean Any q a) :
    YieldsClean P (Parser.ifNext test Parser.nothing q) (opt a) :=
  (ifNext nothing hq.whenever).weaken fun _ h =>
    (covers_alt.1 h).elim (fun h => covers_empty.1 h ▸ .none) .some

/-- A token that the parser has looked at. -/
theorem takeAt (he : test .endOfFile = false) :
    YieldsClean (At test) Parser.take (leaf .loose test) := ofTokens (Yields.takeAt he) rfl

theorem expect {k : TokenKind} (hk : k ≠ .endOfFile) : YieldsClean P (Parser.expect k) (mark k) :=
  orReport (takeAt (by simpa using hk.symm)) _

/-! ## Slots and nodes -/

theorem into {s : Slot} (h : YieldsClean P p a)
    (hb : ∀ ts, a.Covers ts → b.Covers (Tree.lastInto s ts)) : YieldsClean P (p.into s) b :=
  fun c hc => ⟨(h c hc).1.relabel (Tree.map_bare_lastInto s _), (h c hc).2.into hb⟩

theorem into_one {s s' : Slot} {t : Kind → Bool} (h : YieldsClean P p (.one s t)) :
    YieldsClean P (p.into s') (.one s' t) := h.into fun _ h => h.lastInto

theorem into_opt {s s' : Slot} {t : Kind → Bool} (h : YieldsClean P p (opt (.one s t))) :
    YieldsClean P (p.into s') (opt (.one s' t)) :=
  h.into fun ts h => by
    rcases covers_opt.1 h with h | rfl
    · exact h.lastInto.some
    · exact .none

/-- The last of several trees goes into the slot. -/
theorem into_last {s s' : Slot} {t : Kind → Bool} (h : YieldsClean P p (.seq a (.one s t))) :
    YieldsClean P (p.into s') (.seq a (.one s' t)) := h.into fun _ h => h.lastInto_seq

theorem node {k : NodeKind} (hn : Yields P (Parser.node k p) b) (h : YieldsClean P p k.whole)
    (hk : k.takesBody = false) : YieldsClean P (Parser.node k p) (.node .loose (· == k)) :=
  fun c hc => ⟨(hn c hc).1, (h c hc).2.close hk⟩

theorem nodeBody {k : NodeKind} (hn : Yields P (Parser.node k p) b) (h : YieldsClean P p k.whole)
    (hb : ∀ c, HasBody c p) : YieldsClean P (Parser.node k p) (.node .loose (· == k)) :=
  fun c hc => ⟨(hn c hc).1, (h c hc).2.closeBody fun _ => hb c⟩

/-- A node of tokens whose kind allows none of them to be missing. -/
theorem nodeOfTokens {k : NodeKind} (hn : Yields P (Parser.node k p) b) (hw : k.whole = k.pattern)
    (ha : k.pattern.onlyNodes fun _ => false) (hk : k.takesBody = false) :
    YieldsClean P (Parser.node k p) (.node .loose (· == k)) := by
  intro c hc
  have hr := (hn c hc).1
  refine ⟨hr, fun _ => ⟨.single ?_, covers_node.2 ⟨_, _, _, rfl, beq_self_eq_true k⟩⟩⟩
  cases hr.wellFormed _ (List.mem_singleton_self _) with
  | node covers _ => exact .node (.of_covers (hw ▸ covers) hk) (ThroughoutAll.of_tokens covers ha)

/-! ## Repetition -/

theorem manyKept (hP : Kept P) (hp : YieldsClean (fun c => P c ∧ At test c) p a) :
    YieldsClean P (Parser.many test p) (.many a) := by
  suffices h : ∀ unread, YieldsClean P (manyAtMost test p unread) (.many a) from
    look fun c hc => (h c.rest).mono (by rintro _ rfl; exact hc)
  intro unread
  induction unread with
  | nil => exact nothing.weaken fun _ h => covers_empty.1 h ▸ .nil
  | cons t unread ih =>
    have hmore : YieldsClean (fun c => P c ∧ At test c) (p ++ manyAtMost test p unread)
        (.seq a (.many a)) := hp.appendWhen ih fun c hc => hP hc.1 (hp c hc).1
    refine (ifNext hmore nothing).weaken fun ts h => ?_
    rcases covers_alt.1 h with h | h
    · cases h with | seq ha hm => exact .cons ha hm
    · exact covers_empty.1 h ▸ .nil

theorem many (hp : YieldsClean (At test) p a) : YieldsClean P (Parser.many test p) (.many a) :=
  (manyKept kept_any (hp.mono fun _ h => h.2)).whenever

theorem separated (hp : YieldsClean (At test) p a) :
    YieldsClean P (Parser.separated test p) (list a) := by
  suffices h : ∀ unread, YieldsClean Any (separatedAtMost test p unread) (list a) from
    look fun c _ => (h _).whenever
  intro unread
  induction unread with
  | nil => exact nothing.weaken fun _ h => h.right
  | cons t unread ih =>
    refine (optional (hp.append (optional ((takeAt rfl).append ih)))).weaken fun ts h => ?_
    rcases covers_opt.1 h with h | rfl
    · cases h with | seq ha hm => exact ha.list_cons hm
    · exact .none

/-- Where any token starts a part, a part follows each comma. -/
theorem separatedAll (hp : YieldsClean Any p a) :
    YieldsClean P (Parser.separated (fun _ => true) p) (items a) := by
  suffices h : ∀ (unread : List Token) (n : Nat), n < unread.length →
      YieldsClean (Within n) (separatedAtMost (fun _ => true) p unread) (items a) from
    look fun c _ => (h _ c.rest.length (by simp)).mono (by rintro _ rfl; exact Nat.le_refl _)
  intro unread
  induction unread with
  | nil => exact fun n hn => absurd hn (Nat.not_lt_zero n)
  | cons t unread ih =>
    intro n hn
    -- the comma that is taken pays for the turn behind it
    have hmore : YieldsClean (fun c => Within n c ∧ At (· == .comma) c)
        (Parser.take ++ separatedAtMost (fun _ => true) p unread)
        (.seq (mark .comma) (items a)) := by
      intro c hc
      have hcomma : c.kind = .comma := eq_of_beq hc.2
      obtain ⟨rest, hr⟩ := exists_rest (c := c) (by simp [hcomma])
      have hpos : 0 < n := Nat.lt_of_lt_of_le (by simp [hr]) hc.1
      rw [List.length_cons] at hn
      have htake : YieldsClean (· = c) Parser.take (mark .comma) :=
        (takeAt rfl).mono (by rintro _ rfl; exact hc.2)
      refine htake.appendWhen (ih (n - 1) (by omega)) ?_ c rfl
      rintro _ rfl
      exact within_take hc.1 (by simp [hcomma])
    refine (hp.whenever.appendKept (kept_within n) (ifNext hmore nothing)).weaken fun ts h => ?_
    cases h with | seq ha hm => exact ha.items_cons hm

/-- A part in whose place a token may be passed over, which is reported. -/
theorem orSkip {problem : Problem} (hs : Yields P (p.orSkip problem) b)
    (hp : YieldsClean P p (opt a)) : YieldsClean P (p.orSkip problem) a := by
  intro c hc
  refine ⟨(hs c hc).1, ?_⟩
  have hpart := (hp c hc).2
  unfold Clean at hpart ⊢
  simp only [Parser.orSkip, Parser.read]
  generalize p c = r at hpart
  obtain ⟨ts, d⟩ := r
  cases ts with
  | nil => exact Clean.of_report problem diagnostics_take
  | cons t ts =>
    intro hd
    obtain ⟨hw, hcovers⟩ := hpart hd
    exact ⟨hw, (covers_opt.1 hcovers).resolve_right (List.cons_ne_nil t ts)⟩

theorem read {next : Nat → List Tree → Parser} (hr : Yields P (p.read next) b)
    (hp : YieldsClean P p a) {b' : Pattern}
    (hn : ∀ c found d, P c → Reads c found d → Clean d (emit found) a →
      Clean d (next c.next.start found) b') : YieldsClean P (p.read next) b' :=
  fun c hc => ⟨(hr c hc).1, hn c _ _ hc (hp c hc).1 (hp c hc).2⟩

end YieldsClean

/-! ## Extension to the right -/

/-- What the rule adds to an expression makes a whole expression. -/
def ExtendsClean (rule : Cursor → Option Extension) : Prop :=
  ∀ d ext, rule d = some ext → ext.kind.isExpression ∧ ∃ b, YieldsClean (· = d) ext.rest b ∧
    ∀ us vs, (operand ext.slot).Covers us → b.Covers vs → ext.kind.whole.Covers (us ++ vs)

namespace Clean

variable {start : Nat}

theorem enlarge {ext : Extension} (hx : ext.kind.isExpression)
    (hl : Clean d (emit found) (operand .loose)) (hrest : YieldsClean (· = d) ext.rest b)
    (hk : ∀ us vs, (operand ext.slot).Covers us → b.Covers vs →
      ext.kind.whole.Covers (us ++ vs)) :
    Clean d (Parser.enlarge ext start found) (operand .loose) := by
  have hbare : (found.map (Tree.withSlot ext.slot)).map Tree.bare = found.map Tree.bare := by simp
  have hleft : Clean d (emit (found.map (Tree.withSlot ext.slot))) (operand ext.slot) :=
    fun hd => ⟨(hl hd).1.relabel hbare, (hl hd).2.map_withSlot⟩
  have hall : Clean d (emit (found.map (Tree.withSlot ext.slot)) ++ ext.rest) ext.kind.whole :=
    (hleft.emitAppend hrest).weaken fun ts h => by cases h with | seq hu hv => exact hk _ _ hu hv
  exact (hall.close (NodeKind.takesBody_of_isExpression hx)).weaken fun _ h => h.ofKind hx

theorem extend {rule : Cursor → Option Extension} (hrule : ExtendsClean rule)
    (unread : List Token) (h : Clean d (emit found) (operand .loose)) :
    Clean d (Parser.extend rule start unread found) (operand .loose) := by
  induction unread generalizing found d with
  | nil => exact h
  | cons t unread ih =>
    refine look ?_
    cases he : rule d with
    | none => exact h
    | some ext =>
      obtain ⟨hx, b, hrest, hk⟩ := hrule d ext he
      exact ih (h.enlarge hx hrest hk)

end Clean

end Parser

end Caret
