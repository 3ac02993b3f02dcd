import Caret.Proofs.Holes
/-!
# Two runs side by side

A parser is run on two lists of tokens that need not have the same length. A `Comparison` says when
two cursors stand beside each other, and when the first run is lost or a token that it has read
strays, so that the runs are not compared any more. `Follows` says of two parsers that from cursors
beside each other they come to such cursors again, with trees that are alike, or the first run is
astray; the lemmas on it follow the ways in which parsers are put together.

The tokens that count the turns of a repetition differ in number. So `Follows` has a bound for the
tokens that are left in each run, and each turn of a repetition has to read a token.
-/

namespace Caret

namespace TokenKind

/-- The kind of a token that is no brace and no modifier. -/
def isPlain (k : TokenKind) : Bool :=
  k != .openBrace && k != .closeBrace && k != .endOfFile && !k.isModifier

theorem isPlain_iff {k : TokenKind} : k.isPlain ↔
    k ≠ .openBrace ∧ k ≠ .closeBrace ∧ k ≠ .endOfFile ∧ k.isModifier = false := by
  simp [isPlain, and_assoc]

end TokenKind

/-- How two runs are compared. -/
structure Comparison where
  /-- The cursors stand beside each other. -/
  beside : Cursor → Cursor → Prop
  /-- The first run is lost. -/
  lost : Cursor → Prop
  /-- What two blocks hold may differ. -/
  hole : List Tree → List Tree → Prop
  /-- The token has to open a block. -/
  marked : Token → Prop
  /-- The next tokens are written alike, or they end a part in both runs. -/
  next : ∀ {c d}, beside c d →
    c.next.word = d.next.word ∨ (c.kind.isModifier ∧ d.kind = .closeBrace)
  report : ∀ {c d} a, beside c d → beside (c.report a) d
  report' : ∀ {c d} a, beside c d → beside c (d.report a)
  take : ∀ {c d}, beside c d → c.kind.isPlain → beside (Parser.take c).2 (Parser.take d).2
  lost_report : ∀ {c} a, lost c → lost (c.report a)
  lost_take : ∀ {c}, lost c → lost (Parser.take c).2

namespace Comparison

open Parser

variable (r : Comparison)

/-- The trees are alike. -/
def Alike (ts us : List Tree) : Prop := Tree.AllSameBut r.hole ts us

/-- A marked token among the trees strays. -/
def Spoilt (ts : List Tree) : Prop := Tree.SomeStrays r.marked ts

/-- The first run is lost, or it has read a marked token that strays. -/
def Astray (a : List Tree × Cursor) : Prop := r.lost a.2 ∨ r.Spoilt a.1

/-- The first run is astray, or the runs end beside each other with trees that are alike, and not
before they began. -/
def Ends (c d : Cursor) (a b : List Tree × Cursor) : Prop :=
  r.Astray a ∨ (r.beside a.2 b.2 ∧ r.Alike a.1 b.1 ∧
    a.2.rest.length ≤ c.rest.length ∧ b.2.rest.length ≤ d.rest.length)

/-- Before a token of an admitted kind, with fewer tokens left than the bounds, the parsers end so
from cursors beside each other. A run that is lost stays lost. -/
def Follows (n n' : Nat) (ok : Cursor → Prop) (p q : Parser) : Prop :=
  ∀ c, ok c → (r.lost c → r.lost (p c).2) ∧
    ∀ d, r.beside c d → c.rest.length < n → d.rest.length < n' → r.Ends c d (p c) (q d)

/-- Tokens of the admitted kinds may be read. -/
def Takes (ok : Cursor → Prop) : Prop :=
  ∀ c d, ok c → r.beside c d → c.kind ≠ .endOfFile ∧ c.next.word = d.next.word ∧
    (r.Astray (Parser.take c) ∨ r.beside (Parser.take c).2 (Parser.take d).2)

/-- The parts of a repetition read tokens in both runs. -/
def Advance (n n' : Nat) (test : TokenKind → Bool) (p q : Parser) : Prop :=
  ∀ c d, r.beside c d → c.rest.length < n → d.rest.length < n' → test c.kind →
    (p c).2.rest.length < c.rest.length ∧ (q d).2.rest.length < d.rest.length

/-- The cursors stand beside each other, or they are one. -/
def Near (c d : Cursor) : Prop := r.beside c d ∨ c = d

/-- What is told of the next token is the same in both runs. -/
def Sees {α : Type} (f : TokenKind → α) : Prop := ∀ c d, r.Near c d → f c.kind = f d.kind

/-- A token that strays in the trees strays in what the parser makes of them. -/
def Carries (ts : List Tree) (p : Parser) : Prop := r.Spoilt ts → ∀ c, r.Spoilt (p c).1

/-- The rule is the same in both runs, and what it adds reads a token. -/
structure Rules (n n' : Nat) (rule : Cursor → Option Extension) : Prop where
  sees : ∀ c d, r.Near c d → rule c = rule d
  follows : ∀ c ext, rule c = some ext → r.Follows n n' (· = c) ext.rest ext.rest
  advances : ∀ c ext, rule c = some ext → (ext.rest c).2.rest.length < c.rest.length
  kind : ∀ c ext, rule c = some ext → ext.kind ≠ .block

variable {r} {c d : Cursor} {n n' m m' : Nat} {p p' q q' : Parser} {ok ok' : Cursor → Prop}
  {test : TokenKind → Bool} {ts us vs ws : List Tree} {k : NodeKind}

/-! ## Trees that are alike -/

theorem kind_of_word (h : c.next.word = d.next.word) : c.kind = d.kind := congrArg Prod.fst h

namespace Alike

theorem refl (ts : List Tree) : r.Alike ts ts := Tree.allSameBut_refl r.hole ts

theorem close (h : r.Alike ts us) (k : NodeKind) (span span' : Span) :
    r.Alike [.node .loose k span ts] [.node .loose k span' us] :=
  .cons (.node .loose k span span' h) .nil

/-- Both runs take a token that is written alike. -/
theorem take (h : c.next.word = d.next.word) (hc : c.kind ≠ .endOfFile) :
    r.Alike (Parser.take c).1 (Parser.take d).1 := by
  obtain ⟨rest, hr⟩ := exists_rest hc
  obtain ⟨rest', hr'⟩ := exists_rest (kind_of_word h ▸ hc)
  have htake {e : Cursor} {x : Token} {left : List Token} (he : e.rest = x :: left) :
      (Parser.take e).1 = [.leaf .loose x] := by
    simp only [Parser.take, he]
  rw [htake hr, htake hr']
  exact .cons (.leaf .loose h) .nil

end Alike

/-- What reads no token leaves the runs beside each other. -/
theorem beside_of_still {c' : Cursor} (h : Reads c [] c') (hcd : r.beside c d) :
    r.beside c' d := by
  generalize hts : ([] : List Tree) = ts at h
  induction h with
  | refl => exact hcd
  | report c problem => exact r.report problem hcd
  | append _ _ ih ih' =>
    obtain ⟨rfl, rfl⟩ := List.append_eq_nil_iff.1 hts.symm
    exact ih' (ih hcd rfl) rfl
  | relabel _ hr ih =>
    subst hts
    exact ih hcd (List.map_eq_nil_iff.1 hr.symm).symm
  | take | close => cases hts

/-! ## Tokens that stray -/

namespace Carries

theorem nil (p : Parser) : r.Carries [] p := by
  rintro ⟨t, ht, -⟩
  cases ht

theorem emit (ts : List Tree) : r.Carries ts (Parser.emit ts) := fun h _ => h

theorem append (h : r.Carries ts p) (q : Parser) : r.Carries ts (p ++ q) :=
  fun hts c => (h hts c).left _

theorem behind (p : Parser) (h : r.Carries ts q) : r.Carries ts (p ++ q) :=
  fun hts c => (h hts (p c).2).right _

theorem into (h : r.Carries ts p) (slot : Slot) : r.Carries ts (p.into slot) :=
  fun hts c => (h hts c).lastInto slot

theorem close (h : r.Carries ts p) {k : NodeKind} (hk : k ≠ .block) (start : Nat) :
    r.Carries ts (Parser.close k start p) := fun hts c => (h hts c).node hk _ _

theorem look {choose : Cursor → Parser} (h : ∀ c, r.Carries ts (choose c)) :
    r.Carries ts (Parser.look choose) := fun hts c => h c hts c

theorem ifNext (hp : r.Carries ts p) (hq : r.Carries ts q) :
    r.Carries ts (Parser.ifNext test p q) := by
  refine look fun c => ?_
  split
  · exact hp
  · exact hq

/-- Nothing strays where there are no trees. -/
theorem ifEmpty (p : Parser) (hq : r.Carries ts q) :
    r.Carries ts (if ts.isEmpty then p else q) := by
  cases ts with
  | nil => exact nil _
  | cons => exact hq

theorem read {next : Nat → List Tree → Parser} (hp : r.Carries ts p)
    (h : ∀ start us, r.Carries us (next start us)) : r.Carries ts (p.read next) :=
  fun hts c => h _ _ (hp hts c) _

/-- A tree that is enlarged is the first part of the larger one. -/
theorem enlarge (ext : Extension) (hk : ext.kind ≠ .block) (start : Nat) :
    r.Carries ts (Parser.enlarge ext start ts) :=
  have hemit : r.Carries ts (Parser.emit (ts.map (Tree.withSlot ext.slot))) :=
    fun hts _ => hts.map_withSlot _
  (hemit.append _).close hk start

theorem extend {rule : Cursor → Option Extension}
    (hrule : ∀ c ext, rule c = some ext → ext.kind ≠ .block) (start : Nat)
    (unread : List Token) : r.Carries ts (Parser.extend rule start unread ts) := by
  induction unread generalizing ts with
  | nil => exact emit ts
  | cons x unread ih =>
    refine look fun c => ?_
    cases h : rule c with
    | none => exact emit ts
    | some ext => exact (enlarge ext (hrule c ext h) start).read fun _ _ => ih

end Carries

namespace Astray

/-- A run that is astray stays so. -/
theorem append (h : r.Astray (p c)) (hlost : r.lost (p c).2 → r.lost (q (p c).2).2) :
    r.Astray ((p ++ q) c) := h.imp hlost (·.left _)

theorem behind (p : Parser) (h : r.Astray (q (p c).2)) : r.Astray ((p ++ q) c) :=
  h.imp id (·.right _)

theorem into (h : r.Astray (p c)) (slot : Slot) : r.Astray ((p.into slot) c) :=
  h.imp id (·.lastInto slot)

theorem close (h : r.Astray (p c)) (hk : k ≠ .block) (start : Nat) :
    r.Astray (Parser.close k start p c) := h.imp id (·.node hk _ _)

end Astray

/-! ## How runs end -/

namespace Ends

variable {a b : List Tree × Cursor}

theorem stay (h : r.beside c d) (ha : r.Alike ts us) : r.Ends c d (ts, c) (us, d) :=
  .inr ⟨h, ha, Nat.le_refl _, Nat.le_refl _⟩

theorem mono {c' d' : Cursor} (h : r.Ends c' d' a b) (hc : c'.rest.length ≤ c.rest.length)
    (hd : d'.rest.length ≤ d.rest.length) : r.Ends c d a b :=
  h.imp id fun ⟨hb, ha, hc', hd'⟩ => ⟨hb, ha, Nat.le_trans hc' hc, Nat.le_trans hd' hd⟩

/-- What is read behind trees that are alike. -/
theorem append (h : r.Ends (p c).2 (q d).2 (p' (p c).2) (q' (q d).2))
    (ha : r.Alike (p c).1 (q d).1) (hc : (p c).2.rest.length ≤ c.rest.length)
    (hd : (q d).2.rest.length ≤ d.rest.length) : r.Ends c d ((p ++ p') c) ((q ++ q') d) :=
  (h.mono hc hd).imp (·.behind p) fun ⟨hb, ha', hle⟩ => ⟨hb, ha.append ha', hle⟩

end Ends

/-! ## What both runs see -/

theorem Near.next (h : r.Near c d) :
    c.next.word = d.next.word ∨ (c.kind.isModifier ∧ d.kind = .closeBrace) := by
  rcases h with h | rfl
  · exact r.next h
  · exact .inl rfl

theorem sees_of {α : Type} {f : TokenKind → α}
    (h : ∀ k, k.isModifier → f k = f .closeBrace) : r.Sees f := by
  intro c d hcd
  rcases hcd.next with hw | ⟨hm, hd⟩
  · rw [kind_of_word hw]
  · rw [hd]
    exact h _ hm

/-- A test for plain kinds. -/
theorem sees_plain (h : ∀ k, test k → k.isPlain) : r.Sees test := by
  have hfalse {k : TokenKind} (hk : k.isPlain = false) : test k = false := by
    rw [← Bool.not_eq_true]
    exact fun ht => by simp [h k ht] at hk
  refine sees_of fun k hm => ?_
  rw [hfalse (by simp [TokenKind.isPlain, hm]), hfalse rfl]

theorem plain_beq {k : TokenKind} (hk : k.isPlain) : ∀ l, (l == k) = true → l.isPlain := by
  intro l hl
  rw [beq_iff_eq.1 hl]
  exact hk

theorem sees_beq {k : TokenKind} (hk : k.isPlain) : r.Sees (· == k) := sees_plain (plain_beq hk)

theorem Near.take (h : r.Near c d) (hc : c.kind.isPlain) :
    r.Near (Parser.take c).2 (Parser.take d).2 := by
  rcases h with h | rfl
  · exact .inl (r.take h hc)
  · exact .inr rfl

/-- The token behind a plain one. -/
theorem Near.peek_one {α : Type} {f : TokenKind → α} (h : r.Near c d) (hc : c.kind.isPlain)
    (hs : r.Sees f) : f (c.peek 1) = f (d.peek 1) := by
  rw [← kind_take, ← kind_take]
  exact hs _ _ (h.take hc)

theorem takes_plain (hok : ∀ c, ok c → c.kind.isPlain) : r.Takes ok := by
  intro c d hc hcd
  obtain ⟨-, -, hend, hm⟩ := TokenKind.isPlain_iff.1 (hok _ hc)
  refine ⟨hend, (r.next hcd).resolve_right fun h => ?_, .inr (r.take hcd (hok _ hc))⟩
  rw [hm] at h
  cases h.1

theorem takes_beq {k : TokenKind} (hk : k.isPlain) : r.Takes (At (· == k)) :=
  takes_plain fun c => plain_beq hk c.kind

theorem Advance.bounded (h : r.Advance n n' test p q) (hm : m ≤ n) (hm' : m' ≤ n') :
    r.Advance m m' test p q := fun c d hcd hn hn' => h c d hcd (by omega) (by omega)

/-- Parts that make trees with tokens read tokens. -/
theorem Advance.of_yields {a : Pattern} (hs : r.Sees test)
    (hp : Yields (fun c => c.rest.length < n ∧ At test c) p a)
    (hq : Yields (fun c => c.rest.length < n' ∧ At test c) q a)
    (hb : a.beyond (.node .variableDeclarator)) : r.Advance n n' test p q := by
  intro c d hcd hn hn' hc
  have hd : test d.kind := by rwa [← hs c d (.inl hcd)]
  obtain ⟨hr, ha⟩ := hp c ⟨hn, hc⟩
  obtain ⟨hr', ha'⟩ := hq d ⟨hn', hd⟩
  exact ⟨hr.rest_lt ha hb, hr'.rest_lt ha' hb⟩

theorem Advance.of_at {a : Pattern} (hs : r.Sees test) (hp : Yields (At test) p a)
    (hb : a.beyond (.node .variableDeclarator)) : r.Advance n n' test p p :=
  .of_yields hs (hp.mono fun _ h => h.2) (hp.mono fun _ h => h.2) hb

/-- A run that is lost stays so through a repetition. -/
theorem lost_manyAtMost (hp : ∀ c, r.lost c → r.lost (p c).2) (unread : List Token) :
    ∀ c, r.lost c → r.lost (Parser.manyAtMost test p unread c).2 := by
  induction unread with
  | nil => exact fun _ => id
  | cons x unread ih =>
    intro c hc
    cases ht : test c.kind with
    | false => rwa [Parser.manyAtMost, ifNext_neg ht]
    | true =>
      rw [Parser.manyAtMost, ifNext_pos ht]
      exact ih _ (hp c hc)

theorem many_go {x : Token} {rest : List Token} (hc : c.rest = x :: rest) (ht : test c.kind) :
    (Parser.many test p c).2 = (Parser.manyAtMost test p rest (p c).2).2 := by
  rw [Parser.many, Parser.look, hc, Parser.manyAtMost, ifNext_pos ht]
  rfl

/-! ## Putting parsers together -/

namespace Follows

theorem mono (h : r.Follows n n' ok p q) (hok : ∀ c, ok' c → ok c) : r.Follows n n' ok' p q :=
  fun c hc => h c (hok _ hc)

/-- What may be done before any token. -/
theorem anywhere (h : r.Follows n n' (fun _ => True) p q) : r.Follows n n' ok p q :=
  h.mono fun _ _ => trivial

theorem bounded (h : r.Follows n n' ok p q) (hm : m ≤ n) (hm' : m' ≤ n') :
    r.Follows m m' ok p q := fun c hc =>
  ⟨(h c hc).1, fun d hcd hn hn' => (h c hc).2 d hcd (by omega) (by omega)⟩

theorem emit (h : r.Alike ts us) : r.Follows n n' ok (Parser.emit ts) (Parser.emit us) :=
  fun _ _ => ⟨id, fun _ hcd _ _ => .stay hcd h⟩

theorem nothing : r.Follows n n' ok Parser.nothing Parser.nothing := emit (.refl _)

theorem report (a b : Problem) : r.Follows n n' ok (Parser.report a) (Parser.report b) :=
  fun c _ => ⟨r.lost_report a, fun d hcd _ _ => .inr ⟨r.report a (r.report' b hcd), .refl _,
    Nat.le_of_eq (congrArg List.length (Reads.rest_report c a)),
    Nat.le_of_eq (congrArg List.length (Reads.rest_report d b))⟩⟩

theorem append (hp : r.Follows n n' ok p q) (hp' : r.Follows n n' (fun _ => True) p' q') :
    r.Follows n n' ok (p ++ p') (q ++ q') := by
  intro c hc
  obtain ⟨hlost, hends⟩ := hp c hc
  obtain ⟨hlost', hends'⟩ := hp' (p c).2 trivial
  refine ⟨fun hc => hlost' (hlost hc), fun d hcd hn hn' => ?_⟩
  rcases hends d hcd hn hn' with ha | ⟨hb, ha, hle, hle'⟩
  · exact .inl (ha.append hlost')
  · exact (hends' _ hb (Nat.lt_of_le_of_lt hle hn) (Nat.lt_of_le_of_lt hle' hn')).append ha hle hle'

/-- Trees that are alike stand before what is read. -/
theorem emitThen (ha : r.Alike ts us) (hp : r.Follows n n' ok p q) :
    r.Follows n n' ok (Parser.emit ts ++ p) (Parser.emit us ++ q) := fun c hc =>
  ⟨(hp c hc).1, fun d hcd hn hn' => ((hp c hc).2 d hcd hn hn').imp (.behind (Parser.emit ts))
    fun ⟨hb, ha', hle⟩ => ⟨hb, ha.append ha', hle⟩⟩

/-- Both runs choose what follows each other. What is chosen may count on the tokens that are
left. -/
theorem lookWithin {choose choose' : Cursor → Parser}
    (h : ∀ c d m m', ok c → r.Near c d → m ≤ n → m' ≤ n' → m ≤ c.rest.length + 1 →
      m' ≤ d.rest.length + 1 → r.Follows m m' (· = c) (choose c) (choose' d)) :
    r.Follows n n' ok (Parser.look choose) (Parser.look choose') := by
  have hmin (c d : Cursor) (hc : ok c) (hcd : r.Near c d) :=
    h c d (min n (c.rest.length + 1)) (min n' (d.rest.length + 1)) hc hcd (Nat.min_le_left ..)
      (Nat.min_le_left ..) (Nat.min_le_right ..) (Nat.min_le_right ..)
  exact fun c hc => ⟨(hmin c c hc (.inr rfl) c rfl).1, fun d hcd hn hn' =>
    (hmin c d hc (.inl hcd) c rfl).2 d hcd (by omega) (by omega)⟩

theorem look {choose choose' : Cursor → Parser}
    (h : ∀ c d, ok c → r.Near c d → r.Follows n n' (· = c) (choose c) (choose' d)) :
    r.Follows n n' ok (Parser.look choose) (Parser.look choose') :=
  lookWithin fun c d _ _ hc hcd hm hm' _ _ => (h c d hc hcd).bounded hm hm'

theorem ifNext (hs : r.Sees test) (hp : r.Follows n n' (fun c => ok c ∧ At test c) p p')
    (hq : r.Follows n n' (fun c => ok c ∧ test c.kind = false) q q') :
    r.Follows n n' ok (Parser.ifNext test p q) (Parser.ifNext test p' q') := by
  refine look fun c d hc hcd => ?_
  rw [← hs c d hcd]
  split
  · rename_i ht
    exact hp.mono fun k hk => by rw [hk]; exact ⟨hc, ht⟩
  · rename_i ht
    exact hq.mono fun k hk => by rw [hk]; exact ⟨hc, by simpa using ht⟩

theorem optional (hs : r.Sees test) (hp : r.Follows n n' (At test) p p') :
    r.Follows n n' ok (Parser.ifNext test p Parser.nothing)
      (Parser.ifNext test p' Parser.nothing) := ifNext hs (hp.mono fun _ h => h.2) nothing

theorem orReport (hs : r.Sees test) (hp : r.Follows n n' (At test) p p') (problem : Problem) :
    r.Follows n n' ok (Parser.ifNext test p (Parser.report problem))
      (Parser.ifNext test p' (Parser.report problem)) :=
  ifNext hs (hp.mono fun _ h => h.2) (report _ _)

/-! ## Tokens -/

theorem length_take {c : Cursor} (h : c.kind ≠ .endOfFile) :
    (Parser.take c).2.rest.length + 1 = c.rest.length := by
  obtain ⟨rest, hr⟩ := exists_rest h
  simp only [Parser.take, hr, List.length_cons]

/-- What stands behind a token is read with fewer tokens left. -/
theorem takeThen (htake : r.Takes ok) (hp : r.Follows (n - 1) (n' - 1) ok' p q)
    (hok : ∀ c, ok c → ok' (Parser.take c).2) :
    r.Follows n n' ok (Parser.take ++ p) (Parser.take ++ q) := by
  intro c hc
  obtain ⟨hlost, hends⟩ := hp (Parser.take c).2 (hok c hc)
  refine ⟨fun hl => hlost (r.lost_take hl), fun d hcd hn hn' => ?_⟩
  obtain ⟨hend, hword, ha | hb⟩ := htake c d hc hcd
  · exact .inl (ha.append hlost)
  · have hlength := length_take hend
    have hlength' := length_take (kind_of_word hword ▸ hend)
    exact (hends _ hb (by omega) (by omega)).append (.take hword hend) (by omega) (by omega)

theorem append_nothing (p : Parser) : p ++ Parser.nothing = p := by
  funext c
  rw [append_apply]
  exact Prod.ext (List.append_nil _) rfl

theorem take (htake : r.Takes ok) : r.Follows n n' ok Parser.take Parser.take := by
  have hend : r.Follows (n - 1) (n' - 1) (fun _ => True) Parser.nothing Parser.nothing := nothing
  have h := takeThen htake hend fun _ _ => trivial
  rwa [append_nothing] at h

theorem expectSeen {k : TokenKind} (hs : r.Sees (· == k)) (htake : r.Takes (At (· == k))) :
    r.Follows n n' ok (Parser.expect k) (Parser.expect k) := orReport hs (take htake) _

theorem expect {k : TokenKind} (hk : k.isPlain) :
    r.Follows n n' ok (Parser.expect k) (Parser.expect k) :=
  expectSeen (sees_beq hk) (takes_beq hk)

/-- What stands behind a token that is expected and there. -/
theorem expectThen {k : TokenKind} (hs : r.Sees (· == k))
    (h : r.Follows n n' (At (· == k)) (Parser.take ++ p) (Parser.take ++ q)) :
    r.Follows n n' (At (· == k)) (Parser.expect k ++ p) (Parser.expect k ++ q) := by
  have htake {c : Cursor} (hc : (c.kind == k) = true) (p : Parser) :
      (Parser.expect k ++ p) c = (Parser.take ++ p) c := by
    rw [append_apply, append_apply, Parser.expect, ifNext_pos hc]
  intro c hc
  obtain ⟨hlost, hends⟩ := h c hc
  rw [htake hc]
  refine ⟨hlost, fun d hcd hn hn' => ?_⟩
  have hd : (d.kind == k) = true := (hs c d (.inl hcd)).symm.trans hc
  rw [htake hd]
  exact hends d hcd hn hn'

/-! ## Nodes and slots -/

theorem into (h : r.Follows n n' ok p q) (slot : Slot) :
    r.Follows n n' ok (p.into slot) (q.into slot) := fun c hc =>
  ⟨(h c hc).1, fun d hcd hn hn' => ((h c hc).2 d hcd hn hn').imp (·.into slot)
    fun ⟨hb, ha, hle⟩ => ⟨hb, ha.lastInto slot, hle⟩⟩

theorem close (h : r.Follows n n' ok p q) {k : NodeKind} (hk : k ≠ .block) (start start' : Nat) :
    r.Follows n n' ok (Parser.close k start p) (Parser.close k start' q) := fun c hc =>
  ⟨(h c hc).1, fun d hcd hn hn' => ((h c hc).2 d hcd hn hn').imp (·.close hk start)
    fun ⟨hb, ha, hle⟩ => ⟨hb, ha.close k _ _, hle⟩⟩

theorem node (h : r.Follows n n' ok p q) {k : NodeKind} (hk : k ≠ .block) :
    r.Follows n n' ok (Parser.node k p) (Parser.node k q) :=
  look fun _ _ hc _ => (h.mono fun _ he => by rw [he]; exact hc).close hk _ _

/-- What follows depends on trees that are alike. -/
theorem read {next next' : Nat → List Tree → Parser} (hp : r.Follows n n' ok p q)
    (hcarries : 0 < n → ∀ start ts, r.Carries ts (next start ts))
    (h : ∀ start start' ts us, r.Alike ts us →
      r.Follows n n' (fun _ => True) (next start ts) (next' start' us)) :
    r.Follows n n' ok (p.read next) (q.read next') := by
  intro c hc
  obtain ⟨hlost, hends⟩ := hp c hc
  have hnext : r.lost (p c).2 → r.lost ((p.read next) c).2 :=
    (h c.next.start c.next.start _ _ (.refl (p c).1) (p c).2 trivial).1
  refine ⟨fun hc => hnext (hlost hc), fun d hcd hn hn' => ?_⟩
  rcases hends d hcd hn hn' with ha | ⟨hb, ha, hle, hle'⟩
  · exact .inl (ha.imp hnext fun hs => hcarries (Nat.zero_lt_of_lt hn) _ _ hs _)
  · exact ((h c.next.start d.next.start _ _ ha (p c).2 trivial).2 _ hb
      (Nat.lt_of_le_of_lt hle hn) (Nat.lt_of_le_of_lt hle' hn')).mono hle hle'

/-- A report changes neither the next token nor how many are left. -/
theorem reportThen {kinds : TokenKind → Prop} (problem : Problem)
    (hp : r.Follows n n' (fun c => kinds c.kind) p q) : r.Follows n n' (fun c => kinds c.kind)
      (Parser.report problem ++ p) (Parser.report problem ++ q) := by
  intro c hc
  have hrest (c : Cursor) : (c.report problem).rest = c.rest := Reads.rest_report c problem
  have hkind : kinds (c.report problem).kind := by rwa [Cursor.kind_congr (hrest c)]
  obtain ⟨hlost, hends⟩ := hp (c.report problem) hkind
  refine ⟨fun hl => hlost (r.lost_report problem hl), fun d hcd hn hn' => ?_⟩
  have hle (c : Cursor) : (c.report problem).rest.length ≤ c.rest.length :=
    Nat.le_of_eq (congrArg List.length (hrest c))
  exact Ends.append (hends _ (r.report problem (r.report' problem hcd)) (Nat.lt_of_le_of_lt (hle c) hn)
    (Nat.lt_of_le_of_lt (hle d) hn')) (.refl _) (hle c) (hle d)

/-- One token may be passed over where nothing is read. -/
theorem orSkip (kinds : TokenKind → Prop) (hp : r.Follows n n' ok p q)
    (htake : r.Takes fun c => kinds c.kind)
    (hskip : ∀ c, ok c → c.rest.length < n → (p c).1 = [] → kinds (p c).2.kind)
    (problem : Problem) : r.Follows n n' ok (p.orSkip problem) (q.orSkip problem) := by
  intro c hc
  obtain ⟨hlost, hends⟩ := hp c hc
  have hpass : r.Follows n n' (fun c => kinds c.kind) (Parser.report problem ++ Parser.take)
    (Parser.report problem ++ Parser.take) := reportThen problem (take htake)
  have hlost' : r.lost (p c).2 → r.lost ((Parser.report problem ++ Parser.take) (p c).2).2 :=
    fun hl => r.lost_take (r.lost_report problem hl)
  have horSkip (p : Parser) (c : Cursor) : p.orSkip problem c = if (p c).1.isEmpty then
      (Parser.report problem ++ Parser.take) (p c).2 else p c := by
    cases h : (p c).1.isEmpty with
    | true => simp only [Parser.orSkip, Parser.read, h, if_true]
    | false =>
      simp only [Parser.orSkip, Parser.read, h]
      rfl
  rw [horSkip]
  cases hempty : (p c).1.isEmpty with
  | true =>
    refine ⟨fun hl => hlost' (hlost hl), fun d hcd hn hn' => ?_⟩
    rcases hends d hcd hn hn' with ha | ⟨hb, ha, hle, hle'⟩
    · refine .inl (.inl (hlost' (ha.resolve_right ?_)))
      rintro ⟨t, ht, -⟩
      rw [List.isEmpty_iff.1 hempty] at ht
      cases ht
    · have hkind := hskip c hc hn (List.isEmpty_iff.1 hempty)
      rw [horSkip, if_pos rfl, if_pos (ha.isEmpty ▸ hempty)]
      exact ((hpass _ hkind).2 _ hb (Nat.lt_of_le_of_lt hle hn)
        (Nat.lt_of_le_of_lt hle' hn')).mono hle hle'
  | false =>
    refine ⟨hlost, fun d hcd hn hn' => ?_⟩
    rcases hends d hcd hn hn' with ha | ⟨hb, ha, hle⟩
    · exact .inl ha
    · rw [horSkip, ← ha.isEmpty, hempty, if_neg Bool.false_ne_true, if_neg Bool.false_ne_true]
      exact .inr ⟨hb, ha, hle⟩

/-! ## Repetition -/

/-- What stands behind a part is read with fewer tokens left. -/
theorem advanceThen (hp : r.Follows n n' (At test) p q) (ha : r.Advance n n' test p q)
    (hp' : r.Follows (n - 1) (n' - 1) (fun _ => True) p' q') :
    r.Follows n n' (At test) (p ++ p') (q ++ q') := by
  intro c hc
  obtain ⟨hlost, hends⟩ := hp c hc
  obtain ⟨hlost', hends'⟩ := hp' (p c).2 trivial
  refine ⟨fun hl => hlost' (hlost hl), fun d hcd hn hn' => ?_⟩
  obtain ⟨hlt, hlt'⟩ := ha c d hcd hn hn' hc
  rcases hends d hcd hn hn' with hastray | ⟨hb, halike, -⟩
  · exact .inl (hastray.append hlost')
  · exact (hends' _ hb (by omega) (by omega)).append halike (by omega) (by omega)

/-- A repetition with no fewer turns than tokens left. -/
theorem manyAtMost (hs : r.Sees test) (hp : r.Follows n n' (At test) p q)
    (ha : r.Advance n n' test p q) {unread unread' : List Token} (hn : n ≤ unread.length + 1)
    (hn' : n' ≤ unread'.length + 1) : r.Follows n n' ok (Parser.manyAtMost test p unread)
      (Parser.manyAtMost test q unread') := by
  have hstop {c d : Cursor} (hcd : r.beside c d) (ht : test c.kind = false) (unread unread') :
      r.Ends c d (Parser.manyAtMost test p unread c) (Parser.manyAtMost test q unread' d) := by
    rw [manyAtMost_stop _ ht, manyAtMost_stop _ (hs c d (.inl hcd) ▸ ht)]
    exact .stay hcd (.refl _)
  induction unread generalizing n n' unread' ok with
  | nil =>
    refine fun c _ => ⟨id, fun d hcd hc hd => hstop hcd ?_ [] unread'⟩
    rw [← Bool.not_eq_true]
    intro ht
    have hlt := (ha c d hcd hc hd ht).1
    rw [List.length_nil] at hn
    omega
  | cons x unread ih =>
    rw [List.length_cons] at hn
    have hrest : r.Follows (n - 1) (n' - 1) (fun _ => True) (Parser.manyAtMost test p unread)
        (Parser.manyAtMost test q unread'.tail) :=
      ih (hp.bounded (Nat.sub_le n 1) (Nat.sub_le n' 1))
        (ha.bounded (Nat.sub_le n 1) (Nat.sub_le n' 1)) (by omega)
        (by rw [List.length_tail]; omega)
    have hturn := advanceThen hp ha hrest
    intro c _
    by_cases ht : test c.kind = true
    · rw [Parser.manyAtMost, ifNext_pos ht]
      refine ⟨(hturn c ht).1, fun d hcd hc hd => ?_⟩
      have hlt := (ha c d hcd hc hd ht).2
      obtain ⟨y, unread', rfl⟩ := List.exists_cons_of_length_pos (by omega : 0 < unread'.length)
      rw [Parser.manyAtMost, ifNext_pos (hs c d (.inl hcd) ▸ ht)]
      exact (hturn c ht).2 d hcd hc hd
    · rw [Bool.not_eq_true] at ht
      refine ⟨?_, fun d hcd _ _ => hstop hcd ht _ _⟩
      rw [manyAtMost_stop _ ht]
      exact id

theorem many (hs : r.Sees test) (hp : r.Follows n n' (At test) p q)
    (ha : r.Advance n n' test p q) :
    r.Follows n n' ok (Parser.many test p) (Parser.many test q) :=
  lookWithin fun _ _ _ _ _ _ hm hm' hc hd =>
    manyAtMost hs (hp.bounded hm hm') (ha.bounded hm hm') hc hd

/-- Commas take tokens, so the parts between them need not. -/
theorem separatedAtMost (hs : r.Sees test) (hp : r.Follows n n' (At test) p q)
    {unread unread' : List Token} (hn : n ≤ unread.length) (hn' : n' ≤ unread'.length) :
    r.Follows n n' ok (Parser.separatedAtMost test p unread)
      (Parser.separatedAtMost test q unread') := by
  induction unread generalizing n n' unread' ok with
  | nil =>
    exact fun c _ => ⟨id, fun d _ hc _ => absurd (Nat.lt_of_lt_of_le hc hn) (Nat.not_lt_zero _)⟩
  | cons x unread ih =>
    rw [List.length_cons] at hn
    have hmore : r.Follows (n - 1) (n' - 1) (fun _ => True)
        (Parser.separatedAtMost test p unread) (Parser.separatedAtMost test q unread'.tail) :=
      ih (hp.bounded (Nat.sub_le n 1) (Nat.sub_le n' 1)) (by omega)
        (by rw [List.length_tail]; omega)
    have hcomma := takeThen (takes_beq (k := .comma) rfl) hmore fun _ _ => trivial
    have hturn : r.Follows n n' ok (Parser.separatedAtMost test p (x :: unread))
        (Parser.separatedAtMost test q (x :: unread'.tail)) :=
      optional hs (hp.append (optional (sees_beq rfl) hcomma))
    cases unread' with
    | nil =>
      -- no token is left in the second run
      exact fun c hc => ⟨(hturn c hc).1, fun d _ _ hd =>
        absurd (Nat.lt_of_lt_of_le hd hn') (Nat.not_lt_zero _)⟩
    | cons y unread' => exact hturn

theorem separated (hs : r.Sees test) (hp : r.Follows n n' (At test) p q) :
    r.Follows n n' ok (Parser.separated test p) (Parser.separated test q) :=
  lookWithin fun _ _ _ _ _ _ hm hm' hc hd =>
    separatedAtMost hs (hp.bounded hm hm') hc hd

end Follows

/-! ## Extension to the right -/

theorem Rules.bounded {rule : Cursor → Option Extension} (h : r.Rules n n' rule) (hm : m ≤ n)
    (hm' : m' ≤ n') : r.Rules m m' rule :=
  ⟨h.sees, fun c ext he => (h.follows c ext he).bounded hm hm', h.advances, h.kind⟩

namespace Follows

/-- A tree that is enlarged is the first part of the larger one. -/
theorem enlarge (ext : Extension) (hk : ext.kind ≠ .block)
    (h : r.Follows n n' ok ext.rest ext.rest) (ha : r.Alike ts us) (start start' : Nat) :
    r.Follows n n' ok (Parser.enlarge ext start ts) (Parser.enlarge ext start' us) :=
  (emitThen (ha.map_withSlot _) h).close hk _ _

variable {rule : Cursor → Option Extension}

theorem extend_stop (h : rule c = none) (start : Nat) (unread : List Token) (ts : List Tree) :
    Parser.extend rule start unread ts c = (ts, c) := by
  cases unread with
  | nil => rfl
  | cons x unread =>
    rw [Parser.extend, Parser.look, h]
    rfl

theorem extend_go {ext : Extension} (h : rule c = some ext) (start : Nat) (x : Token)
    (unread : List Token) (ts : List Tree) : Parser.extend rule start (x :: unread) ts c =
      Parser.extend rule start unread (Parser.enlarge ext start ts c).1
        (Parser.enlarge ext start ts c).2 := by
  rw [Parser.extend, Parser.look, h]
  rfl

/-- A tree is enlarged in both runs, with no fewer turns than tokens left. -/
theorem extend (hr : r.Rules n n' rule) (ha : r.Alike ts us) (start start' : Nat)
    {unread unread' : List Token} (hn : n ≤ unread.length + 1) (hn' : n' ≤ unread'.length + 1) :
    r.Follows n n' ok (Parser.extend rule start unread ts)
      (Parser.extend rule start' unread' us) := by
  have hstop {c d : Cursor} {ts us : List Tree} (hcd : r.beside c d) (ha : r.Alike ts us)
      (hrule : rule c = none) (unread unread') : r.Ends c d
        (Parser.extend rule start unread ts c) (Parser.extend rule start' unread' us d) := by
    rw [extend_stop hrule, extend_stop (hr.sees c d (.inl hcd) ▸ hrule)]
    exact .stay hcd ha
  induction unread generalizing n n' unread' ok ts us with
  | nil =>
    refine fun c _ => ⟨id, fun d hcd hc hd => hstop hcd ha ?_ [] unread'⟩
    cases hrule : rule c with
    | none => rfl
    | some ext =>
      have hlt := hr.advances c ext hrule
      rw [List.length_nil] at hn
      omega
  | cons x unread ih =>
    rw [List.length_cons] at hn
    intro c _
    cases hrule : rule c with
    | none =>
      refine ⟨?_, fun d hcd _ _ => hstop hcd ha hrule _ _⟩
      rw [extend_stop hrule]
      exact id
    | some ext =>
      have hmore {ts us : List Tree} (ha : r.Alike ts us) :
          r.Follows (n - 1) (n' - 1) (fun _ => True) (Parser.extend rule start unread ts)
            (Parser.extend rule start' unread'.tail us) :=
        ih (hr.bounded (Nat.sub_le n 1) (Nat.sub_le n' 1)) ha (by omega)
          (by rw [List.length_tail]; omega)
      have hkind := hr.kind c ext hrule
      obtain ⟨hlost, hends⟩ := enlarge ext hkind (hr.follows c ext hrule) ha start start' c rfl
      rw [extend_go hrule]
      refine ⟨fun hl => (hmore (.refl _) _ trivial).1 (hlost hl), fun d hcd hc hd => ?_⟩
      have hrule' := hr.sees c d (.inl hcd) ▸ hrule
      have hlt : (Parser.enlarge ext start ts c).2.rest.length < c.rest.length :=
        hr.advances c ext hrule
      have hlt' : (Parser.enlarge ext start' us d).2.rest.length < d.rest.length :=
        hr.advances d ext hrule'
      obtain ⟨y, unread', rfl⟩ := List.exists_cons_of_length_pos (by omega : 0 < unread'.length)
      rw [extend_go hrule']
      rcases hends d hcd hc hd with hastray | ⟨hb, ha', -⟩
      · exact .inl (hastray.imp (hmore (.refl _) _ trivial).1 fun hs =>
          Carries.extend hr.kind _ _ hs _)
      · exact ((hmore ha' _ trivial).2 _ hb (by omega) (by omega)).mono (by omega) (by omega)

theorem extended (hp : r.Follows n n' ok p q) (hr : r.Rules n n' rule) :
    r.Follows n n' ok (p.extended rule) (q.extended rule) :=
  hp.read (fun _ _ _ => .look fun _ => .extend hr.kind _ _) fun _ _ _ _ ha =>
    lookWithin fun _ _ _ _ _ _ hm hm' hc hd => extend (hr.bounded hm hm') ha _ _ hc hd

end Follows

/-! ## Runs that see the same tokens -/

/-- The next tokens of both runs are always written alike, and any may be read. -/
structure Even (r : Comparison) : Prop where
  next : ∀ {c d}, r.beside c d → c.next.word = d.next.word
  take : ∀ {c d}, r.beside c d → c.kind ≠ .endOfFile →
    r.Astray (Parser.take c) ∨ r.beside (Parser.take c).2 (Parser.take d).2

namespace Even

theorem next_near (h : r.Even) (hcd : r.Near c d) : c.next.word = d.next.word := by
  rcases hcd with hcd | rfl
  · exact h.next hcd
  · rfl

theorem kind_near (h : r.Even) (hcd : r.Near c d) : c.kind = d.kind :=
  kind_of_word (h.next_near hcd)

theorem sees {α : Type} {f : TokenKind → α} (h : r.Even) : r.Sees f := fun _ _ hcd =>
  congrArg f (h.kind_near hcd)

theorem takes (h : r.Even) (hok : ∀ c, ok c → c.kind ≠ .endOfFile) : r.Takes ok := fun _ _ hc hcd =>
  ⟨hok _ hc, h.next hcd, h.take hcd (hok _ hc)⟩

theorem expect (h : r.Even) {k : TokenKind} (hk : k ≠ .endOfFile) :
    r.Follows n n' ok (Parser.expect k) (Parser.expect k) :=
  .expectSeen h.sees (h.takes fun _ hl => eq_of_beq hl ▸ hk)

end Even

end Comparison

end Caret
