import Caret.Proofs.Frames
import Caret.Proofs.Reading
/-!
# Two texts that begin alike

A parser is run before two lists of tokens that agree up to some token `x` and not beyond. As long
as it does not read `x` it does the same in both runs; if it reads `x`, the trees that it yields are
alike around `x` (`InStep`). Parsers that are put together of such parsers are such parsers
(`Lockstep`), if they make no choice that depends on what stands behind `x`. They look ahead behind
a name, a dot, a built-in type and an opening bracket only, so `x` is none of these.
-/

namespace Caret

/-- A token behind which nothing is looked at before it is read, and that is no modifier. -/
def TokenKind.isAnchor (k : TokenKind) : Bool :=
  k != .identifier && !k.isPredefinedType && k != .dot && k != .openBracket && !k.isModifier

theorem TokenKind.isAnchor_iff {k : TokenKind} : k.isAnchor ↔ (k == .identifier) = false ∧
    k.isPredefinedType = false ∧ (k == .dot) = false ∧ (k == .openBracket) = false ∧
    k.isModifier = false := by
  simp [isAnchor, and_assoc]

/-- The unread tokens agree up to `x`. -/
structure Agree (x : Token) (r r' init : List Token) (c c' : Cursor) : Prop where
  rest : c.rest = init ++ x :: r
  rest' : c'.rest = init ++ x :: r'
  readEnd : c.readEnd = c'.readEnd

/-- Either both runs made the same trees and stopped before `x`, with no more than `n` tokens left
before it, or both read `x` and made trees that are alike around it. -/
def InStep (x : Token) (r r' : List Token) (n : Nat) (a b : List Tree × Cursor) : Prop :=
  (a.1 = b.1 ∧ ∃ init, init.length ≤ n ∧ Agree x r r' init a.2 b.2) ∨ Twin x a.1 b.1

/-- Where no more than `n` tokens stand before `x`, two parsers have such results. -/
def Lockstep (x : Token) (r r' : List Token) (n : Nat) (p p' : Parser) : Prop :=
  ∀ init c c', init.length ≤ n → Agree x r r' init c c' →
    InStep x r r' init.length (p c) (p' c')

open Caret.Parser Pattern

namespace Parser

/-- From every cursor with the property the parser yields well-formed trees as the pattern says. -/
def Makes (P : Cursor → Prop) (p : Parser) (a : Pattern) : Prop :=
  ∀ c, P c → a.Covers (p c).1 ∧ ∀ t ∈ (p c).1, t.WellFormed

theorem Yields.makes {P : Cursor → Prop} {p : Parser} {a : Pattern} (h : Yields P p a) :
    Makes P p a := fun c hc => ⟨(h c hc).2, (h c hc).1.wellFormed⟩

end Parser

variable {x : Token} {r r' init : List Token} {c c' : Cursor} {n m : Nat} {p p' q q' : Parser}
  {test : TokenKind → Bool}

namespace Agree

theorem next (h : Agree x r r' init c c') : c.next = c'.next := by
  unfold Cursor.next
  rw [h.rest, h.rest']
  cases init <;> rfl

theorem kind (h : Agree x r r' init c c') : c.kind = c'.kind := congrArg Token.kind h.next

/-- The tokens up to `x` are the same. -/
theorem peek (h : Agree x r r' init c c') {count : Nat} (hc : count ≤ init.length) :
    c.peek count = c'.peek count := by
  have hget (us : List Token) : (init ++ x :: us)[count]? = (init ++ [x])[count]? := by
    rw [List.append_cons, List.getElem?_append_left (by simp; omega)]
  unfold Cursor.peek
  rw [h.rest, h.rest', hget r, hget r']

theorem kind_nil (h : Agree x r r' [] c c') : c.kind = x.kind := by
  unfold Cursor.kind Cursor.next
  rw [h.rest]
  rfl

theorem peek_last (h : Agree x r r' init c c') : c.peek init.length = x.kind := by
  unfold Cursor.peek
  rw [h.rest]
  simp

theorem within (h : Agree x r r' init c c') (hn : init.length ≤ n) :
    Within (n + 1 + r.length) c := by
  unfold Within
  rw [h.rest, List.length_append, List.length_cons]
  omega

theorem symm (h : Agree x r r' init c c') : Agree x r' r init c' c :=
  ⟨h.rest', h.rest, h.readEnd.symm⟩

theorem report (h : Agree x r r' init c c') (a b : Problem) :
    Agree x r r' init (c.report a) (c'.report b) := by
  refine ⟨(Reads.rest_report c a).trans h.rest, (Reads.rest_report c' b).trans h.rest', ?_⟩
  have hr (c : Cursor) (a : Problem) : (c.report a).readEnd = c.readEnd := by
    unfold Cursor.report; split <;> rfl
  rw [hr, hr, h.readEnd]

end Agree

namespace InStep

variable {a b : List Tree × Cursor}

theorem mono (h : InStep x r r' n a b) (hm : n ≤ m) : InStep x r r' m a b :=
  h.imp (fun ⟨he, init, hn, ha⟩ => ⟨he, init, by omega, ha⟩) id

/-- What follows is read by both runs from where they agree, or by each for itself. -/
theorem append (h : InStep x r r' n (p c) (p' c'))
    (hq : ∀ init, init.length ≤ n → Agree x r r' init (p c).2 (p' c').2 →
      InStep x r r' m (q (p c).2) (q' (p' c').2)) :
    InStep x r r' m ((p ++ q) c) ((p' ++ q') c') := by
  rcases h with ⟨he, init, hn, ha⟩ | ht
  · rcases hq init hn ha with ⟨he', hi⟩ | ht
    · left
      refine ⟨?_, hi⟩
      rw [append_apply, append_apply]
      simp only [he, he']
    · right
      rw [append_apply, append_apply]
      simp only [he]
      exact ht.prepend _
  · exact .inr (ht.append _ _)

theorem close (h : InStep x r r' n (p c) (p' c')) (k : NodeKind) (start : Nat) :
    InStep x r r' n (Parser.close k start p c) (Parser.close k start p' c') := by
  rcases h with ⟨he, init', hi', ha⟩ | ht
  · left
    refine ⟨?_, init', hi', ha⟩
    simp only [Parser.close, he, ha.readEnd]
  · exact .inr (.single (.node ht _ _ _ _))

theorem node (h : InStep x r r' n (p c) (p' c')) (hn : c.next = c'.next) (k : NodeKind) :
    InStep x r r' n (Parser.node k p c) (Parser.node k p' c') := by
  have hc := h.close k c.next.start
  change InStep x r r' n (Parser.close k c.next.start p c) (Parser.close k c'.next.start p' c')
  rwa [← hn]

end InStep

namespace Lockstep

theorem mono (h : Lockstep x r r' n p p') (hm : m ≤ n) : Lockstep x r r' m p p' :=
  fun init c c' hi => h init c c' (by omega)

theorem emit (ts : List Tree) : Lockstep x r r' n (Parser.emit ts) (Parser.emit ts) :=
  fun init _ _ _ h => .inl ⟨rfl, init, Nat.le_refl _, h⟩

theorem nothing : Lockstep x r r' n Parser.nothing Parser.nothing := emit []

theorem report (a b : Problem) : Lockstep x r r' n (Parser.report a) (Parser.report b) :=
  fun init _ _ _ h => .inl ⟨rfl, init, Nat.le_refl _, h.report a b⟩

/-- Reading `x` itself. -/
theorem take_last (h : Agree x r r' [] c c') : Twin x (Parser.take c).1 (Parser.take c').1 := by
  have hc : (Parser.take c).1 = [.leaf .loose x] := by simp [Parser.take, h.rest]
  have hc' : (Parser.take c').1 = [.leaf .loose x] := by simp [Parser.take, h.rest']
  rw [hc, hc']
  exact .single (.leaf x .loose)

theorem take_of_agree {t : Token} (h : Agree x r r' (t :: init) c c') :
    InStep x r r' init.length (Parser.take c) (Parser.take c') := by
  left
  simp only [Parser.take, h.rest, h.rest', List.cons_append]
  exact ⟨trivial, init, Nat.le_refl _, rfl, rfl, rfl⟩

theorem take : Lockstep x r r' n Parser.take Parser.take :=
  fun init _ _ _ h => by
    cases init with
    | nil => exact .inr (take_last h)
    | cons t init => exact (take_of_agree h).mono (by simp)

theorem append (hp : Lockstep x r r' n p p') (hq : Lockstep x r r' n q q') :
    Lockstep x r r' n (p ++ q) (p' ++ q') := fun init c c' hi h =>
  (hp init c c' hi h).append fun init' hi' h' =>
    (hq init' _ _ (by omega) h').mono hi'

/-- What follows a token is read from fewer tokens before `x`. -/
theorem takeThen (hq : ∀ m < n, Lockstep x r r' m q q') :
    Lockstep x r r' n (Parser.take ++ q) (Parser.take ++ q') := by
  intro init c c' hi h
  cases init with
  | nil => exact .inr ((take_last h).append _ _)
  | cons t init =>
    refine (take_of_agree h).append fun init' hi' h' => ?_
    exact (hq init'.length (by simp at hi; omega) init' _ _ (Nat.le_refl _) h').mono
      (by simp; omega)

/-- What follows a token that is there is read from fewer tokens before `x`. -/
theorem expectThen {k : TokenKind} (hq : ∀ m < n, Lockstep x r r' m q q') (hi : init.length ≤ n)
    (h : Agree x r r' init c c') (hk : c.kind == k) :
    InStep x r r' init.length ((Parser.expect k ++ q) c) ((Parser.expect k ++ q') c') := by
  have htake (d : Cursor) (q : Parser) (hd : d.kind == k) :
      (Parser.expect k ++ q) d = (Parser.take ++ q) d := by
    rw [append_apply, append_apply, Parser.expect, ifNext_pos hd]
  rw [htake c q hk, htake c' q' (h.kind ▸ hk)]
  exact takeThen hq init c c' hi h

/-- A choice that is the same in both runs. -/
theorem look {choose choose' : Cursor → Parser}
    (h : ∀ init c c', init.length ≤ n → Agree x r r' init c c' →
      Lockstep x r r' init.length (choose c) (choose' c')) :
    Lockstep x r r' n (Parser.look choose) (Parser.look choose') :=
  fun init c c' hi ha => h init c c' hi ha init c c' (Nat.le_refl _) ha

theorem ifNext (hp : Lockstep x r r' n p p') (hq : Lockstep x r r' n q q') :
    Lockstep x r r' n (Parser.ifNext test p q) (Parser.ifNext test p' q') := by
  refine look fun init c c' hi h => ?_
  rw [← h.kind]
  split
  · exact hp.mono hi
  · exact hq.mono hi

theorem optional (hp : Lockstep x r r' n p p') :
    Lockstep x r r' n (Parser.ifNext test p Parser.nothing)
      (Parser.ifNext test p' Parser.nothing) := hp.ifNext nothing

theorem orReport (hp : Lockstep x r r' n p p') (a : Problem) :
    Lockstep x r r' n (Parser.ifNext test p (Parser.report a))
      (Parser.ifNext test p' (Parser.report a)) := hp.ifNext (report a a)

theorem expect (k : TokenKind) : Lockstep x r r' n (Parser.expect k) (Parser.expect k) :=
  take.orReport _

/-! ## Nodes and slots -/

theorem close (hp : Lockstep x r r' n p p') (k : NodeKind) (start : Nat) :
    Lockstep x r r' n (Parser.close k start p) (Parser.close k start p') :=
  fun init c c' hi h => (hp init c c' hi h).close k start

theorem node (hp : Lockstep x r r' n p p') (k : NodeKind) :
    Lockstep x r r' n (Parser.node k p) (Parser.node k p') :=
  fun init c c' hi h => (hp init c c' hi h).node h.next k

/-- Where each run yields one tree at most, that tree goes into the slot. -/
theorem into (hp : Lockstep x r r' n p p') (hs : ∀ c, (p c).1.length ≤ 1)
    (hs' : ∀ c, (p' c).1.length ≤ 1) (s : Slot) : Lockstep x r r' n (p.into s) (p'.into s) := by
  intro init c c' hi h
  rcases hp init c c' hi h with ⟨he, hagree⟩ | ht
  · left
    exact ⟨by simp only [Parser.into, he], hagree⟩
  · right
    have hone {ts : List Tree} (hl : ts.length ≤ 1) (hne : ts ≠ []) : ∃ t, ts = [t] := by
      rw [← List.length_eq_one_iff]
      have := List.length_pos_iff.2 hne
      omega
    obtain ⟨t, hts⟩ := hone (hs c) ht.ne_nil.1
    obtain ⟨t', hts'⟩ := hone (hs' c') ht.ne_nil.2
    simp only [Parser.into]
    rw [hts, hts'] at ht ⊢
    exact .single (ht.of_single.withSlot s)

/-! ## Repetition -/

/-- A repetition whose parts take tokens. The tokens that bound its turns may differ in number. -/
theorem manyAtMost {a : Pattern} (hp : Lockstep x r r' n p p')
    (hy : Yields (fun c => Within (n + 1 + r.length) c ∧ At test c) p a)
    (hb : a.beyond (.node .variableDeclarator)) {unread unread' : List Token}
    (hu : n < unread.length) (hu' : n < unread'.length) :
    Lockstep x r r' n (Parser.manyAtMost test p unread) (Parser.manyAtMost test p' unread') := by
  suffices h : ∀ m ≤ n, ∀ unread unread' : List Token, m < unread.length → m < unread'.length →
      Lockstep x r r' m (Parser.manyAtMost test p unread) (Parser.manyAtMost test p' unread') from
    h n (Nat.le_refl _) unread unread' hu hu'
  intro m hm unread
  induction unread generalizing m with
  | nil => intro _ hu; simp at hu
  | cons t unread ih =>
    intro unread' hu hu' init c c' hi h
    obtain ⟨t', unread', rfl⟩ := List.exists_cons_of_length_pos (Nat.zero_lt_of_lt hu')
    rw [List.length_cons] at hu hu'
    by_cases ht : test c.kind = true
    · rw [Parser.manyAtMost, Parser.manyAtMost, ifNext_pos ht, ifNext_pos (h.kind ▸ ht)]
      obtain ⟨hr, ha⟩ := hy c ⟨h.within (by omega), ht⟩
      have hlt := hr.rest_lt ha hb
      refine (hp init c c' (by omega) h).append fun init' hi' h' => ?_
      have hlength : init'.length < init.length := by
        rw [h.rest, h'.rest] at hlt
        simpa using hlt
      exact (ih (m - 1) (by omega) unread' (by omega) (by omega) init' _ _ (by omega) h').mono hi'
    · rw [Bool.not_eq_true] at ht
      rw [Parser.manyAtMost, Parser.manyAtMost, ifNext_neg ht, ifNext_neg (h.kind ▸ ht)]
      exact nothing init c c' hi h

theorem many {a : Pattern} (hp : Lockstep x r r' n p p')
    (hy : Yields (fun c => Within (n + 1 + r.length) c ∧ At test c) p a)
    (hb : a.beyond (.node .variableDeclarator)) :
    Lockstep x r r' n (Parser.many test p) (Parser.many test p') := by
  refine look fun init c c' hi h => ?_
  refine manyAtMost (hp.mono hi) (hy.mono fun d hd => ⟨?_, hd.2⟩) hb ?_ ?_
  · have := hd.1
    unfold Within at *
    omega
  · rw [h.rest]; simp
  · rw [h.rest']; simp

/-- Commas take tokens, so the parts between them need not. -/
theorem separatedAtMost (hp : Lockstep x r r' n p p') {unread unread' : List Token}
    (hu : n < unread.length) (hu' : n < unread'.length) :
    Lockstep x r r' n (Parser.separatedAtMost test p unread)
      (Parser.separatedAtMost test p' unread') := by
  induction unread generalizing n unread' with
  | nil => simp at hu
  | cons t unread ih =>
    obtain ⟨t', unread', rfl⟩ := List.exists_cons_of_length_pos (Nat.zero_lt_of_lt hu')
    rw [List.length_cons] at hu hu'
    refine optional (hp.append (optional (takeThen fun m hm => ?_)))
    exact ih (hp.mono (by omega)) (by omega) (by omega)

theorem separated (hp : Lockstep x r r' n p p') :
    Lockstep x r r' n (Parser.separated test p) (Parser.separated test p') := by
  refine look fun init c c' hi h => ?_
  refine separatedAtMost (hp.mono hi) ?_ ?_
  · rw [h.rest, List.length_cons, List.length_append, List.length_cons]
    omega
  · rw [h.rest', List.length_cons, List.length_append, List.length_cons]
    omega

/-! ## Going on from trees that are read -/

/-- If `x` is among the trees that are read first, each run goes on for itself. -/
theorem read {a : Pattern} {next next' : Nat → List Tree → Parser} (hp : Lockstep x r r' n p p')
    (hy : Makes (Within (n + 1 + r.length)) p a) (hy' : Makes (Within (n + 1 + r'.length)) p' a)
    (ahead : ∀ start ts, a.Covers ts → (∀ t ∈ ts, t.WellFormed) →
      Lockstep x r r' n (next start ts) (next' start ts))
    (past : ∀ {start start' ts ts'} d d', a.Covers ts → a.Covers ts' → (∀ t ∈ ts, t.WellFormed) →
      (∀ t ∈ ts', t.WellFormed) → Twin x ts ts' → Twin x (next start ts d).1 (next' start' ts' d').1) :
    Lockstep x r r' n (p.read next) (p'.read next') := by
  intro init c c' hi h
  obtain ⟨ha, hw⟩ := hy c (h.within hi)
  obtain ⟨ha', hw'⟩ := hy' c' (h.symm.within hi)
  rcases hp init c c' hi h with ⟨he, init', hi', h'⟩ | ht
  · have hnext := ahead c.next.start (p c).1 ha hw init' _ _ (by omega) h'
    have hc' : (p'.read next') c' = next' c.next.start (p c).1 (p' c').2 := by
      rw [he, h.next]; rfl
    rw [hc']
    exact hnext.mono hi'
  · exact .inr (past _ _ ha ha' hw hw' ht)

/-- A part in whose place one token may be passed over. -/
theorem orSkip (hp : Lockstep x r r' n p p') (a : Problem) :
    Lockstep x r r' n (p.orSkip a) (p'.orSkip a) := by
  intro init c c' hi h
  simp only [Parser.orSkip, Parser.read]
  rcases hp init c c' hi h with ⟨he, init', hi', h'⟩ | ht
  · rw [← he]
    split
    · exact ((report a a).append take init' _ _ (by omega) h').mono hi'
    · exact .inl ⟨rfl, init', hi', h'⟩
  · right
    have hne {ts : List Tree} (h : ts ≠ []) : ts.isEmpty = false := by
      cases ts <;> simp at h ⊢
    rw [hne ht.ne_nil.1, hne ht.ne_nil.2]
    exact ht

end Lockstep

/-! ## Extension to the right -/

/-- What is made of one tree is an expression that begins with the tree. -/
theorem Parser.extend_begins {rule : Cursor → Option Extension}
    (hrule : ∀ d ext, rule d = some ext → ext.kind.isExtension) (start : Nat)
    (unread : List Token) (t : Tree) (d : Cursor) :
    ∃ u, (extend rule start unread [t] d).1 = [u] ∧ t.Begins u := by
  suffices h : ∀ u, t.Begins u → ∃ v, (extend rule start unread [u] d).1 = [v] ∧ t.Begins v from
    h t .refl
  induction unread generalizing d with
  | nil => exact fun u hu => ⟨u, rfl, hu⟩
  | cons _ unread ih =>
    intro u hu
    simp only [extend, Parser.look]
    cases he : rule d with
    | none => exact ⟨u, rfl, hu⟩
    | some ext =>
      exact ih _ _ (.extend hu (hrule d ext he))

/-- The rule looks at the next token only, and what it adds makes an extension and takes tokens. -/
structure Steady (x : Token) (r r' : List Token) (n : Nat) (rule : Cursor → Option Extension) :
    Prop where
  kind : ∀ {c c'}, c.kind = c'.kind → rule c = rule c'
  extension : ∀ {c ext}, rule c = some ext → ext.kind.isExtension
  lockstep : ∀ {c ext}, rule c = some ext → Lockstep x r r' n ext.rest ext.rest
  progress : ∀ {c ext}, rule c = some ext → (ext.rest c).2.rest.length < c.rest.length

namespace Steady

variable {rule : Cursor → Option Extension} {start start' : Nat}

theorem mono (h : Steady x r r' n rule) (hm : m ≤ n) : Steady x r r' m rule :=
  { h with lockstep := fun he => (h.lockstep he).mono hm }

/-- Expressions that are alike stay so when they go on. -/
theorem twin_extend (h : Steady x r r' n rule) {s s' : Slot} {k k' : NodeKind} {span span' : Span}
    {ts ts' : List Tree} (ht : Twin x [.node s k span ts] [.node s' k' span' ts'])
    (hs : s = .loose) (hs' : s' = .loose) (unread unread' : List Token) (d d' : Cursor) :
    Twin x (extend rule start unread [.node s k span ts] d).1
      (extend rule start' unread' [.node s' k' span' ts'] d').1 := by
  obtain ⟨u, hu, hb⟩ := extend_begins (fun _ _ => h.extension) start unread
    (.node s k span ts) d
  obtain ⟨u', hu', hb'⟩ := extend_begins (fun _ _ => h.extension) start' unread'
    (.node s' k' span' ts') d'
  rw [hu, hu']
  exact .single (ht.of_single.begins hb hb' ((hb.slot hs).trans (hb'.slot hs').symm))

theorem extend (h : Steady x r r' n rule) (left : List Tree) {unread unread' : List Token}
    (hu : n < unread.length) (hu' : n < unread'.length) :
    Lockstep x r r' n (extend rule start unread left) (extend rule start unread' left) := by
  induction unread generalizing n left unread' with
  | nil => simp at hu
  | cons t unread ih =>
    obtain ⟨t', unread', rfl⟩ := List.exists_cons_of_length_pos (Nat.zero_lt_of_lt hu')
    rw [List.length_cons] at hu hu'
    intro init c c' hi ha
    simp only [Parser.extend, Parser.look]
    rw [← h.kind ha.kind]
    cases he : rule c with
    | none => exact Lockstep.emit left init c c' hi ha
    | some ext =>
      have hprogress := h.progress he
      have henlarge : InStep x r r' init.length (enlarge ext start left c)
          (enlarge ext start left c') :=
        ((Lockstep.emit _).append (h.lockstep he)).close ext.kind start init c c' hi ha
      simp only [Parser.read]
      rcases henlarge with ⟨heq, init', hi', ha'⟩ | ht
      · have hlt : init'.length < init.length := by
          have hrest : (ext.rest c).2.rest = init' ++ x :: r := ha'.rest
          rw [hrest, ha.rest] at hprogress
          simpa using hprogress
        rw [← heq]
        exact (ih (n := init'.length) (h.mono (by omega)) _ (by omega) (by omega) init' _ _
          (Nat.le_refl _) ha').mono hi'
      · exact .inr (h.twin_extend ht rfl rfl _ _ _ _)

end Steady

end Caret
