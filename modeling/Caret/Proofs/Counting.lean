import Caret.Proofs.ExpressionPatterns
import Caret.Proofs.Levels
/-!
# Parsers that count

A parser of the grammar is made for the number of levels that it may still open. A counting parser
is told nothing beforehand. It keeps a counter of the levels that are open and looks at it where it
is about to open one more: if the limit is reached it reports that and reads nothing, otherwise it
counts one up (`enter_recursion`), and down again when it is done (`exit_recursion`); so does
`guarded`. What lies between is no business of the counter, so the other ways to put parsers
together only hand it on.

`Counts inside opened more p q` says what is wanted of a counting parser `p` and a parser `q`: where
`opened` levels are open they do the same, and the counter is left as it was found; and what they
yield opens at most `more` levels on each way down, if it stands right below a node that holds
statements (`inside`) or if it does not. The lemmas follow the ways in which parsers are put
together. Only `guarded` changes what is open, only `level` and `raised` what is opened.
-/

namespace Caret

/-- Reads tokens off a cursor and yields the trees made of them; it is given the number of levels
that are open, and hands it back. -/
def CountingParser := Nat → Cursor → (List Tree × Cursor) × Nat

namespace CountingParser

/-- A parser that opens no level. -/
def plain (p : Parser) : CountingParser := fun opened c => (p c, opened)

/-- `p` on one level more, unless as many as may be are open. -/
def guarded (p : CountingParser) : CountingParser := fun opened c =>
  if Grammar.nestingLimit ≤ opened then (Parser.report .nestingTooDeep c, opened)
  else
    let r := p (opened + 1) c
    (r.1, r.2 - 1)

def emit (ts : List Tree) : CountingParser := plain (Parser.emit ts)

def nothing : CountingParser := plain Parser.nothing

def report (problem : Problem) : CountingParser := plain (Parser.report problem)

def take : CountingParser := plain Parser.take

def expect (kind : TokenKind) : CountingParser := plain (Parser.expect kind)

/-- One parser after the other. -/
def andThen (p q : CountingParser) : CountingParser := fun opened c =>
  let r := p opened c
  let s := q r.2 r.1.2
  ((r.1.1 ++ s.1.1, s.1.2), s.2)

instance : Append CountingParser := ⟨andThen⟩

/-- Goes on as `next` says, which is told where `p` started and what it yielded. -/
def read (p : CountingParser) (next : Nat → List Tree → CountingParser) : CountingParser :=
  fun opened c =>
    let r := p opened c
    next c.next.start r.1.1 r.2 r.1.2

/-- Goes on as `choose` says, which is shown the cursor but not the counter. -/
def look (choose : Cursor → CountingParser) : CountingParser := fun opened c => choose c opened c

def ifNext (test : TokenKind → Bool) (p q : CountingParser) : CountingParser :=
  look fun c => if test c.kind then p else q

/-- Puts the last of the trees that `p` yields into a slot. -/
def into (p : CountingParser) (slot : Slot) : CountingParser := fun opened c =>
  let r := p opened c
  (Parser.into (fun _ => r.1) slot c, r.2)

/-- Makes one tree of all that `p` yields. -/
def close (kind : NodeKind) (start : Nat) (p : CountingParser) : CountingParser := fun opened c =>
  let r := p opened c
  (Parser.close kind start (fun _ => r.1) c, r.2)

def node (kind : NodeKind) (p : CountingParser) : CountingParser :=
  look fun c => close kind c.next.start p

def orSkip (p : CountingParser) (problem : Problem) : CountingParser :=
  p.read fun _ ts => if ts.isEmpty then report problem ++ take else emit ts

/-! ## Repetition and extension -/

def manyAtMost (test : TokenKind → Bool) (p : CountingParser) : List Token → CountingParser
  | [] => nothing
  | _ :: unread => ifNext test (p ++ manyAtMost test p unread) nothing

def many (test : TokenKind → Bool) (p : CountingParser) : CountingParser :=
  look fun c => manyAtMost test p c.rest

def separatedAtMost (test : TokenKind → Bool) (p : CountingParser) : List Token → CountingParser
  | [] => nothing
  | _ :: unread =>
    ifNext test (p ++ ifNext (· == .comma) (take ++ separatedAtMost test p unread) nothing) nothing

def separated (test : TokenKind → Bool) (p : CountingParser) : CountingParser :=
  look fun c => separatedAtMost test p (c.next :: c.rest)

/-- How a tree goes on, with a counting parser for the rest of the larger tree. -/
structure Extension where
  kind : NodeKind
  slot : Slot
  rest : CountingParser

def enlarge (ext : Extension) (start : Nat) (left : List Tree) : CountingParser :=
  close ext.kind start (emit (left.map (Tree.withSlot ext.slot)) ++ ext.rest)

def extend (rule : Cursor → Option Extension) (start : Nat) :
    (unread : List Token) → (left : List Tree) → CountingParser
  | [], left => emit left
  | _ :: unread, left => look fun c =>
    match rule c with
    | none => emit left
    | some ext => (enlarge ext start left).read fun _ tree => extend rule start unread tree

def extended (p : CountingParser) (rule : Cursor → Option Extension) : CountingParser :=
  p.read fun start left => look fun c => extend rule start c.rest left

end CountingParser

/-- Where `opened` levels are open both do the same and the counter comes back, and what they yield
opens at most `more` levels on each way down. -/
structure Counts (inside : Bool) (opened more : Nat) (p : CountingParser) (q : Parser) : Prop where
  run : ∀ c, p opened c = (q c, opened)
  levels : ∀ c, ∀ t ∈ (q c).1, t.levels inside ≤ more

namespace Counts

variable {inside inside' : Bool} {opened more more' : Nat} {p p' : CountingParser} {q q' : Parser}
  {test : TokenKind → Bool} {kind : NodeKind} {ts : List Tree} {start : Nat}

/-! ## Bounds -/

theorem mono (h : Counts inside opened more p q) (hle : more ≤ more') :
    Counts inside opened more' p q :=
  ⟨h.run, fun c t ht => Nat.le_trans (h.levels c t ht) hle⟩

/-- What may stand among statements may stand anywhere. -/
theorem anywhere (h : Counts true opened more p q) : Counts inside opened more p q :=
  ⟨h.run, fun c t ht => Nat.le_trans (Tree.levels_le_of_imp (fun _ => rfl) t) (h.levels c t ht)⟩

/-- What stands among statements may be a level of its own. -/
theorem raised (h : Counts false opened more p q) : Counts true opened (more + 1) p q :=
  ⟨h.run, fun c t ht =>
    Nat.le_trans (Tree.levels_true_le t) (Nat.add_le_add_right (h.levels c t ht) 1)⟩

/-! ## The guard -/

theorem guarded (ho : opened < Grammar.nestingLimit) (h : Counts inside (opened + 1) more p q) :
    Counts inside opened more (.guarded p) q := by
  refine ⟨fun c => ?_, h.levels⟩
  rw [CountingParser.guarded, if_neg (Nat.not_le.2 ho), h.run]
  rfl

theorem refused (ho : Grammar.nestingLimit ≤ opened) :
    Counts inside opened more (.guarded p) (Parser.report .nestingTooDeep) := by
  refine ⟨fun c => ?_, fun c t ht => nomatch ht⟩
  rw [CountingParser.guarded, if_pos ho]

/-! ## Ways to put parsers together -/

theorem emit (h : ∀ t ∈ ts, t.levels inside ≤ more) :
    Counts inside opened more (.emit ts) (Parser.emit ts) := ⟨fun _ => rfl, fun _ => h⟩

theorem nothing : Counts inside opened more .nothing Parser.nothing := emit (by simp)

theorem report (problem : Problem) :
    Counts inside opened more (.report problem) (Parser.report problem) :=
  ⟨fun _ => rfl, fun _ _ ht => nomatch ht⟩

theorem levels_take (c : Cursor) : ∀ t ∈ (Parser.take c).1, t.levels inside ≤ more := by
  unfold Parser.take
  cases c.rest with
  | nil => simp
  | cons x xs => simp [Tree.levels]

theorem take : Counts inside opened more .take Parser.take := ⟨fun _ => rfl, levels_take⟩

theorem expect (kind : TokenKind) :
    Counts inside opened more (.expect kind) (Parser.expect kind) := by
  refine ⟨fun _ => rfl, fun c t ht => ?_⟩
  rw [Parser.expect, Parser.ifNext, Parser.look] at ht
  split at ht
  · exact levels_take c t ht
  · cases ht

theorem append (hp : Counts inside opened more p q) (hq : Counts inside opened more p' q') :
    Counts inside opened more (p ++ p') (q ++ q') := by
  refine ⟨fun c => ?_, fun c t ht => ?_⟩
  · show CountingParser.andThen p p' opened c = (Parser.andThen q q' c, opened)
    rw [CountingParser.andThen, hp.run, hq.run]
    rfl
  · exact (List.mem_append.1 ht).elim (hp.levels c t) (hq.levels _ t)

theorem look {choose : Cursor → CountingParser} {choose' : Cursor → Parser}
    (h : ∀ c, Counts inside opened more (choose c) (choose' c)) :
    Counts inside opened more (.look choose) (Parser.look choose') :=
  ⟨fun c => (h c).run c, fun c => (h c).levels c⟩

theorem ifNext (hp : Counts inside opened more p q) (hq : Counts inside opened more p' q') :
    Counts inside opened more (.ifNext test p p') (Parser.ifNext test q q') := by
  refine look fun c => ?_
  split
  · exact hp
  · exact hq

theorem optional (hp : Counts inside opened more p q) :
    Counts inside opened more (.ifNext test p .nothing) (Parser.ifNext test q Parser.nothing) :=
  hp.ifNext nothing

theorem into (hp : Counts inside opened more p q) (slot : Slot) :
    Counts inside opened more (p.into slot) (q.into slot) := by
  refine ⟨fun c => ?_, fun c t ht => ?_⟩
  · rw [CountingParser.into, hp.run]
    rfl
  · rcases List.mem_append.1 ht with ht | ht
    · exact hp.levels c t (List.dropLast_subset _ ht)
    · obtain ⟨u, hu, rfl⟩ := Option.map_eq_some_iff.1 (Option.mem_toList.1 ht)
      rw [Tree.levels_withSlot]
      exact hp.levels c u (List.mem_of_getLast? hu)

theorem read {next : Nat → List Tree → CountingParser} {next' : Nat → List Tree → Parser}
    (hp : Counts inside opened more p q)
    (h : ∀ start ts, (∀ t ∈ ts, t.levels inside ≤ more) →
      Counts inside' opened more' (next start ts) (next' start ts)) :
    Counts inside' opened more' (p.read next) (q.read next') := by
  refine ⟨fun c => ?_, fun c => (h _ _ (hp.levels c)).levels _⟩
  rw [CountingParser.read, hp.run]
  exact (h _ _ (hp.levels c)).run _

theorem orSkip (hp : Counts inside opened more p q) (problem : Problem) :
    Counts inside opened more (p.orSkip problem) (q.orSkip problem) := by
  refine hp.read fun _ ts hts => ?_
  split
  · exact (report problem).append take
  · exact emit hts

/-! ## Nodes -/

theorem run_close (hp : Counts inside opened more p q) (kind : NodeKind) (start : Nat)
    (c : Cursor) : CountingParser.close kind start p opened c =
      (Parser.close kind start q c, opened) := by
  rw [CountingParser.close, hp.run]
  rfl

/-- The node opens no level itself, and it holds no statements unless they are counted. -/
theorem close (hp : Counts inside opened more p q) (kind : NodeKind) (start : Nat)
    (hk : kind.opensLevel inside' = false)
    (hs : (kind.isStatementContainer && !inside) = false) :
    Counts inside' opened more (.close kind start p) (Parser.close kind start q) := by
  refine ⟨hp.run_close kind start, fun c t ht => ?_⟩
  obtain rfl := List.mem_singleton.1 ht
  rw [Tree.levels, hk, Bool.toNat_false, Nat.zero_add, Tree.levelsAll_le]
  have hinside : kind.isStatementContainer = true → inside = true := fun h => by
    simpa [h] using hs
  exact fun t ht => Nat.le_trans (Tree.levels_le_of_imp hinside t) (hp.levels c t ht)

theorem node (hp : Counts inside opened more p q) (kind : NodeKind)
    (hk : kind.opensLevel inside' = false)
    (hs : (kind.isStatementContainer && !inside) = false) :
    Counts inside' opened more (.node kind p) (Parser.node kind q) :=
  look fun _ => hp.close kind _ hk hs

/-- The node may open a level itself. -/
theorem level (hp : Counts true opened more p q) (kind : NodeKind) :
    Counts inside opened (more + 1) (.node kind p) (Parser.node kind q) := by
  refine look fun c => ⟨hp.run_close kind _, fun c t ht => ?_⟩
  obtain rfl := List.mem_singleton.1 ht
  have hinner : Tree.levelsAll kind.isStatementContainer (q c).1 ≤ more :=
    Tree.levelsAll_le.2 (hp.anywhere.levels c)
  have hself := Bool.toNat_le (kind.opensLevel inside)
  rw [Tree.levels]
  omega

/-- A node of a single token. -/
theorem token (kind : NodeKind) (hk : kind.opensLevel inside = false) :
    Counts inside opened more (.node kind .take) (Parser.node kind Parser.take) :=
  (take : Counts true opened more _ _).node kind hk (Bool.and_false _)

/-! ## Repetition -/

theorem manyAtMost (hp : Counts inside opened more p q) (unread : List Token) :
    Counts inside opened more (.manyAtMost test p unread) (Parser.manyAtMost test q unread) := by
  induction unread with
  | nil => exact nothing
  | cons x unread ih => exact (hp.append ih).optional

theorem many (hp : Counts inside opened more p q) :
    Counts inside opened more (.many test p) (Parser.many test q) :=
  look fun c => hp.manyAtMost c.rest

theorem separatedAtMost (hp : Counts inside opened more p q) (unread : List Token) :
    Counts inside opened more (.separatedAtMost test p unread)
      (Parser.separatedAtMost test q unread) := by
  induction unread with
  | nil => exact nothing
  | cons x unread ih => exact (hp.append (take.append ih).optional).optional

theorem separated (hp : Counts inside opened more p q) :
    Counts inside opened more (.separated test p) (Parser.separated test q) :=
  look fun c => hp.separatedAtMost (c.next :: c.rest)

/-! ## Extension to the right -/

/-- Both go on alike, with nodes that open no level. -/
inductive Extends (opened more : Nat) :
    Option CountingParser.Extension → Option Parser.Extension → Prop
  | none : Extends opened more none none
  | some {kind slot rest rest'} : Counts true opened more rest rest' →
      kind.opensLevel true = false →
      Extends opened more (some ⟨kind, slot, rest⟩) (some ⟨kind, slot, rest'⟩)

theorem enlarge {rest : CountingParser} {rest' : Parser} (hr : Counts true opened more rest rest')
    (hk : kind.opensLevel true = false) (slot : Slot) (start : Nat)
    (hts : ∀ t ∈ ts, t.levels true ≤ more) :
    Counts true opened more (.enlarge ⟨kind, slot, rest⟩ start ts)
      (Parser.enlarge ⟨kind, slot, rest'⟩ start ts) := by
  have hleft : ∀ t ∈ ts.map (Tree.withSlot slot), t.levels true ≤ more := by
    simpa using hts
  exact ((emit hleft).append hr).close kind start hk (Bool.and_false _)

theorem extend {rule : Cursor → Option CountingParser.Extension}
    {rule' : Cursor → Option Parser.Extension} (h : ∀ c, Extends opened more (rule c) (rule' c))
    (start : Nat) (unread : List Token) (hts : ∀ t ∈ ts, t.levels true ≤ more) :
    Counts true opened more (.extend rule start unread ts)
      (Parser.extend rule' start unread ts) := by
  induction unread generalizing ts with
  | nil => exact emit hts
  | cons x unread ih =>
    refine look fun c => ?_
    have hext := h c
    generalize rule c = ext at hext
    generalize rule' c = ext' at hext
    cases hext with
    | none => exact emit hts
    | some hr hk => exact (enlarge hr hk _ _ hts).read fun _ _ htree => ih htree

theorem extended {rule : Cursor → Option CountingParser.Extension}
    {rule' : Cursor → Option Parser.Extension} (hp : Counts true opened more p q)
    (h : ∀ c, Extends opened more (rule c) (rule' c)) :
    Counts true opened more (p.extended rule) (q.extended rule') :=
  hp.read fun _ _ hts => look fun _ => extend h _ _ hts

/-! ## Parsers that open no level -/

/-- A type reference has no nodes in it. -/
theorem levels_eq_zero {t : Tree} (h : t.WellFormed)
    (hk : ∀ k, t.kind = .node k → k = .typeReference) : t.levels inside = 0 := by
  induction h generalizing inside with
  | leaf => rfl
  | @node slot k span children hcovers _ ih =>
    obtain rfl := hk k rfl
    have hchildren : Tree.levelsAll false children ≤ 0 := by
      refine Tree.levelsAll_le.2 fun u hu => Nat.le_of_eq (ih u hu fun k hkind => ?_)
      have hallows := hcovers.allows u hu
      rw [hkind] at hallows
      exact beq_iff_eq.1 (Pattern.of_allows_node (p := (· == .typeReference)) rfl hallows)
    show 0 + Tree.levelsAll false children = 0
    omega

/-- A parser opens no level if it yields nothing but tokens and type references. -/
theorem plain {a : Pattern} (h : Parser.Yields Parser.Any q a)
    (ha : a.onlyNodes (· == .typeReference) = true) :
    Counts inside opened more (.plain q) q := by
  refine ⟨fun _ => rfl, fun c t ht => ?_⟩
  obtain ⟨hreads, hcovers⟩ := h c trivial
  rw [levels_eq_zero (hreads.wellFormed t ht)]
  · exact Nat.zero_le _
  · intro k hk
    have hallows := hcovers.allows t ht
    rw [hk] at hallows
    exact beq_iff_eq.1 (Pattern.of_allows_node (p := (· == .typeReference)) ha hallows)

end Counts

end Caret
