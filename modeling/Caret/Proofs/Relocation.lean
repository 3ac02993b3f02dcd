import Caret.Grammar.Parser
import Mathlib.Order.Hom.Basic
/-!
# Tokens that stand elsewhere

Two runs of a parser are parallel if their tokens differ in nothing but where they stand. To say so
the starts of both are told on one scale: `f` gives the places of the first run on it, `g` those of
the second. Both keep the order, so problems are found at one token in the first run where they are
found at one token in the second. Where things end is not told.

What two parsers make in parallel runs differs in nothing but where it stands (`Parallel`); the
lemmas on it follow the ways in which parsers are put together.
-/

namespace Caret

/-- The token with its start on another scale. -/
def Token.moved (f : Nat → Nat) (x : Token) : Token := { x with start := f x.start }

/-- The span with its start on another scale, and without its end. -/
def Span.moved (f : Nat → Nat) (s : Span) : Span := ⟨f s.start, 0⟩

/-- The diagnostic with its start on another scale. -/
def Diagnostic.moved (f : Nat → Nat) (d : Diagnostic) : Diagnostic := ⟨d.span.moved f, d.problem⟩

/-- What is left to read, on another scale. -/
def Cursor.moved (f : Nat → Nat) (c : Cursor) : Cursor where
  rest := c.rest.map (Token.moved f)
  length := f c.length
  readEnd := 0
  diagnostics := c.diagnostics.map (Diagnostic.moved f)

namespace Tree

mutual

/-- The tree with its starts on another scale. -/
def moved (f : Nat → Nat) : Tree → Tree
  | leaf slot x => leaf slot (x.moved f)
  | node slot kind span children => node slot kind (span.moved f) (movedAll f children)

/-- Some trees with their starts on another scale. -/
def movedAll (f : Nat → Nat) : List Tree → List Tree
  | [] => []
  | t :: ts => moved f t :: movedAll f ts

end

theorem movedAll_eq_map (f : Nat → Nat) (ts : List Tree) : movedAll f ts = ts.map (moved f) := by
  induction ts with
  | nil => rfl
  | cons t ts ih => rw [movedAll, ih, List.map_cons]

theorem moved_withSlot (f : Nat → Nat) (slot : Slot) (t : Tree) :
    (t.withSlot slot).moved f = (t.moved f).withSlot slot := by
  cases t <;> rfl

end Tree

/-! ## Cursors -/

namespace Cursor

theorem next_moved (f : Nat → Nat) (c : Cursor) : (c.moved f).next = c.next.moved f := by
  unfold next moved
  cases c.rest <;> rfl

theorem kind_moved (f : Nat → Nat) (c : Cursor) : (c.moved f).kind = c.kind := by
  rw [kind, next_moved]
  rfl

theorem peek_moved (f : Nat → Nat) (c : Cursor) (count : Nat) :
    (c.moved f).peek count = c.peek count := by
  unfold peek moved
  rw [List.getElem?_map, Option.map_map]
  rfl

variable {f g : ℕ ↪o ℕ} {c d : Cursor}

theorem kind_eq (h : c.moved f = d.moved g) : c.kind = d.kind := by
  rw [← kind_moved f, h, kind_moved]

theorem peek_eq (h : c.moved f = d.moved g) (count : Nat) : c.peek count = d.peek count := by
  rw [← peek_moved f, h, peek_moved]

theorem next_eq (h : c.moved f = d.moved g) : c.next.moved f = d.next.moved g := by
  rw [← next_moved, h, next_moved]

theorem text_next_eq (h : c.moved f = d.moved g) : c.next.text = d.next.text := by
  have htext := congrArg Token.text (next_eq h)
  exact htext

theorem length_rest_eq (h : c.moved f = d.moved g) : c.rest.length = d.rest.length := by
  simpa [moved] using congrArg (fun e => e.rest.length) h

/-- Whether the last problem is at the next token can be told on the other scale. -/
theorem any_last_moved (f : ℕ ↪o ℕ) (c : Cursor) :
    ((c.moved f).diagnostics.head?.any fun last => last.span.start == (c.next.moved f).start) =
      c.diagnostics.head?.any fun last => last.span.start == c.next.start := by
  rw [show (c.moved f).diagnostics = c.diagnostics.map (Diagnostic.moved f) from rfl,
    List.head?_map, Option.any_map]
  congr 1
  funext last
  simp [Diagnostic.moved, Span.moved, Token.moved]

theorem report_eq (h : c.moved f = d.moved g) (problem : Problem) :
    (c.report problem).moved f = (d.report problem).moved g := by
  have hnext := next_eq h
  have hstart : f c.next.start = g d.next.start := congrArg Token.start hnext
  unfold report
  rw [← any_last_moved f c, ← any_last_moved g d, h, hnext]
  split
  · exact h
  · have hmoved (f : ℕ ↪o ℕ) (c : Cursor) (diagnostic : Diagnostic) :
        ({ c with diagnostics := diagnostic :: c.diagnostics } : Cursor).moved f =
          { c.moved f with diagnostics := diagnostic.moved f :: (c.moved f).diagnostics } := rfl
    have hdiagnostic : (⟨c.next.span, problem⟩ : Diagnostic).moved f =
        (⟨d.next.span, problem⟩ : Diagnostic).moved g :=
      congrArg (fun start => (⟨⟨start, 0⟩, problem⟩ : Diagnostic)) hstart
    rw [hmoved, hmoved, h, hdiagnostic]

end Cursor

/-! ## Parsers -/

/-- What is made in parallel runs differs in nothing but where it stands. -/
def Parallel (f g : ℕ ↪o ℕ) (p q : Parser) : Prop :=
  ∀ c d : Cursor, c.moved f = d.moved g →
    (p c).1.map (Tree.moved f) = (q d).1.map (Tree.moved g) ∧ (p c).2.moved f = (q d).2.moved g

namespace Parallel

variable {f g : ℕ ↪o ℕ} {p p' q q' : Parser} {test : TokenKind → Bool} {ts us : List Tree}
  {start start' : Nat}

theorem emit (h : ts.map (Tree.moved f) = us.map (Tree.moved g)) :
    Parallel f g (Parser.emit ts) (Parser.emit us) := fun _ _ hc => ⟨h, hc⟩

theorem nothing : Parallel f g Parser.nothing Parser.nothing := emit rfl

theorem report (problem : Problem) : Parallel f g (Parser.report problem) (Parser.report problem) :=
  fun _ _ hc => ⟨rfl, Cursor.report_eq hc problem⟩

theorem take : Parallel f g Parser.take Parser.take := by
  intro c d hc
  have hrest : c.rest.map (Token.moved f) = d.rest.map (Token.moved g) := congrArg Cursor.rest hc
  have hlength : f c.length = g d.length := congrArg Cursor.length hc
  have hdiagnostics := congrArg Cursor.diagnostics hc
  unfold Parser.take
  cases hr : c.rest with
  | nil =>
    have hr' : d.rest = [] := by simpa [hr] using hrest.symm
    rw [hr']
    exact ⟨rfl, hc⟩
  | cons x xs =>
    cases hr' : d.rest with
    | nil => simp [hr, hr'] at hrest
    | cons y ys =>
      rw [hr, hr', List.map_cons, List.map_cons] at hrest
      obtain ⟨hx, hxs⟩ := List.cons.inj hrest
      refine ⟨?_, ?_⟩
      · simp only [List.map_cons, List.map_nil, Tree.moved, hx]
      · simp only [Cursor.moved, hxs, hlength]
        exact congrArg _ hdiagnostics

theorem append (hp : Parallel f g p p') (hq : Parallel f g q q') :
    Parallel f g (p ++ q) (p' ++ q') := by
  intro c d hc
  obtain ⟨hts, hc'⟩ := hp c d hc
  obtain ⟨hus, hc''⟩ := hq _ _ hc'
  refine ⟨?_, hc''⟩
  show ((p c).1 ++ (q (p c).2).1).map _ = ((p' d).1 ++ (q' (p' d).2).1).map _
  rw [List.map_append, List.map_append, hts, hus]

/-- Both runs choose alike. -/
theorem look {choose choose' : Cursor → Parser}
    (h : ∀ c d : Cursor, c.moved f = d.moved g → Parallel f g (choose c) (choose' d)) :
    Parallel f g (Parser.look choose) (Parser.look choose') := fun c d hc => h c d hc c d hc

theorem ifNext (hp : Parallel f g p p') (hq : Parallel f g q q') :
    Parallel f g (Parser.ifNext test p q) (Parser.ifNext test p' q') := by
  refine look fun c d hc => ?_
  rw [← Cursor.kind_eq hc]
  split
  · exact hp
  · exact hq

theorem optional (hp : Parallel f g p p') :
    Parallel f g (Parser.ifNext test p Parser.nothing) (Parser.ifNext test p' Parser.nothing) :=
  hp.ifNext nothing

theorem expect (kind : TokenKind) : Parallel f g (Parser.expect kind) (Parser.expect kind) :=
  take.ifNext (report _)

theorem into (hp : Parallel f g p p') (slot : Slot) :
    Parallel f g (p.into slot) (p'.into slot) := by
  intro c d hc
  obtain ⟨hts, hc'⟩ := hp c d hc
  have hmap (f : ℕ ↪o ℕ) (ts : List Tree) :
      (ts.dropLast ++ (ts.getLast?.map (Tree.withSlot slot)).toList).map (Tree.moved f) =
        (ts.map (Tree.moved f)).dropLast ++
          ((ts.map (Tree.moved f)).getLast?.map (Tree.withSlot slot)).toList := by
    rw [List.map_append, List.map_dropLast, List.getLast?_map]
    cases ts.getLast? with
    | none => rfl
    | some t => simp [Tree.moved_withSlot]
  refine ⟨?_, hc'⟩
  show List.map _ (_ ++ _) = List.map _ (_ ++ _)
  rw [hmap, hts, hmap]

theorem close (hp : Parallel f g p p') (kind : NodeKind) (hs : f start = g start') :
    Parallel f g (Parser.close kind start p) (Parser.close kind start' p') := by
  intro c d hc
  obtain ⟨hts, hc'⟩ := hp c d hc
  refine ⟨?_, hc'⟩
  simp only [Parser.close, List.map_cons, List.map_nil, Tree.moved, Tree.movedAll_eq_map, hts,
    Span.moved, hs]

theorem node (hp : Parallel f g p p') (kind : NodeKind) :
    Parallel f g (Parser.node kind p) (Parser.node kind p') :=
  look fun _ _ hc => hp.close kind (congrArg Token.start (Cursor.next_eq hc))

theorem read {next next' : Nat → List Tree → Parser} (hp : Parallel f g p p')
    (h : ∀ start start' ts us, f start = g start' →
      ts.map (Tree.moved f) = us.map (Tree.moved g) →
      Parallel f g (next start ts) (next' start' us)) :
    Parallel f g (p.read next) (p'.read next') := by
  intro c d hc
  obtain ⟨hts, hc'⟩ := hp c d hc
  exact h _ _ _ _ (congrArg Token.start (Cursor.next_eq hc)) hts _ _ hc'

theorem isEmpty_eq (h : ts.map (Tree.moved f) = us.map (Tree.moved g)) :
    ts.isEmpty = us.isEmpty := by
  have hlength := congrArg List.length h
  rw [List.length_map, List.length_map] at hlength
  rw [Bool.eq_iff_iff, List.isEmpty_iff_length_eq_zero, List.isEmpty_iff_length_eq_zero, hlength]

theorem map_withSlot_eq (slot : Slot) (h : ts.map (Tree.moved f) = us.map (Tree.moved g)) :
    (ts.map (Tree.withSlot slot)).map (Tree.moved f) =
      (us.map (Tree.withSlot slot)).map (Tree.moved g) := by
  have hmap (f : ℕ ↪o ℕ) (ts : List Tree) : (ts.map (Tree.withSlot slot)).map (Tree.moved f) =
      (ts.map (Tree.moved f)).map (Tree.withSlot slot) := by
    rw [List.map_map, List.map_map]
    exact List.map_congr_left fun t _ => Tree.moved_withSlot f slot t
  rw [hmap, h, hmap]

theorem orSkip (hp : Parallel f g p p') (problem : Problem) :
    Parallel f g (p.orSkip problem) (p'.orSkip problem) := by
  refine hp.read fun _ _ ts us _ hts => ?_
  rw [isEmpty_eq hts]
  split
  · exact (report problem).append take
  · exact emit hts

/-! ## Repetition -/

/-- Both runs have the same number of turns. -/
theorem turns_induction
    {motive : (unread unread' : List Token) → unread.length = unread'.length → Prop}
    (nil : motive [] [] rfl)
    (cons : ∀ x unread y unread' (h : unread.length = unread'.length), motive unread unread' h →
      motive (x :: unread) (y :: unread') (congrArg Nat.succ h)) :
    ∀ unread unread' h, motive unread unread' h
  | [], [], _ => nil
  | x :: unread, y :: unread', h =>
    have h' := Nat.succ.inj h
    cons x unread y unread' h' (turns_induction nil cons unread unread' h')

theorem manyAtMost (hp : Parallel f g p p') {unread unread' : List Token}
    (hu : unread.length = unread'.length) :
    Parallel f g (Parser.manyAtMost test p unread) (Parser.manyAtMost test p' unread') := by
  induction unread, unread', hu using turns_induction with
  | nil => exact nothing
  | cons x unread y unread' hu ih => exact (hp.append ih).optional

theorem many (hp : Parallel f g p p') :
    Parallel f g (Parser.many test p) (Parser.many test p') :=
  look fun _ _ hc => hp.manyAtMost (Cursor.length_rest_eq hc)

theorem separatedAtMost (hp : Parallel f g p p') {unread unread' : List Token}
    (hu : unread.length = unread'.length) :
    Parallel f g (Parser.separatedAtMost test p unread)
      (Parser.separatedAtMost test p' unread') := by
  induction unread, unread', hu using turns_induction with
  | nil => exact nothing
  | cons x unread y unread' hu ih => exact (hp.append (take.append ih).optional).optional

theorem separated (hp : Parallel f g p p') :
    Parallel f g (Parser.separated test p) (Parser.separated test p') :=
  look fun _ _ hc => hp.separatedAtMost (congrArg Nat.succ (Cursor.length_rest_eq hc))

/-! ## Extension to the right -/

/-- Both runs go on alike. -/
inductive Extends (f g : ℕ ↪o ℕ) : Option Parser.Extension → Option Parser.Extension → Prop
  | none : Extends f g none none
  | some {kind slot rest rest'} : Parallel f g rest rest' →
      Extends f g (some ⟨kind, slot, rest⟩) (some ⟨kind, slot, rest'⟩)

theorem enlarge {rest rest' : Parser} (hr : Parallel f g rest rest') (kind : NodeKind)
    (slot : Slot) (hs : f start = g start')
    (hts : ts.map (Tree.moved f) = us.map (Tree.moved g)) :
    Parallel f g (Parser.enlarge ⟨kind, slot, rest⟩ start ts)
      (Parser.enlarge ⟨kind, slot, rest'⟩ start' us) :=
  ((emit (map_withSlot_eq slot hts)).append hr).close kind hs

theorem extend {rule rule' : Cursor → Option Parser.Extension}
    (hrule : ∀ c d : Cursor, c.moved f = d.moved g → Extends f g (rule c) (rule' d))
    (hs : f start = g start') {unread unread' : List Token} (hu : unread.length = unread'.length)
    (hts : ts.map (Tree.moved f) = us.map (Tree.moved g)) :
    Parallel f g (Parser.extend rule start unread ts) (Parser.extend rule' start' unread' us) := by
  induction unread, unread', hu using turns_induction generalizing ts us with
  | nil => exact emit hts
  | cons x unread y unread' hu ih =>
    refine look fun c d hc => ?_
    have hext := hrule c d hc
    generalize rule c = ext at hext
    generalize rule' d = ext' at hext
    cases hext with
    | none => exact emit hts
    | some hrest => exact (hrest.enlarge _ _ hs hts).read fun _ _ _ _ _ htree => ih htree

theorem extended {rule rule' : Cursor → Option Parser.Extension} (hp : Parallel f g p p')
    (hrule : ∀ c d : Cursor, c.moved f = d.moved g → Extends f g (rule c) (rule' d)) :
    Parallel f g (p.extended rule) (p'.extended rule') :=
  hp.read fun _ _ _ _ hs hts => look fun _ _ hc => extend hrule hs (Cursor.length_rest_eq hc) hts

end Parallel

end Caret
