import Caret.Builder.Basic
import Caret.Proofs.Planting
import Caret.Proofs.Reading
/-!
# Builders and parsers

A builder fills an arena and returns numbers; a parser yields trees. They do the same if the
builder leaves the arena as the steps would that make those trees (`Arena.plantAll`), and what it
returns is related to the children that the trees will be (`Tree.placed`). `Makes` says so of one
cursor and one arena, where some trees may have been planted before and are yielded again;
`Builds` says so of every arena and all cursors with a property.

What is returned is related to the children in three ways: it is the only child (`One`), it is the
last of several that fill no slot (`Last`), or it is what fills some slot (`Into`, `Gathers`). Data
are made of the last (`Fills`).
-/

namespace Caret

open Tree

/-! ## Cursors and states -/

/-- The cursor with the end of the file among the unread tokens. -/
def Cursor.withEnd (c : Cursor) : Cursor := { c with rest := c.rest ++ [.endOfFile c.length] }

/-- The state of a builder at a cursor. -/
def Cursor.state (c : Cursor) (a : Arena) : State := { c.withEnd with arena := a }

namespace Cursor

theorem peek_withEnd (c : Cursor) (n : Nat) : c.withEnd.peek n = c.peek n := by
  unfold peek withEnd
  by_cases hn : n < c.rest.length
  · rw [List.getElem?_append_left hn]
  · rw [List.getElem?_append_right (by omega), List.getElem?_eq_none (Nat.le_of_not_lt hn)]
    cases h : [Token.endOfFile c.length][n - c.rest.length]? with
    | none => rfl
    | some t =>
      rw [List.mem_singleton.1 (List.mem_of_getElem? h)]
      rfl

theorem next_withEnd (c : Cursor) : c.withEnd.next = c.next := by
  unfold next withEnd
  cases c.rest <;> rfl

theorem kind_withEnd (c : Cursor) : c.withEnd.kind = c.kind := by
  rw [kind, next_withEnd, kind]

theorem report_withEnd (c : Cursor) (problem : Problem) :
    c.withEnd.report problem = (c.report problem).withEnd := by
  simp only [report, next_withEnd]
  by_cases h : (c.diagnostics.head?.any fun last => last.span.start == c.next.start) = true
  · rw [if_pos h]
    exact if_pos h
  · rw [if_neg h]
    exact if_neg h

theorem length_rest_withEnd (c : Cursor) : c.withEnd.rest.length - 1 = c.rest.length := by
  simp [withEnd]

end Cursor

/-! ## Children -/

namespace Child

/-- The numbers of the children in a slot. -/
def numbers (cs : List Child) (s : Slot) : List Nat := (cs.filter (·.slot == s)).map (·.index)

theorem numbers_append (cs ds : List Child) (s : Slot) :
    numbers (cs ++ ds) s = numbers cs s ++ numbers ds s := by
  simp [numbers]

theorem inSlot_eq (cs : List Child) (s : Slot) : inSlot cs s = (numbers cs s).head? := by
  rw [inSlot, numbers, List.head?_map, List.head?_filter]

theorem listIn_eq (cs : List Child) (s : Slot) : listIn cs s = (numbers cs s).map some := by
  rw [listIn, numbers, List.map_map]
  rfl

theorem someIn_eq (cs : List Child) (s : Slot) :
    someIn cs s = Builder.someOf ((numbers cs s).map some) := by
  rw [someIn, listIn_eq]
  cases numbers cs s <;> rfl

end Child

/-- Numbers that fill one slot, and no other. -/
def Slot.only (s : Slot) (ns : List Nat) : Slot → List Nat := fun s' => if s' = s then ns else []

/-- The slots are filled as the function says; what fills no slot does not count. -/
def Fills (cs : List Child) (f : Slot → List Nat) : Prop :=
  ∀ s, s ≠ .loose → Child.numbers cs s = f s

/-- No child fills a slot. -/
def Idle (cs : List Child) : Prop := ∀ c ∈ cs, c.slot = .loose

/-- The only child is of a kind, and its number is returned. -/
def One (k : Kind) (cs : List Child) (r : Ref) : Prop := ∃ i, cs = [⟨.loose, k, i⟩] ∧ r = some i

/-- There is one child at most, and its number is returned. -/
def AtMostOne (cs : List Child) (r : Ref) : Prop := cs = [] ∧ r = none ∨ ∃ k, One k cs r

/-- No child fills a slot, and the number of the last one is returned. -/
def Last (cs : List Child) (r : Ref) : Prop := Idle cs ∧ r = cs.getLast?.map (·.index)

/-- The numbers of the children in a slot are returned, and no other slot is filled. -/
def Gathers (s : Slot) (cs : List Child) (refs : List Ref) : Prop :=
  ∃ ns, refs = ns.map some ∧ Fills cs (s.only ns)

/-- One child at most is in a slot, which is returned, and no other slot is filled. -/
def Into (s : Slot) (cs : List Child) (r : Ref) : Prop := Fills cs (s.only r.toList)

theorem Fills.append {cs ds : List Child} {f g : Slot → List Nat} (hc : Fills cs f)
    (hd : Fills ds g) : Fills (cs ++ ds) fun s => f s ++ g s := fun s hs => by
  rw [Child.numbers_append, hc s hs, hd s hs]

theorem Fills.inSlot {cs : List Child} {f : Slot → List Nat} (h : Fills cs f) {s : Slot}
    (hs : s ≠ .loose) : Child.inSlot cs s = (f s).head? := by
  rw [Child.inSlot_eq, h s hs]

theorem Fills.listIn {cs : List Child} {f : Slot → List Nat} (h : Fills cs f) {s : Slot}
    (hs : s ≠ .loose) : Child.listIn cs s = (f s).map some := by
  rw [Child.listIn_eq, h s hs]

theorem Fills.someIn {cs : List Child} {f : Slot → List Nat} (h : Fills cs f) {s : Slot}
    (hs : s ≠ .loose) : Child.someIn cs s = Builder.someOf ((f s).map some) := by
  rw [Child.someIn_eq, h s hs]

theorem Idle.append {cs ds : List Child} (hc : Idle cs) (hd : Idle ds) : Idle (cs ++ ds) :=
  fun c h => (List.mem_append.1 h).elim (hc c) (hd c)

theorem Idle.numbers {cs : List Child} (h : Idle cs) {s : Slot} (hs : s ≠ .loose) :
    Child.numbers cs s = [] := by
  rw [Child.numbers, List.filter_eq_nil_iff.2]
  · rfl
  · intro c hc
    simpa [h c hc] using hs.symm

theorem Idle.fills {cs : List Child} (h : Idle cs) : Fills cs fun _ => [] :=
  fun _ hs => h.numbers hs

theorem idle_nil : Idle [] := fun _ h => nomatch h

theorem AtMostOne.eq_none_iff {cs : List Child} {r : Ref} (h : AtMostOne cs r) :
    r = none ↔ cs = [] := by
  rcases h with ⟨rfl, rfl⟩ | ⟨k, i, rfl, rfl⟩
  · simp
  · simp

theorem One.atMostOne {k : Kind} {cs : List Child} {r : Ref} (h : One k cs r) : AtMostOne cs r :=
  .inr ⟨k, h⟩

theorem AtMostOne.last {cs : List Child} {r : Ref} (h : AtMostOne cs r) : Last cs r := by
  rcases h with ⟨rfl, rfl⟩ | ⟨k, i, rfl, rfl⟩
  · exact ⟨by simp [Idle], rfl⟩
  · exact ⟨by simp [Idle], rfl⟩

theorem One.last {k : Kind} {cs : List Child} {r : Ref} (h : One k cs r) : Last cs r :=
  h.atMostOne.last

theorem AtMostOne.idle {cs : List Child} {r : Ref} (h : AtMostOne cs r) : Idle cs := h.last.1

theorem One.idle {k : Kind} {cs : List Child} {r : Ref} (h : One k cs r) : Idle cs := h.last.1

theorem Idle.into_none {s : Slot} {cs : List Child} (h : Idle cs) : Into s cs none := fun s' hs => by
  rw [h.numbers hs, Slot.only]
  split <;> rfl

theorem Into.nil (s : Slot) : Into s [] none := idle_nil.into_none

theorem Fills.append_idle {cs ds : List Child} {f : Slot → List Nat} (hc : Fills cs f)
    (hd : Idle ds) : Fills (cs ++ ds) f := fun s hs => by
  rw [Child.numbers_append, hc s hs, hd.numbers hs, List.append_nil]

theorem Into.idle_append {s : Slot} {cs ds : List Child} {r : Ref} (hc : Idle cs)
    (hd : Into s ds r) : Into s (cs ++ ds) r := hc.fills.append hd

theorem Into.append_idle {s : Slot} {cs ds : List Child} {r : Ref} (hc : Into s cs r)
    (hd : Idle ds) : Into s (cs ++ ds) r := Fills.append_idle hc hd

theorem Gathers.nil (s : Slot) : Gathers s [] [] :=
  ⟨[], rfl, fun s' _ => by simp [Slot.only, Child.numbers]⟩

theorem Gathers.append {s : Slot} {cs ds : List Child} {xs ys : List Ref} (hc : Gathers s cs xs)
    (hd : Gathers s ds ys) : Gathers s (cs ++ ds) (xs ++ ys) := by
  obtain ⟨ns, rfl, hn⟩ := hc
  obtain ⟨ms, rfl, hm⟩ := hd
  refine ⟨ns ++ ms, (List.map_append ..).symm, fun s' hs => ?_⟩
  rw [Child.numbers_append, hn s' hs, hm s' hs]
  unfold Slot.only
  split <;> rfl

theorem Gathers.idle_append {s : Slot} {cs ds : List Child} {xs : List Ref} (hc : Idle cs)
    (hd : Gathers s ds xs) : Gathers s (cs ++ ds) xs := by
  obtain ⟨ns, rfl, hn⟩ := hd
  exact ⟨ns, rfl, hc.fills.append hn⟩

theorem Gathers.listIn {s : Slot} {cs : List Child} {xs : List Ref} (h : Gathers s cs xs)
    (hs : s ≠ .loose) : Child.listIn cs s = xs := by
  obtain ⟨ns, rfl, hn⟩ := h
  simp [hn.listIn hs, Slot.only]

theorem Into.gathers {s : Slot} {cs : List Child} {r : Ref} (h : Into s cs r) :
    Gathers s cs (r.map some).toList :=
  ⟨r.toList, by cases r <;> rfl, h⟩

theorem Gathers.append_idle {s : Slot} {cs ds : List Child} {xs : List Ref} (hc : Gathers s cs xs)
    (hd : Idle ds) : Gathers s (cs ++ ds) xs := by
  obtain ⟨ns, rfl, hn⟩ := hc
  exact ⟨ns, rfl, hn.append_idle hd⟩

namespace Tree

/-- With the last tree in a slot, that slot is filled by its number. -/
theorem into_lastInto {base : Nat} {ts : List Tree} {r : Ref} (h : Last (placed base ts) r)
    {s : Slot} (hs : s ≠ .loose) : Into s (placed base (lastInto s ts)) r := by
  obtain ⟨hidle, rfl⟩ := h
  rcases List.eq_nil_or_concat ts with rfl | ⟨us, u, rfl⟩
  · intro s' _
    simp [lastInto, placed, Child.numbers, Slot.only]
  · rw [List.concat_eq_append] at hidle ⊢
    rw [placed_append] at hidle
    rw [lastInto_concat, placed_append, placed_append, List.getLast?_append]
    intro s' hs'
    have hus : Idle (placed base us) := fun c hc => hidle c (List.mem_append_left _ hc)
    rw [Child.numbers_append, hus.numbers hs']
    by_cases h : s' = s
    · subst h
      simp [placed, Child.numbers, Slot.only]
    · simp [placed, Child.numbers, Slot.only, h, Ne.symm h]

theorem placed_eq_nil {base : Nat} {ts : List Tree} : placed base ts = [] ↔ ts = [] := by
  cases ts <;> simp [placed]

theorem lastInto_eq_nil {s : Slot} {ts : List Tree} : lastInto s ts = [] ↔ ts = [] := by
  have hbare := map_bare_lastInto s ts
  constructor
  · intro h
    rw [h] at hbare
    exact List.map_eq_nil_iff.1 hbare.symm
  · rintro rfl
    rfl

theorem idle_map_loose (base : Nat) (ts : List Tree) :
    Idle (placed base (ts.map (withSlot .loose))) := by
  induction ts generalizing base with
  | nil => exact idle_nil
  | cons t ts ih =>
    intro c hc
    rcases List.mem_cons.1 hc with rfl | hc
    · exact slot_withSlot _ _
    · exact ih _ c hc

theorem plantAll_lastInto (a : Arena) (s : Slot) (ts : List Tree) :
    a.plantAll (lastInto s ts) = a.plantAll ts := by
  rcases List.eq_nil_or_concat ts with rfl | ⟨us, u, rfl⟩
  · rfl
  · rw [List.concat_eq_append, lastInto_concat, Arena.plantAll_append, Arena.plantAll_append]
    simp [Arena.plantAll]

/-- A tree that stands alone fills the slot into which it is put. -/
theorem into_map_withSlot {base : Nat} {ts : List Tree} {r : Ref}
    (h : AtMostOne (placed base ts) r) {s : Slot} (hs : s ≠ .loose) :
    Into s (placed base (ts.map (withSlot s))) r := by
  have heq : ts.map (withSlot s) = lastInto s ts := by
    have hlength : ts.length ≤ 1 := by
      have hplaced : (placed base ts).length = ts.length := by
        rw [placed_eq none, List.length_map, ← congrArg List.length (map_tree_childSites none base ts),
          List.length_map]
      rcases h with ⟨hnil, -⟩ | ⟨k, i, hone, -⟩
      · simp [← hplaced, hnil]
      · simp [← hplaced, hone]
    match ts, hlength with
    | [], _ => rfl
    | [t], _ => rfl
  rw [heq]
  exact into_lastInto h.last hs

end Tree

namespace Builder

open Caret.Parser (At Any)

variable {α β : Type} {P Q : Cursor → Prop} {p q : Parser} {m : Builder α} {f : α → Builder β}
  {R R' : List Child → α → Prop} {S : List Child → β → Prop} {a : Arena} {c d : Cursor}
  {found : List Tree} {test : TokenKind → Bool} {s : Slot}

/-- Goes on in one of two ways: by whether no token was read since so many were left. -/
def sinceThen (before : Nat) (still moved : Builder α) : Builder α := fun s =>
  (if s.rest.length = before then still else moved) s

/-! ## The same steps -/

/-- At the cursor, with an arena where the trees `found` are planted from `a` on, the builder does
what the parser does, and what it returns is related to the children. -/
def Makes (a : Arena) (found : List Tree) (c : Cursor) (p : Parser) (m : Builder α)
    (R : List Child → α → Prop) : Prop :=
  (m (c.state (a.plantAll found))).2 = (p c).2.state (a.plantAll (p c).1) ∧
    R (placed a.size (p c).1) (m (c.state (a.plantAll found))).1

/-- From every cursor with the property the builder does what the parser does. -/
def Builds (P : Cursor → Prop) (p : Parser) (m : Builder α) (R : List Child → α → Prop) : Prop :=
  ∀ a c, P c → Makes a [] c p m R

namespace Makes

theorem weaken (h : Makes a found c p m R) (hR : ∀ cs x, R cs x → R' cs x) :
    Makes a found c p m R' := ⟨h.1, hR _ _ h.2⟩

theorem atMostOne {k : Kind} {m : Builder Ref} (h : Makes a found c p m (One k)) :
    Makes a found c p m AtMostOne := h.weaken fun _ _ h => h.atMostOne

theorem of_run {m' : Builder α}
    (hrun : m' (c.state (a.plantAll found)) = m (c.state (a.plantAll found)))
    (h : Makes a found c p m R) : Makes a found c p m' R := by
  unfold Makes
  rw [hrun]
  exact h

theorem run_bind {s s' : State} (h : (m s).2 = s') (f : α → Builder β) :
    (m >>= f) s = f (m s).1 s' := by
  rw [← h]
  rfl

theorem bind (h : Makes a found c p m R)
    (hf : ∀ x, R (placed a.size (p c).1) x → Makes (a.plantAll (p c).1) [] (p c).2 q (f x)
      fun ds y => S (placed a.size (p c).1 ++ ds) y) :
    Makes a found c (p ++ q) (m >>= f) S := by
  obtain ⟨hs, hr⟩ := h
  obtain ⟨hs', hr'⟩ := hf _ hr
  have hrun := run_bind hs f
  unfold Makes
  rw [hrun, Parser.append_apply]
  refine ⟨hs'.trans (by rw [Arena.plantAll_append]), ?_⟩
  rw [placed_append, ← Arena.size_plantAll]
  exact hr'

theorem append (h : Makes a found c p m R) (hQ : Q (p c).2)
    (hf : ∀ cs x, R cs x → Builds Q q (f x) fun ds y => S (cs ++ ds) y) :
    Makes a found c (p ++ q) (m >>= f) S := h.bind fun x hx => hf _ x hx _ _ hQ

/-- What is returned at last reads no more. -/
theorem map (h : Makes a found c p m R) {g : α → β} (hg : ∀ cs x, R cs x → S cs (g x)) :
    Makes a found c p (m >>= fun x => pure (g x)) S := ⟨h.1, hg _ _ h.2⟩

theorem emit {x : α} (h : R (placed a.size found) x) : Makes a found c (.emit found) (pure x) R :=
  ⟨rfl, h⟩

/-- Trees that are yielded again in other slots. -/
theorem emitAgain {x : α} {us : List Tree} (hu : a.plantAll us = a.plantAll found)
    (h : R (placed a.size us) x) : Makes a found c (.emit us) (pure x) R :=
  ⟨congrArg c.state hu.symm, h⟩

theorem look {choose : Cursor → Parser} {choose' : Cursor → Builder α}
    (h : Makes a found c (choose c) (choose' c.withEnd) R) :
    Makes a found c (.look choose) (Builder.look choose') R := h

theorem run_ifNext (test : TokenKind → Bool) (m n : Builder α) (c : Cursor) (a : Arena) :
    Builder.ifNext test m n (c.state a) = (if test c.kind then m else n) (c.state a) := by
  rw [← c.kind_withEnd]
  rfl

theorem ifNext {n : Builder α} (hp : test c.kind → Makes a found c p m R)
    (hq : test c.kind = false → Makes a found c q n R) :
    Makes a found c (.ifNext test p q) (Builder.ifNext test m n) R := by
  refine .of_run (run_ifNext test m n _ _) ?_
  unfold Makes
  by_cases h : test c.kind = true
  · rw [if_pos h, Parser.ifNext_pos h]
    exact hp h
  · rw [Bool.not_eq_true] at h
    rw [h, Parser.ifNext_neg h]
    exact hq h

/-- Going on after a choice. -/
theorem ifNext_bind {n : Builder α} (hp : test c.kind → Makes a found c p (m >>= f) S)
    (hq : test c.kind = false → Makes a found c q (n >>= f) S) :
    Makes a found c (.ifNext test p q) (Builder.ifNext test m n >>= f) S := by
  have hrun : (Builder.ifNext test m n >>= f) (c.state (a.plantAll found)) =
      Builder.ifNext test (m >>= f) (n >>= f) (c.state (a.plantAll found)) := by
    rw [run_ifNext]
    show f _ _ = _
    rw [run_ifNext]
    split <;> rfl
  exact .of_run hrun (ifNext hp hq)

/-- A problem that is reported before what follows. -/
theorem reportBefore {problem : Problem} (h : Makes a found (c.report problem) p m R) :
    Makes a found c (.report problem ++ p) (Builder.report problem >>= fun _ => m) R := by
  have hstate : (Builder.report problem (c.state (a.plantAll found))).2 =
      (c.report problem).state (a.plantAll found) :=
    congrArg (fun d : Cursor => ({ d with arena := a.plantAll found } : State))
      (c.report_withEnd problem)
  have hrun := run_bind hstate fun _ => m
  unfold Makes
  rw [hrun]
  exact h

theorem into {r : Builder Ref} (h : Makes a found c p r Last) (hs : s ≠ .loose) :
    Makes a found c (p.into s) r (Into s) :=
  ⟨h.1.trans (congrArg (Cursor.state _) (plantAll_lastInto a s _).symm), into_lastInto h.2 hs⟩

/-- A node that is closed where a parser closes one, from the place on where both began. -/
theorem close {k : NodeKind} {start : Nat} {parts : Builder Data}
    (h : Makes a found c p parts fun cs data => data = .ofChildren k cs) :
    Makes a found c (.close k start p) (Builder.close ⟨a.size, start⟩ k parts) (One (.node k)) := by
  obtain ⟨hs, hd⟩ := h
  have hrun : Builder.close ⟨a.size, start⟩ k parts (c.state (a.plantAll found)) =
      finish ⟨a.size, start⟩ k (.ofChildren k (placed a.size (p c).1))
        ((p c).2.state (a.plantAll (p c).1)) := by
    rw [← hs, ← hd]
    rfl
  unfold Makes
  rw [hrun]
  refine ⟨rfl, _, rfl, ?_⟩
  simp [finish, finishAt, Cursor.state, size, Tree.size, Arena.size_plantAll, ← Nat.add_assoc]

/-- What follows trees that are read and yielded again. -/
theorem emitAppend {us : List Tree} (h : Builds (· = c) q m R)
    (hu : a.plantAll us = a.plantAll found)
    (hR : ∀ cs x, R cs x → R' (placed a.size us ++ cs) x) :
    Makes a found c (.emit us ++ q) m R' := by
  obtain ⟨hs, hr⟩ := h (a.plantAll found) c rfl
  unfold Makes
  rw [Parser.append_apply, Parser.emit]
  refine ⟨hs.trans (by rw [Arena.plantAll_append, hu]), ?_⟩
  have hsize : (a.plantAll found).size = a.size + sizes us := by rw [← hu, Arena.size_plantAll]
  rw [placed_append, ← hsize]
  exact hR _ _ hr

/-- Going on from what was read, where the parser yields it again. -/
theorem read {next : Nat → List Tree → Parser} {start : Nat} (h : Makes a found c p m R)
    (hstart : c.next.start = start)
    (hf : ∀ us d x, p c = (us, d) → R (placed a.size us) x →
      Makes a us d (next start us) (f x) S) :
    Makes a found c (p.read next) (m >>= f) S := by
  obtain ⟨hs, hr⟩ := h
  obtain ⟨hs', hr'⟩ := hf _ _ _ rfl hr
  have hrun := run_bind hs f
  subst hstart
  unfold Makes
  rw [hrun]
  exact ⟨hs', hr'⟩

theorem still {n : Builder α} (hlength : c.rest.length = d.rest.length)
    (h : Makes a found c p m R) : Makes a found c p (sinceThen d.withEnd.rest.length m n) R :=
  .of_run (congrFun (if_pos (by simpa [Cursor.state, Cursor.withEnd] using hlength)) _) h

theorem moved {n : Builder α} (hlt : c.rest.length < d.rest.length)
    (h : Makes a found c p n R) : Makes a found c p (sinceThen d.withEnd.rest.length m n) R :=
  .of_run (congrFun (if_neg (by simpa [Cursor.state, Cursor.withEnd] using Nat.ne_of_lt hlt)) _) h

end Makes

namespace Builds

theorem mono (h : Builds P p m R) (hQ : ∀ c, Q c → P c) : Builds Q p m R :=
  fun a c hc => h a c (hQ c hc)

/-- A builder that is right anywhere is so under any condition. -/
theorem whenever (h : Builds Any p m R) : Builds P p m R := h.mono fun _ _ => trivial

theorem weaken (h : Builds P p m R) (hR : ∀ cs x, R cs x → R' cs x) : Builds P p m R' :=
  fun a c hc => (h a c hc).weaken hR

theorem atMostOne {k : Kind} {m : Builder Ref} (h : Builds P p m (One k)) :
    Builds P p m AtMostOne := h.weaken fun _ _ h => h.atMostOne

theorem last {m : Builder Ref} (h : Builds P p m AtMostOne) : Builds P p m Last :=
  h.weaken fun _ _ h => h.last

theorem nothing {x : α} (h : R [] x) : Builds P .nothing (pure x) R := fun _ _ _ => .emit h

theorem appendWhen (h : Builds P p m R) (hQ : ∀ c, P c → Q (p c).2)
    (hf : ∀ cs x, R cs x → Builds Q q (f x) fun ds y => S (cs ++ ds) y) :
    Builds P (p ++ q) (m >>= f) S := fun a c hc => (h a c hc).append (hQ c hc) hf

theorem appendKept {b : Pattern} (h : Builds P p m R) (hp : Parser.Yields P p b)
    (hP : Parser.Kept P) (hf : ∀ cs x, R cs x → Builds P q (f x) fun ds y => S (cs ++ ds) y) :
    Builds P (p ++ q) (m >>= f) S := h.appendWhen (fun c hc => hP hc (hp c hc).1) hf

theorem append (h : Builds P p m R)
    (hf : ∀ cs x, R cs x → Builds Any q (f x) fun ds y => S (cs ++ ds) y) :
    Builds P (p ++ q) (m >>= f) S := h.appendWhen (fun _ _ => trivial) hf

theorem map (h : Builds P p m R) {g : α → β} (hg : ∀ cs x, R cs x → S cs (g x)) :
    Builds P p (m >>= fun x => pure (g x)) S := fun a c hc => (h a c hc).map hg

theorem look {choose : Cursor → Parser} {choose' : Cursor → Builder α}
    (h : ∀ c, P c → Builds (· = c) (choose c) (choose' c.withEnd) R) :
    Builds P (.look choose) (Builder.look choose') R := fun a c hc => .look (h c hc a c rfl)

theorem ifNext {n : Builder α} (hp : Builds (fun c => P c ∧ At test c) p m R)
    (hq : Builds (fun c => P c ∧ test c.kind = false) q n R) :
    Builds P (.ifNext test p q) (Builder.ifNext test m n) R :=
  fun a c hc => .ifNext (fun h => hp a c ⟨hc, h⟩) fun h => hq a c ⟨hc, h⟩

theorem into {r : Builder Ref} (h : Builds P p r Last) (hs : s ≠ .loose) :
    Builds P (p.into s) r (Into s) := fun a c hc => (h a c hc).into hs

theorem report (problem : Problem) :
    Builds P (.report problem) (Builder.report problem) fun cs _ => cs = [] := by
  intro a c _
  exact ⟨congrArg (fun d : Cursor => ({ d with arena := a } : State)) (c.report_withEnd problem), rfl⟩

theorem missing (problem : Problem) :
    Builds P (.report problem) (Builder.missing problem) AtMostOne :=
  (report problem).map fun _ _ h => .inl ⟨h, rfl⟩

/-- Where the end of the file is not next, the next token is read. -/
theorem take (hP : ∀ c, P c → c.kind ≠ .endOfFile ∧ test c.kind) :
    Builds P .take Builder.token fun cs r => ∃ k, test k ∧ One (.token k) cs r := by
  intro a c hc
  obtain ⟨hend, htest⟩ := hP c hc
  obtain ⟨rest, hr⟩ := Parser.exists_rest hend
  have hparser : Parser.take c =
      ([.leaf .loose c.next], { c with rest, readEnd := c.next.stop }) := by
    simp only [Parser.take, hr]
  have hbuilder : Builder.token (c.state a) = (some a.size,
      { c with rest, readEnd := c.next.stop : Cursor }.state (a.plant (.leaf .loose c.next))) := by
    have hnext : ¬c.next.kind = .endOfFile := hend
    simp only [Builder.token, Cursor.state, Cursor.withEnd, hr, List.cons_append, if_neg hnext,
      Arena.plant]
  exact ⟨by rw [hparser]; exact congrArg Prod.snd hbuilder,
    c.kind, htest, a.size, by rw [hparser]; rfl, congrArg Prod.fst hbuilder⟩

theorem takeAny :
    Builds (fun c => c.kind ≠ .endOfFile) .take Builder.token fun cs _ => Idle cs :=
  (@take _ (· != .endOfFile) fun _ h => ⟨h, by simpa using h⟩).weaken fun _ _ ⟨_, _, h⟩ => h.idle

/-- A token that is looked at before it is read. -/
theorem takeAt (he : test .endOfFile = false) :
    Builds (At test) .take Builder.token fun cs r => ∃ k, test k ∧ One (.token k) cs r :=
  take fun _ hc => ⟨fun e => by simp [At, e, he] at hc, hc⟩

theorem expect {k : TokenKind} (hk : k ≠ .endOfFile) :
    Builds P (.expect k) (Builder.expect k) AtMostOne := by
  refine ifNext ?_ (missing _)
  refine ((takeAt (by simpa using hk.symm)).mono fun _ h => h.2).weaken ?_
  exact fun _ _ ⟨_, _, h⟩ => h.atMostOne

theorem takeKind {k : TokenKind} (hk : k ≠ .endOfFile) :
    Builds (At (· == k)) .take Builder.token (One (.token k)) :=
  (takeAt (by simpa using hk.symm)).weaken fun _ _ ⟨_, hl, h⟩ => by rwa [eq_of_beq hl] at h

theorem into_one {r : Builder Ref} {k : Kind} (h : Builds P p r (One k)) (hs : s ≠ .loose) :
    Builds P (p.into s) r (Into s) := (h.weaken fun _ _ h => h.last).into hs

theorem into_opt {r : Builder Ref} (h : Builds P p r AtMostOne) (hs : s ≠ .loose) :
    Builds P (p.into s) r (Into s) := (h.weaken fun _ _ h => h.last).into hs

theorem takeInto (he : test .endOfFile = false) (hs : s ≠ .loose) :
    Builds (At test) (Parser.take.into s) Builder.token (Into s) :=
  ((takeAt he).weaken fun _ _ ⟨_, _, h⟩ => h.last).into hs

/-- The first of two tokens that are looked at before they are read. -/
theorem takeFirst {k l : TokenKind} (hk : k ≠ .endOfFile) {f : Ref → Builder α}
    (hc : c.peek 0 = k ∧ c.peek 1 = l)
    (hf : ∀ cs r, One (.token k) cs r →
      Builds (At (· == l)) p (f r) fun ds x => R (cs ++ ds) x) :
    Builds (· = c) (.take ++ p) (Builder.token >>= f) R := by
  refine ((takeKind hk).mono ?_).appendWhen (Q := At (· == l)) ?_ hf
  · rintro _ rfl
    simp [At, ← Parser.peek_zero, hc.1]
  · rintro _ rfl
    simp [At, Parser.kind_take, hc.2]

/-! ## Parts that may be missing -/

/-- A token that is passed over where there is one. -/
theorem pass (he : test .endOfFile = false) : Builds P (.ifNext test .take .nothing)
    (Builder.ifNext test Builder.token (pure none)) fun cs _ => Idle cs :=
  ifNext (((takeAt he).mono fun _ h => h.2).weaken fun _ _ ⟨_, _, h⟩ => h.idle)
    (nothing idle_nil)

/-- A part that is only there where the next token tells. -/
theorem optional {r : Builder Ref} (h : Builds (At test) p r (Into s)) :
    Builds P (.ifNext test p .nothing) (Builder.ifNext test r (pure none)) (Into s) :=
  ifNext (h.mono fun _ hc => hc.2) (nothing (.nil s))

/-- A part that is reported where the next token does not start it. -/
theorem orMissing {r : Builder Ref} (h : Builds (At test) p r (Into s)) (problem : Problem) :
    Builds P (.ifNext test p (.report problem))
      (Builder.ifNext test r (Builder.missing problem)) (Into s) := by
  refine ifNext (h.mono fun _ hc => hc.2) ((report problem).map ?_)
  rintro _ _ rfl
  exact .nil s

/-- A part that is left out where the next token ends what it stands in. -/
theorem unlessNext {x : α} (h : Builds Any p m R) (hx : R [] x) :
    Builds P (.ifNext test .nothing p) (Builder.ifNext test (pure x) m) R :=
  ifNext (nothing hx) h.whenever

/-! ## Nodes -/

omit R P in
theorem run_start (f : Marker → Builder α) (c : Cursor) (a : Arena) :
    (start >>= f) (c.state a) = f ⟨a.size, c.next.start⟩ (c.state a) := by
  rw [← c.next_withEnd]
  rfl

theorem read {next : Nat → List Tree → Parser} {rest : Marker → α → Builder β}
    (h : Builds P p m R)
    (hf : ∀ a c us d x, P c → p c = (us, d) → R (placed a.size us) x →
      Makes a us d (next c.next.start us) (rest ⟨a.size, c.next.start⟩ x) S) :
    Builds P (p.read next) (start >>= fun mk => m >>= rest mk) S := by
  intro a c hc
  exact .of_run (run_start _ _ _) ((h a c hc).read rfl fun us d x hp hr => hf a c us d x hc hp hr)

theorem node {k : NodeKind} {parts : Builder Data}
    (h : Builds P p parts fun cs data => data = .ofChildren k cs) :
    Builds P (.node k p) (Builder.node k parts) (One (.node k)) := by
  intro a c hc
  exact .of_run (run_start _ _ _) (h a c hc).close

/-! ## Repetition -/

theorem listed {r : Builder Ref} (h : Builds P p r fun cs r => ∃ k, One k cs r) (hs : s ≠ .loose) :
    Builds P (p.into s) (listed r) (Gathers s) := by
  intro a c hc
  obtain ⟨k, i, -, hr⟩ := (h a c hc).2
  obtain ⟨hstate, hfills⟩ := (h.weaken fun _ _ ⟨_, h⟩ => h.last).into hs a c hc
  rw [hr] at hfills
  exact ⟨hstate, [i], congrArg ([·]) hr, hfills⟩

theorem kept {r : Builder Ref} (h : Builds P p r Last) (hs : s ≠ .loose) :
    Builds P (p.into s) (kept r) (Gathers s) := (h.into hs).map fun _ _ hr => hr.gathers

theorem many {turn : Builder (List Ref)} {b : Pattern} (hP : Parser.Kept P)
    (hp : Parser.Yields (fun c => P c ∧ At test c) p b)
    (h : Builds (fun c => P c ∧ At test c) p turn (Gathers s)) :
    Builds P (.many test p) (Builder.many test turn) (Gathers s) := by
  suffices hmost : ∀ unread : List Token, Builds P (Parser.manyAtMost test p unread)
      (Builder.manyAtMost test turn unread.length) (Gathers s) by
    refine look fun c hc => ?_
    rw [c.length_rest_withEnd]
    exact (hmost c.rest).mono (by rintro _ rfl; exact hc)
  intro unread
  induction unread with
  | nil => exact nothing (.nil s)
  | cons t unread ih =>
    refine ifNext (h.appendWhen (fun c hc => hP hc.1 (hp c hc).1) fun cs xs hx => ?_)
      (nothing (.nil s))
    exact ih.map fun ds ys hy => hx.append hy

theorem manyAt {turn : Builder (List Ref)} {b : Pattern} (hp : Parser.Yields (At test) p b)
    (h : Builds (At test) p turn (Gathers s)) :
    Builds P (.many test p) (Builder.many test turn) (Gathers s) :=
  (many Parser.kept_any (hp.mono fun _ h => h.2) (h.mono fun _ h => h.2)).whenever

theorem separated {turn : Builder (List Ref)} (h : Builds (At test) p turn (Gathers s)) :
    Builds P (.separated test p) (Builder.separated test turn) (Gathers s) := by
  suffices hmost : ∀ unread : List Token, Builds Any (Parser.separatedAtMost test p unread)
      (Builder.separatedAtMost test turn unread.length) (Gathers s) by
    refine look fun c _ => ?_
    have hlength : c.withEnd.rest.length = (c.next :: c.rest).length := by simp [Cursor.withEnd]
    rw [hlength]
    exact (hmost (c.next :: c.rest)).whenever
  intro unread
  induction unread with
  | nil => exact nothing (.nil s)
  | cons t unread ih =>
    refine ifNext ((h.mono fun _ hc => hc.2).append fun cs xs hx => ?_) (nothing (.nil s))
    refine map (R := Gathers s) (ifNext ?_ (nothing (.nil s))) fun ds ys hy => hx.append hy
    refine ((takeAt rfl).mono fun _ hc => hc.2).append fun ds r ⟨_, _, hr⟩ => ?_
    exact ih.weaken fun es ys hy => .idle_append hr.idle hy

/-- Passing over a token that is not the end of the file. -/
theorem skip (problem : Problem) : Builds (fun c => c.kind ≠ .endOfFile)
    (.report problem ++ .take) (Builder.skip problem) fun cs _ => Idle cs := by
  refine (report problem).appendWhen (Q := fun c => c.kind ≠ .endOfFile) (fun c hc => ?_) ?_
  · rwa [Parser.report, Cursor.kind_congr (Reads.rest_report c problem)]
  · rintro _ _ rfl
    refine map (R := fun cs _ => Idle cs) (fun a c hc => ?_) fun _ _ h => h
    refine .of_run (Makes.run_ifNext _ _ _ _ _) ?_
    rw [if_neg (by simpa using hc)]
    exact takeAny a c hc

/-- A part in whose place one token may be passed over. That the parser yields nothing is the same
as that no token is read. -/
theorem orSkip {r : Builder Ref} {b : Pattern} (hs : s ≠ .loose)
    (hp : Parser.Yields P p (Pattern.opt b)) (hb : b.beyond (.node .variableDeclarator))
    (hP : ∀ c, P c → c.kind ≠ .endOfFile) (h : Builds P p r Last) (problem : Problem) :
    Builds P ((p.into s).orSkip problem) (Builder.orSkip r problem) (Gathers s) := by
  intro a c hc
  obtain ⟨hreads, hcovers⟩ := hp c hc
  have hrun : Builder.orSkip r problem (c.state a) = (Builder.kept r >>= fun found =>
      sinceThen c.withEnd.rest.length (Builder.skip problem >>= fun _ => pure found)
        (pure found)) (c.state a) := rfl
  refine .of_run hrun ((h.kept hs a c hc).read rfl fun us d xs hread hxs => ?_)
  have hinto : p.into s c = (lastInto s (p c).1, (p c).2) := rfl
  obtain ⟨hus, rfl⟩ := Prod.mk.inj (hread.symm.trans hinto)
  by_cases hnil : (p c).1 = []
  · have hrest : (p c).2.rest = c.rest := by simpa [hnil, tokensAll] using hreads.tokens
    have hkind : (p c).2.kind ≠ .endOfFile := by
      rw [Cursor.kind_congr hrest]
      exact hP c hc
    obtain rfl : us = [] := by rw [hus, hnil]; rfl
    refine .still (by rw [hrest]) ?_
    exact (skip problem).map (fun _ _ hcs => hxs.append_idle hcs) a _ hkind
  · have hcovers' : b.Covers (p c).1 := (Pattern.covers_opt.1 hcovers).resolve_right hnil
    have hne : us.isEmpty = false := by
      rw [List.isEmpty_eq_false_iff, hus]
      exact fun h => hnil (lastInto_eq_nil.1 h)
    refine .moved (hreads.rest_lt hcovers' hb) ?_
    rw [if_neg (by simp [hne])]
    exact .emit hxs

end Builds

/-! ## Extension to the right -/

/-- A tree goes on in the same way, or not at all. -/
inductive Matches (d : Cursor) : Option Parser.Extension → Option Extension → Prop
  | none : Matches d none none
  | some {kind : NodeKind} {slot : Slot} {rest : Parser} {parts : Ref → Builder Data} :
      slot ≠ .loose →
      (∀ cs left, Into slot cs left → Builds (· = d) rest (parts left) fun ds data =>
        data = .ofChildren kind (cs ++ ds)) →
      Matches d (some ⟨kind, slot, rest⟩) (some ⟨kind, parts⟩)

/-- Both rules say the same of how a tree goes on. -/
def Agree (rule : Cursor → Option Parser.Extension) (rule' : Cursor → Option Extension) : Prop :=
  ∀ d, Matches d (rule d) (rule' d.withEnd)

theorem Makes.enlarge {kind : NodeKind} {rest : Parser} {parts : Ref → Builder Data} {start : Nat}
    {left : List Tree} {r : Ref} (hs : s ≠ .loose)
    (hparts : ∀ cs, Into s cs r → Builds (· = d) rest (parts r) fun ds data =>
      data = .ofChildren kind (cs ++ ds))
    (hr : AtMostOne (placed a.size left) r) :
    Makes a left d (.enlarge ⟨kind, s, rest⟩ start left)
      (Builder.close ⟨a.size, start⟩ kind (parts r)) (One (.node kind)) :=
  .close (.emitAppend (hparts _ (into_map_withSlot hr hs)) (Arena.plantAll_map_withSlot a _ _)
    fun _ _ h => h)

theorem Makes.extend {rule : Cursor → Option Parser.Extension} {rule' : Cursor → Option Extension}
    (h : Agree rule rule') {start : Nat} (unread : List Token) {left : List Tree} {r : Ref}
    (hr : AtMostOne (placed a.size left) r) :
    Makes a left d (.extend rule start unread left)
      (Builder.extend rule' ⟨a.size, start⟩ unread.length r) AtMostOne := by
  induction unread generalizing d left r with
  | nil => exact .emit hr
  | cons t unread ih =>
    refine .look ?_
    have hd := h d
    generalize rule d = ext at hd
    generalize rule' d.withEnd = ext' at hd
    cases hd with
    | none => exact .emit hr
    | @some kind slot rest parts hslot hparts =>
      exact (Makes.enlarge hslot (fun cs h => hparts cs r h) hr).read rfl fun us e x _ hx => ih hx.atMostOne

theorem Builds.extended {r : Builder Ref} {rule : Cursor → Option Parser.Extension}
    {rule' : Cursor → Option Extension} (h : Builds P p r AtMostOne) (hrule : Agree rule rule') :
    Builds P (p.extended rule)
      (start >>= fun mk => r >>= fun left =>
        Builder.look fun c => Builder.extend rule' mk (c.rest.length - 1) left) AtMostOne := by
  refine h.read fun a c us d x _ _ hx => .look ?_
  rw [d.length_rest_withEnd]
  exact .extend hrule d.rest hx

end Builder

end Caret
