import Caret.Proofs.ParallelGrammar
import Caret.Proofs.TokenBefore
import Mathlib.Data.List.Induction
/-!
# Texts of the same tokens

Two texts that are cut into the same tokens differ in their formatting only. The starts of their
tokens can be told on one scale (`exists_scales`), so the two are read in parallel, and their tables
match entry by entry but for the spans, where the order of the starts is the same (`Matches`).
-/

namespace Caret

/-! ## Scales -/

/-- A scale that goes on as before up to `n`, and is shifted from there on. -/
def shiftFrom (f : ℕ ↪o ℕ) (n shift : Nat) : ℕ ↪o ℕ :=
  OrderEmbedding.ofStrictMono (fun x => if x < n then f x else f x + shift) fun x y h => by
    have hf := f.strictMono h
    simp only
    split <;> split <;> omega

theorem shiftFrom_of_lt (f : ℕ ↪o ℕ) {n shift x : Nat} (h : x < n) : shiftFrom f n shift x = f x :=
  if_pos h

theorem shiftFrom_self (f : ℕ ↪o ℕ) (n shift : Nat) : shiftFrom f n shift n = f n + shift :=
  if_neg (Nat.lt_irrefl n)

/-- Numbers that ascend on both sides can be told on one scale. -/
theorem exists_scales {as bs : List Nat} (hlength : as.length = bs.length)
    (ha : as.Pairwise (· < ·)) (hb : bs.Pairwise (· < ·)) :
    ∃ f g : ℕ ↪o ℕ, as.map f = bs.map g := by
  induction as using List.reverseRecOn generalizing bs with
  | nil =>
    obtain rfl := List.length_eq_zero_iff.1 hlength.symm
    exact ⟨RelEmbedding.refl _, RelEmbedding.refl _, rfl⟩
  | append_singleton as a ih =>
    rcases List.eq_nil_or_concat bs with rfl | ⟨bs, b, rfl⟩
    · simp at hlength
    rw [List.concat_eq_append] at hlength hb ⊢
    obtain ⟨ha, -, hlast⟩ := List.pairwise_append.1 ha
    obtain ⟨hb, -, hlast'⟩ := List.pairwise_append.1 hb
    obtain ⟨f, g, hfg⟩ := ih (by simpa using hlength) ha hb
    -- both scales are stretched so that the last two meet
    refine ⟨shiftFrom f a (g b), shiftFrom g b (f a), ?_⟩
    have hmap (f : ℕ ↪o ℕ) (n shift : Nat) (cs : List Nat) (h : ∀ c ∈ cs, c < n) :
        cs.map (shiftFrom f n shift) = cs.map f :=
      List.map_congr_left fun c hc => shiftFrom_of_lt f (h c hc)
    rw [List.map_append, List.map_append, hmap f a _ as fun c hc => hlast c hc a (by simp),
      hmap g b _ bs fun c hc => hlast' c hc b (by simp), hfg, List.map_singleton,
      List.map_singleton, shiftFrom_self, shiftFrom_self, Nat.add_comm]

/-- The texts are cut into the same tokens. -/
def SameTokens (s t : List Char) : Prop :=
  (scan s).map (fun x => (x.kind, x.text)) = (scan t).map fun x => (x.kind, x.text)

instance (s t : List Char) : Decidable (SameTokens s t) := inferInstanceAs (Decidable (_ = _))

variable {s t : List Char} {f g : ℕ ↪o ℕ}

theorem map_moved_eq {xs ys : List Token}
    (h : xs.map (fun x => (x.kind, x.text)) = ys.map fun x => (x.kind, x.text))
    (hs : (xs.map (·.start)).map f = (ys.map (·.start)).map g) :
    xs.map (Token.moved f) = ys.map (Token.moved g) := by
  induction xs generalizing ys with
  | nil =>
    obtain rfl := List.map_eq_nil_iff.1 h.symm
    rfl
  | cons x xs ih =>
    cases ys with
    | nil => cases h
    | cons y ys =>
      simp only [List.map_cons, List.cons.injEq, Prod.mk.injEq] at h hs
      obtain ⟨⟨hkind, htext⟩, h⟩ := h
      rw [List.map_cons, List.map_cons, ih h hs.2, Token.moved, Token.moved, hkind, htext, hs.1]

theorem SameTokens.exists_scales (h : SameTokens s t) :
    ∃ f g : ℕ ↪o ℕ, (scan s).map (Token.moved f) = (scan t).map (Token.moved g) := by
  have hlength : ((scan s).map (·.start)).length = ((scan t).map (·.start)).length := by
    simpa using congrArg List.length h
  obtain ⟨f, g, hstarts⟩ := Caret.exists_scales hlength (List.pairwise_map.2 (scan_sorted s))
    (List.pairwise_map.2 (scan_sorted t))
  exact ⟨f, g, map_moved_eq h hstarts⟩

/-! ## Trees -/

section

variable (h : (scan s).map (Token.moved f) = (scan t).map (Token.moved g))

include h

theorem length_moved : f (byteLength s) = g (byteLength t) := by
  have hlast := congrArg List.getLast? h
  rw [List.getLast?_map, List.getLast?_map, scan_eq_concat s, scan_eq_concat t,
    List.getLast?_concat, List.getLast?_concat] at hlast
  exact congrArg Token.start (Option.some.inj hlast)

theorem startOf_moved : (Grammar.startOf s).moved f = (Grammar.startOf t).moved g := by
  unfold Grammar.startOf Cursor.moved
  simp only [List.map_dropLast, h, length_moved h]
  rfl

theorem root_moved : (SourceFile.ofText s).root.moved f = (SourceFile.ofText t).root.moved g := by
  have hstart := startOf_moved h
  obtain ⟨htrees, -⟩ := Grammar.parallel_declarations _ _ hstart
  have hnext : f (Grammar.startOf s).next.start = g (Grammar.startOf t).next.start :=
    congrArg Token.start (Cursor.next_eq hstart)
  have hend : f (Grammar.startOf s).length = g (Grammar.startOf t).length := length_moved h
  simp only [SourceFile.ofText, Tree.moved, Tree.movedAll_eq_map, List.map_append, htrees,
    Span.moved, hnext, List.map_cons, List.map_nil, Token.moved, Token.endOfFile, hend]

/-- The same problems are found at the same tokens. -/
theorem diagnostics_moved : (SourceFile.ofText s).diagnostics.map (Diagnostic.moved f) =
    (SourceFile.ofText t).diagnostics.map (Diagnostic.moved g) := by
  obtain ⟨-, hend⟩ := Grammar.parallel_declarations _ _ (startOf_moved h)
  have hdiagnostics := congrArg Cursor.diagnostics hend
  simp only [SourceFile.ofText, List.map_reverse]
  exact congrArg List.reverse hdiagnostics

end

/-! ## Tables -/

/-- The entry with its start on another scale. -/
def Entry.moved (f : Nat → Nat) (e : Entry) : Entry := { e with span := e.span.moved f }

namespace Tree

theorem kind_moved (f : Nat → Nat) (t : Tree) : (t.moved f).kind = t.kind := by
  cases t <;> rfl

theorem slot_moved (f : Nat → Nat) (t : Tree) : (t.moved f).slot = t.slot := by
  cases t <;> rfl

mutual

theorem size_moved (f : Nat → Nat) (t : Tree) : (t.moved f).size = t.size := by
  cases t with
  | leaf => rfl
  | node _ _ _ children => simp only [moved, size, sizes_movedAll f children]

theorem sizes_movedAll (f : Nat → Nat) (ts : List Tree) : sizes (movedAll f ts) = sizes ts := by
  cases ts with
  | nil => rfl
  | cons t ts => simp only [movedAll, sizes, size_moved f t, sizes_movedAll f ts]

end

theorem placed_movedAll (f : Nat → Nat) (base : Nat) (ts : List Tree) :
    placed base (movedAll f ts) = placed base ts := by
  induction ts generalizing base with
  | nil => rfl
  | cons t ts ih => simp only [movedAll, placed, slot_moved, kind_moved, size_moved, ih]

mutual

/-- The entries of a tree, on another scale, are those of the tree on that scale. -/
theorem entries_moved (f : Nat → Nat) (parent : Ref) (base : Nat) (t : Tree) :
    (t.entries parent base).map (Entry.moved f) =
      ((t.moved f).entries parent base).map (Entry.moved id) := by
  cases t with
  | leaf => rfl
  | node _ _ _ children =>
    simp only [moved, entries, List.map_append, entriesAll_moved f _ base children, placed_movedAll,
      sizes_movedAll]
    rfl

theorem entriesAll_moved (f : Nat → Nat) (parent : Ref) (base : Nat) (ts : List Tree) :
    (entriesAll parent base ts).map (Entry.moved f) =
      (entriesAll parent base (movedAll f ts)).map (Entry.moved id) := by
  cases ts with
  | nil => rfl
  | cons t ts =>
    simp only [movedAll, entriesAll, List.map_append, entries_moved f parent base t,
      entriesAll_moved f parent _ ts, size_moved]

end

end Tree

namespace NodeTable

/-- The tables differ in the spans of their entries only, and their starts can be told on one
scale. -/
structure Matches (f g : ℕ ↪o ℕ) (t u : NodeTable) : Prop where
  entries : t.entries.toList.map (Entry.moved f) = u.entries.toList.map (Entry.moved g)
  tokens : t.tokens = u.tokens
  root : t.root = u.root

theorem getElem?_matches {t u : NodeTable}
    (h : t.entries.toList.map (Entry.moved f) = u.entries.toList.map (Entry.moved g)) (i : Nat) :
    t.entries[i]?.map (Entry.moved f) = u.entries[i]?.map (Entry.moved g) := by
  have hi := congrArg (·[i]?) h
  simpa only [List.getElem?_map, Array.getElem?_toList] using hi

theorem size_matches {t u : NodeTable}
    (h : t.entries.toList.map (Entry.moved f) = u.entries.toList.map (Entry.moved g)) :
    t.size = u.size := by
  simpa [size] using congrArg List.length h

theorem matches_ofTree {a b : Tree} (h : a.moved f = b.moved g) :
    Matches f g (ofTree a) (ofTree b) := by
  have hentries : (ofTree a).entries.toList.map (Entry.moved f) =
      (ofTree b).entries.toList.map (Entry.moved g) := by
    rw [entries_ofTree, entries_ofTree, Tree.entries_moved, h, ← Tree.entries_moved]
  refine ⟨hentries, ?_, ?_⟩
  · have htoken (i : Nat) : ((ofTree a).entries[i]?).any Entry.isToken =
        ((ofTree b).entries[i]?).any Entry.isToken := by
      have hi := congrArg (Option.any Entry.isToken) (getElem?_matches hentries i)
      rw [Option.any_map, Option.any_map] at hi
      exact hi
    rw [tokens_eq_filter, tokens_eq_filter, size_matches hentries]
    simp only [htoken]
  · rw [root_ofTree, root_ofTree, ← Tree.size_moved f a, h, Tree.size_moved]

theorem matches_ofText {s t : List Char}
    (h : (scan s).map (Token.moved f) = (scan t).map (Token.moved g)) :
    Matches f g (ofText s) (ofText t) := by
  rw [ofText_eq, ofText_eq]
  exact matches_ofTree (root_moved h)

end NodeTable

end Caret
