import Caret.Proofs.Reading
/-!
# What holds at every node

A property of nodes may be about the children of a node and the kind of the token behind it.
`Throughout R next t` says that all nodes of a tree have the property, where a token of the kind
`next` follows the tree. The token that is next when a parser closes a node is the one behind the
node (`Reads.kind_eq`), so properties that parsers see to can be put together from tree to tree.
-/

namespace Caret

open Tree

/-- The kind of the first of some tokens, or of what follows them. -/
def kindAfter (ts : List Token) (next : TokenKind) : TokenKind := (ts.head?.map (·.kind)).getD next

theorem kindAfter_append (ts us : List Token) (next : TokenKind) :
    kindAfter (ts ++ us) next = kindAfter ts (kindAfter us next) := by
  cases ts <;> rfl

theorem Reads.kind_eq {c d : Cursor} {ts : List Tree} (h : Reads c ts d) :
    c.kind = kindAfter (tokensAll ts) d.kind := by
  have htokens := h.tokens
  cases hts : tokensAll ts with
  | nil =>
    rw [hts] at htokens
    exact Cursor.kind_congr htokens.symm
  | cons t us =>
    rw [hts] at htokens
    unfold Cursor.kind Cursor.next
    rw [← htokens]
    rfl

/-- All nodes of the tree have the property `R` of their kind, their children and the kind of the
token behind them, where a token of the kind `next` follows the tree. -/
inductive Throughout (R : NodeKind → List Tree → TokenKind → Prop) : TokenKind → Tree → Prop
  | leaf {next} (s t) : Throughout R next (.leaf s t)
  | node {next s k span ts} : R k ts next →
      (∀ before u after, ts = before ++ u :: after →
        Throughout R (kindAfter (tokensAll after) next) u) →
      Throughout R next (.node s k span ts)

/-- So it is for the trees of a forest. -/
def ThroughoutAll (R : NodeKind → List Tree → TokenKind → Prop) (next : TokenKind)
    (ts : List Tree) : Prop :=
  ∀ before u after, ts = before ++ u :: after → Throughout R (kindAfter (tokensAll after) next) u

variable {R : NodeKind → List Tree → TokenKind → Prop} {next : TokenKind} {ts us : List Tree}

theorem Throughout.withSlot {t : Tree} (h : Throughout R next t) (s : Slot) :
    Throughout R next (t.withSlot s) := by
  cases h with
  | leaf => exact .leaf _ _
  | node hk hu => exact .node hk hu

theorem throughout_bare {t : Tree} : Throughout R next t.bare ↔ Throughout R next t :=
  ⟨fun h => by cases t <;> exact h.withSlot _, fun h => h.withSlot _⟩

/-- Each tree of a forest has the property, with the kind of the token behind it. -/
def Along (S : TokenKind → Tree → Prop) (next : TokenKind) (ts : List Tree) : Prop :=
  ∀ before u after, ts = before ++ u :: after → S (kindAfter (tokensAll after) next) u

namespace Along

variable {S S' : TokenKind → Tree → Prop}

theorem nil : Along S next [] := fun before u after h => by simp at h

theorem single {t : Tree} (h : S next t) : Along S next [t] := by
  intro before u after he
  cases before with
  | nil =>
    obtain ⟨rfl, rfl⟩ := List.cons.inj he
    exact h
  | cons => simp at he

theorem append (h : Along S (kindAfter (tokensAll us) next) ts) (h' : Along S next us) :
    Along S next (ts ++ us) := by
  intro before u after he
  rcases List.append_eq_append_iff.1 he with ⟨vs, rfl, rfl⟩ | ⟨vs, rfl, hu⟩
  · exact h' vs u after rfl
  · cases vs with
    | nil => exact h' [] u after hu.symm
    | cons v vs =>
      obtain ⟨rfl, hafter⟩ := List.cons.inj hu
      have hafter : after = vs ++ us := hafter
      rw [hafter, tokensAll_append, kindAfter_append]
      exact h before u vs rfl

theorem mono (h : Along S next ts) (hS : ∀ next t, S next t → S' next t) : Along S' next ts :=
  fun before u after he => hS _ _ (h before u after he)

/-- A property that does not hang on what is behind a tree. -/
theorem of_forall (h : ∀ next, ∀ t ∈ ts, S next t) : Along S next ts := by
  rintro before u after rfl
  exact h _ u (by simp)

end Along

namespace ThroughoutAll

theorem nil : ThroughoutAll R next [] := Along.nil

theorem single {t : Tree} (h : Throughout R next t) : ThroughoutAll R next [t] := Along.single h

theorem append (h : ThroughoutAll R (kindAfter (tokensAll us) next) ts)
    (h' : ThroughoutAll R next us) : ThroughoutAll R next (ts ++ us) := Along.append h h'

theorem relabel (h : ThroughoutAll R next ts) (hr : us.map bare = ts.map bare) :
    ThroughoutAll R next us := by
  rintro before u after rfl
  rw [List.map_append, List.map_cons, eq_comm, List.map_eq_append_iff] at hr
  obtain ⟨before', rest, rfl, -, hrest⟩ := hr
  obtain ⟨u', after', rfl, hu, hafter⟩ := List.map_eq_cons_iff.1 hrest
  have hu' := h before' u' after' rfl
  rw [← tokensAll_map_bare, hafter, tokensAll_map_bare] at hu'
  exact throughout_bare.1 (hu ▸ throughout_bare.2 hu')

/-- Tokens have the property for want of nodes. -/
theorem of_tokens {a : Pattern} (h : a.Covers ts) (ha : a.onlyNodes fun _ => false) :
    ThroughoutAll R next ts := by
  rintro before u after rfl
  cases u with
  | leaf s t => exact .leaf s t
  | node s k span us =>
    have hk := h.allows (.node s k span us) (by simp)
    exact absurd (Pattern.of_allows_node ha hk) (by simp)

end ThroughoutAll

end Caret
