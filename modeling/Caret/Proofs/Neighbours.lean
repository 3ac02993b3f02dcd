import Caret.Proofs.CleanText
import Mathlib.Data.List.Chain
/-!
# Trees next to each other

From a pattern can be computed whether every forest of it has a tree (`filled`), what its first and
its last tree are (`starts`, `ends`), and what stands right before certain trees (`follows`). The
last child of a node tells which tokens the node may end with if nothing is missing from it
(`Tree.exists_last`).
-/

namespace Caret

open Tree

namespace Pattern

variable {a b : Pattern} {ts us : List Tree} {p q : Slot → Kind → Bool}

/-- Every forest has a tree. -/
def filled : Pattern → Bool
  | empty | many _ => false
  | one _ _ | nonempty _ => true
  | seq a b => a.filled || b.filled
  | alt a b => a.filled && b.filled

/-- The first tree, if there is one, passes the test. -/
def starts (p : Slot → Kind → Bool) : Pattern → Bool
  | empty => true
  | one s test => Kind.ofTrees.all fun k => !test k || p s k
  | seq a b => a.starts p && (a.filled || b.starts p)
  | alt a b => a.starts p && b.starts p
  | many a | nonempty a => a.starts p

/-- The last tree, if there is one, passes the test. -/
def ends (p : Slot → Kind → Bool) : Pattern → Bool
  | empty => true
  | one s test => Kind.ofTrees.all fun k => !test k || p s k
  | seq a b => (b.filled || a.ends p) && b.ends p
  | alt a b => a.ends p && b.ends p
  | many a | nonempty a => a.ends p

/-- A tree that passes the second test stands right behind one that passes the first, unless it is
the first tree. -/
def follows (p q : Slot → Kind → Bool) : Pattern → Bool
  | empty | one _ _ => true
  | seq a b => a.follows p q && b.follows p q && (a.ends p || b.starts fun s k => !q s k)
  | alt a b => a.follows p q && b.follows p q
  | many a => a.follows p q && (a.ends p || a.starts fun s k => !q s k)
  | nonempty a => a.follows p q

theorem Covers.ne_nil (h : Covers a ts) (hf : a.filled) : ts ≠ [] := by
  induction h with
  | empty | nil | cons => cases hf
  | one => simp
  | seq _ _ iha ihb =>
    rcases Bool.or_eq_true_iff.1 hf with hf | hf
    · exact List.append_ne_nil_of_left_ne_nil (iha hf) _
    · exact List.append_ne_nil_of_right_ne_nil _ (ihb hf)
  | left _ ih => exact ih (Bool.and_eq_true_iff.1 hf).1
  | right _ ih => exact ih (Bool.and_eq_true_iff.1 hf).2
  | nonempty _ hne _ => exact hne

theorem of_all_kinds {s : Slot} {test : Kind → Bool} {t : Tree}
    (h : (Kind.ofTrees.all fun k => !test k || p s k) = true) (hs : t.slot = s)
    (ht : test t.kind) : p t.slot t.kind := by
  have hk := List.all_eq_true.1 h t.kind t.kind_mem
  simpa [ht, hs] using hk

theorem Covers.starts (h : Covers a ts) (hp : a.starts p) :
    ∀ t ∈ ts.head?, p t.slot t.kind := by
  induction h with
  | empty | nil => simp
  | one hs ht =>
    rintro _ ⟨⟩
    exact of_all_kinds hp hs ht
  | @seq a b ts us ha _ iha ihb =>
    simp only [Pattern.starts, Bool.and_eq_true, Bool.or_eq_true] at hp
    cases ts with
    | nil => exact ihb (hp.2.resolve_left fun hf => ha.ne_nil hf rfl)
    | cons => exact iha hp.1
  | left _ ih => exact ih (Bool.and_eq_true_iff.1 hp).1
  | right _ ih => exact ih (Bool.and_eq_true_iff.1 hp).2
  | @cons a ts us _ _ iha ihm =>
    cases ts with
    | nil => exact ihm hp
    | cons => exact iha hp
  | nonempty _ _ ih => exact ih hp

theorem Covers.ends (h : Covers a ts) (hp : a.ends p) :
    ∀ t ∈ ts.getLast?, p t.slot t.kind := by
  induction h with
  | empty | nil => simp
  | one hs ht =>
    rintro _ ⟨⟩
    exact of_all_kinds hp hs ht
  | @seq a b ts us _ hb iha ihb =>
    simp only [Pattern.ends, Bool.and_eq_true, Bool.or_eq_true] at hp
    rw [List.getLast?_append]
    cases us with
    | nil => exact iha (hp.1.resolve_left fun hf => hb.ne_nil hf rfl)
    | cons => simpa using ihb hp.2
  | left _ ih => exact ih (Bool.and_eq_true_iff.1 hp).1
  | right _ ih => exact ih (Bool.and_eq_true_iff.1 hp).2
  | @cons a ts us _ _ iha ihm =>
    rw [List.getLast?_append]
    cases us with
    | nil => exact iha hp
    | cons => simpa using ihm hp
  | nonempty _ _ ih => exact ih hp

theorem Covers.follows (h : Covers a ts) (hf : a.follows p q) :
    ts.IsChain fun t u => q u.slot u.kind → p t.slot t.kind := by
  have join {b c : Pattern} {ts us : List Tree} (hb : Covers b ts) (hc : Covers c us)
      (h : b.ends p || c.starts fun s k => !q s k) :
      ∀ t ∈ ts.getLast?, ∀ u ∈ us.head?, q u.slot u.kind → p t.slot t.kind := by
    intro t ht u hu hq
    rcases Bool.or_eq_true_iff.1 h with h | h
    · exact hb.ends h t ht
    · simpa [hq] using hc.starts h u hu
  induction h with
  | empty | nil => exact .nil
  | one => exact .singleton _
  | seq ha hb iha ihb =>
    simp only [Pattern.follows, Bool.and_eq_true] at hf
    exact (iha hf.1.1).append (ihb hf.1.2) (join ha hb hf.2)
  | left _ ih => exact ih (Bool.and_eq_true_iff.1 hf).1
  | right _ ih => exact ih (Bool.and_eq_true_iff.1 hf).2
  | cons ha hm iha ihm =>
    obtain ⟨hf', hjoin⟩ := Bool.and_eq_true_iff.1 hf
    exact (iha hf').append (ihm hf) (join ha hm hjoin)
  | nonempty _ _ ih => exact ih hf

/-- The tree before one that passes the test, or nothing if that is the first. -/
theorem Covers.before {before after : List Tree} {t : Tree} (h : Covers a (before ++ t :: after))
    (hf : a.follows p q) (ht : q t.slot t.kind) : ∀ u ∈ before.getLast?, p u.slot u.kind :=
  fun u hu => (List.isChain_append.1 (h.follows hf)).2.2 u hu t rfl ht

/-- If no forest starts with such a tree there is one before it. -/
theorem Covers.exists_before {before after : List Tree} {t : Tree}
    (h : Covers a (before ++ t :: after)) (hf : a.follows p q)
    (hs : a.starts fun s k => !q s k) (ht : q t.slot t.kind) :
    ∃ init u, before = init ++ [u] ∧ p u.slot u.kind := by
  rcases List.eq_nil_or_concat' before with rfl | ⟨init, u, rfl⟩
  · simpa [ht] using h.starts hs t rfl
  · exact ⟨init, u, rfl, h.before hf ht u (by simp)⟩

end Pattern

/-! ## The last token of a node -/

namespace NodeKind

/-- The kinds of token that a node may end with if nothing is missing from it. They are listed for
declarations, blocks, and what stands in attributes. -/
def endings : NodeKind → TokenKind → Bool
  | .classDeclaration | .structDeclaration | .interfaceDeclaration | .block => (· == .closeBrace)
  | .namespaceDeclaration | .methodDeclaration | .constructorDeclaration | .propertyDeclaration
  | .incompleteMember
  | .accessorDeclaration | .fieldDeclaration => fun k => k == .semicolon || k == .closeBrace
  | .attributeList => (· == .closeBracket)
  | .attribute => fun k => k == .identifier || k == .closeParen
  | .argumentList => (· == .closeParen)
  | _ => fun _ => true

end NodeKind

/-- The kinds of token that a tree may end with, told by its kind. -/
def Kind.endings : Kind → TokenKind → Bool
  | .token k, t => k == t
  | .node k, t => k.endings t
  | .other _, _ => false

namespace NodeKind

theorem filled_whole (k : NodeKind) : k.whole.filled := by cases k <;> rfl

theorem ends_whole (k : NodeKind) :
    k.whole.ends fun _ kind => TokenKind.all.all fun t => !kind.endings t || k.endings t := by
  cases k <;> decide

end NodeKind

namespace Tree

variable {next : TokenKind} {t : Tree}

/-- A whole tree ends with a token that its kind allows. -/
theorem exists_last (h : Throughout WholeNode next t) :
    ∃ init x, t.tokens = init ++ [x] ∧ t.kind.endings x.kind := by
  induction h with
  | leaf s x => exact ⟨[], x, rfl, beq_self_eq_true x.kind⟩
  | @node next s k span ts hk _ ih =>
    obtain ⟨before, u, rfl⟩ := (List.eq_nil_or_concat' ts).resolve_left
      (hk.covers.ne_nil k.filled_whole)
    obtain ⟨init, x, hx, hends⟩ := ih before u [] rfl
    refine ⟨tokensAll before ++ init, x, by simp [tokens, tokensAll_append, tokensAll, hx], ?_⟩
    have hall := List.all_eq_true.1 (hk.covers.ends k.ends_whole u (by simp)) x.kind x.kind.mem_all
    show k.endings x.kind
    simpa [hends] using hall

end Tree

end Caret
