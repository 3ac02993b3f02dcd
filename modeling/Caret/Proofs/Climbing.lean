import Caret.Proofs.Precedence
/-!
# Levels and precedence climbing

Binary operators can be read in two ways. Level by level (`Grammar.binary`), a chain of each
precedence has chains of the next one for its operands. By climbing (`Grammar.climbing`), there is
one chain, whose next operator may be any that is tighter than a bound, and the operand behind an
operator is read with that operator for the bound. `climbing_eq_binary` says that both yield the
same trees.

The idea is that a chain whose operands are chains is one chain: behind an operand of the outer
chain the inner one has stopped, so an operator of either may be taken without asking whose turn it
is (`Parser.extended_extended`).
-/

namespace Caret

namespace Parser

/-! ## Chains in chains -/

/-- Whatever the rule adds takes a token. -/
def Shortens (rule : Cursor → Option Extension) : Prop :=
  ∀ d ext, rule d = some ext → (ext.rest d).2.rest.length < d.rest.length

/-- `left`, enlarged as long as the rule tells how. -/
def enlargeAll (rule : Cursor → Option Extension) (start : Nat) (left : List Tree) : Parser :=
  look fun c => extend rule start c.rest left

variable {rule outer : Cursor → Option Extension} {start : Nat} {left : List Tree} {d : Cursor}
  {ext : Extension} {p : Parser}

theorem enlargeAll_apply (rule : Cursor → Option Extension) (start : Nat) (left : List Tree)
    (d : Cursor) : enlargeAll rule start left d = extend rule start d.rest left d := rfl

theorem extend_none (h : rule d = none) (unread : List Token) :
    extend rule start unread left d = (left, d) := by
  cases unread with
  | nil => rfl
  | cons =>
    simp only [extend, look, h]
    rfl

theorem extend_some (h : rule d = some ext) (t : Token) (unread : List Token) :
    extend rule start (t :: unread) left d =
      extend rule start unread (enlarge ext start left d).1 (enlarge ext start left d).2 := by
  simp only [extend, look, h]
  rfl

/-- As many turns as there are tokens left are enough. -/
theorem extend_eq_enlargeAll (hrule : Shortens rule) {unread : List Token}
    (hu : d.rest.length ≤ unread.length) :
    extend rule start unread left d = enlargeAll rule start left d := by
  suffices h : ∀ (us vs : List Token) (left : List Tree) (d : Cursor),
      d.rest.length ≤ us.length → d.rest.length ≤ vs.length →
        extend rule start us left d = extend rule start vs left d from
    h unread d.rest left d hu (Nat.le_refl _)
  intro us
  induction us with
  | nil =>
    intro vs left d hus _
    have hnone : rule d = none := by
      cases h : rule d with
      | none => rfl
      | some ext => exact absurd (Nat.lt_of_lt_of_le (hrule d ext h) hus) (Nat.not_lt_zero _)
    rw [extend_none hnone, extend_none hnone]
  | cons u us ih =>
    intro vs left d hus hvs
    cases h : rule d with
    | none => rw [extend_none h, extend_none h]
    | some ext =>
      have hlt : (enlarge ext start left d).2.rest.length < d.rest.length := hrule d ext h
      cases vs with
      | nil => exact absurd (Nat.lt_of_lt_of_le hlt hvs) (Nat.not_lt_zero _)
      | cons v vs =>
        rw [List.length_cons] at hus hvs
        rw [extend_some h, extend_some h]
        exact ih vs _ _ (by omega) (by omega)

theorem enlargeAll_none (h : rule d = none) : enlargeAll rule start left d = (left, d) :=
  extend_none h d.rest

theorem enlargeAll_some (hrule : Shortens rule) (h : rule d = some ext) :
    enlargeAll rule start left d =
      enlargeAll rule start (enlarge ext start left d).1 (enlarge ext start left d).2 := by
  have hlt : (enlarge ext start left d).2.rest.length < d.rest.length := hrule d ext h
  rw [enlargeAll_apply]
  cases hrest : d.rest with
  | nil => simp [hrest] at hlt
  | cons t rest =>
    rw [hrest, List.length_cons] at hlt
    rw [extend_some h, extend_eq_enlargeAll hrule (Nat.le_of_lt_succ hlt)]

/-- A chain goes on until the rule does not tell how. -/
theorem enlargeAll_stops (hrule : Shortens rule) :
    rule (enlargeAll rule start left d).2 = none := by
  induction hn : d.rest.length using Nat.strongRecOn generalizing d left with
  | ind n ih =>
    cases h : rule d with
    | none => rwa [enlargeAll_none h]
    | some ext =>
      rw [enlargeAll_some hrule h]
      exact ih _ (hn ▸ hrule d ext h) rfl

/-- A chain of one rule, and then of another that leaves the first nothing to go on with, is a chain
of both. -/
theorem enlargeAll_enlargeAll (hrule : Shortens rule) (houter : Shortens outer)
    (hstop : ∀ d ext, outer d = some ext → rule (ext.rest d).2 = none) :
    enlargeAll (fun c => (rule c).or (outer c)) start left d =
      enlargeAll outer start (enlargeAll rule start left d).1 (enlargeAll rule start left d).2 := by
  have hboth : Shortens fun c => (rule c).or (outer c) := by
    intro d ext h
    rcases Option.or_eq_some_iff.1 h with h | ⟨-, h⟩
    · exact hrule d ext h
    · exact houter d ext h
  induction hn : d.rest.length using Nat.strongRecOn generalizing d left with
  | ind n ih =>
    cases h : rule d with
    | some ext =>
      rw [enlargeAll_some hboth (by rw [h]; rfl), enlargeAll_some hrule h]
      exact ih _ (hn ▸ hrule d ext h) rfl
    | none =>
      rw [enlargeAll_none h]
      cases ho : outer d with
      | none => rw [enlargeAll_none (by rw [h, ho]; rfl), enlargeAll_none ho]
      | some ext =>
        -- the inner chain has stopped behind the operand, so only the outer rule goes on
        have hnext := @ih _ (hn ▸ houter d ext ho) (enlarge ext start left d).1
          (enlarge ext start left d).2 rfl
        have hstopped : rule (enlarge ext start left d).2 = none := hstop d ext ho
        rw [enlargeAll_none hstopped] at hnext
        exact (enlargeAll_some hboth (by rw [h, ho]; rfl)).trans
          (hnext.trans (enlargeAll_some houter ho).symm)

theorem extended_stops (hrule : Shortens rule) (c : Cursor) :
    rule (p.extended rule c).2 = none := enlargeAll_stops hrule

theorem extended_extended (hrule : Shortens rule) (houter : Shortens outer)
    (hstop : ∀ d ext, outer d = some ext → rule (ext.rest d).2 = none) :
    (p.extended rule).extended outer = p.extended fun c => (rule c).or (outer c) :=
  funext fun _ => (enlargeAll_enlargeAll hrule houter hstop).symm

end Parser

namespace Grammar

open Caret.Parser

/-! ## Climbing -/

/-- How a chain goes on: with an operator that is tighter than `least`, and an operand for its
precedence. -/
def climb (least : Nat) (operand : Nat → Parser) (c : Cursor) : Option Extension :=
  match c.kind.precedence? with
  | none => none
  | some precedence =>
    if precedence ≤ least then none
    else some ⟨.binaryExpression, .left,
      take.into .operator ++ (operand precedence).into .right⟩

/-- Operands with operators between them that are tighter than `least`; on the right of an operator
there are chains again, which nest no deeper than `levels`. -/
def climbing (operand : Parser) : (levels least : Nat) → Parser
  | 0, _ => operand
  | levels + 1, least => operand.extended (climb least (climbing operand levels))

/-- The tightest `n` levels of operators. -/
def chain (operand : Parser) : Nat → Parser
  | 0 => operand
  | n + 1 => level (6 - n) (chain operand n)

variable {e : Parser} {least n : Nat} {operand operand' : Nat → Parser} {c : Cursor}

theorem reads_chain (he : ReadsExpression e) (n : Nat) : ReadsExpression (chain e n) := by
  induction n with
  | zero => exact he
  | succ n ih => exact yields_level _ ih

theorem climb_congr (h : ∀ p, least < p → p ≤ 6 → operand p = operand' p) :
    climb least operand = climb least operand' := by
  funext c
  unfold climb
  split
  · rfl
  · rename_i p hp
    split
    · rfl
    · rw [h p (by omega) (TokenKind.precedence?_bounds hp).2]

/-- No operator is tighter than the tightest. -/
theorem climb_six (operand : Nat → Parser) : climb 6 operand = fun _ => none := by
  funext c
  unfold climb
  split
  · rfl
  · rename_i p hp
    rw [if_pos (TokenKind.precedence?_bounds hp).2]

/-- With the bound one lower, the operators of one more precedence may be taken. -/
theorem climb_or_operation (operand : Nat → Parser) (c : Cursor) :
    climb least operand c = (climb (least + 1) operand c).or
      (operation (least + 1) (operand (least + 1)) c) := by
  unfold climb operation
  cases c.kind.precedence? with
  | none => rfl
  | some p =>
    rcases Nat.lt_trichotomy p (least + 1) with h | rfl | h
    · simp [show p ≤ least by omega, show p ≤ least + 1 by omega, Nat.ne_of_lt h]
    · simp
    · simp [show ¬ p ≤ least by omega, show ¬ p ≤ least + 1 by omega]

theorem shortens_operation (he : ReadsExpression e) (n : Nat) : Shortens (operation n e) :=
  fun d ext h => (extends_operation n he d ext [] h .none).2.2.1

theorem shortens_climb (h : ∀ p, ReadsExpression (operand p)) (least : Nat) :
    Shortens (climb least operand) := by
  intro d ext hext
  unfold climb at hext
  split at hext
  · cases hext
  · rename_i p hp
    split at hext
    · cases hext
    · refine shortens_operation (h p) p d ext ?_
      rw [operation, if_pos (by simp [hp]), ← hext]

/-- What stands at the tightest `n` levels is one chain. -/
theorem chain_eq_extended (he : ReadsExpression e) (hn : n ≤ 6) :
    chain e n = e.extended (climb (6 - n) fun p => chain e (6 - p)) := by
  have hclimb := shortens_climb (fun p => reads_chain he (6 - p))
  induction n with
  | zero =>
    rw [climb_six]
    exact funext fun c => (enlargeAll_none rfl).symm
  | succ n ih =>
    have hlevel : 6 - n = 6 - (n + 1) + 1 := by omega
    have hstop : ∀ d ext, operation (6 - n) (chain e n) d = some ext →
        climb (6 - n) (fun p => chain e (6 - p)) (ext.rest d).2 = none := by
      intro d ext h
      unfold operation at h
      split at h
      · obtain rfl := Option.some.inj h
        rw [ih (by omega)]
        exact extended_stops (hclimb _) _
      · cases h
    have hrule : climb (6 - (n + 1)) (fun p => chain e (6 - p)) = fun c =>
        (climb (6 - n) (fun p => chain e (6 - p)) c).or (operation (6 - n) (chain e n) c) := by
      funext c
      rw [climb_or_operation, ← hlevel, show 6 - (6 - n) = n by omega]
    rw [hrule, ← extended_extended (hclimb _) (shortens_operation (reads_chain he n) _) hstop,
      ← ih (by omega)]
    rfl

theorem climbing_eq_chain (he : ReadsExpression e) {levels : Nat} (hlevels : levels ≤ 6)
    (hn : n ≤ levels) : climbing e levels (6 - n) = chain e n := by
  induction levels generalizing n with
  | zero =>
    obtain rfl := Nat.le_zero.1 hn
    rfl
  | succ levels ih =>
    rw [chain_eq_extended he (by omega), climbing]
    refine congrArg e.extended (climb_congr fun p hp hp' => ?_)
    rw [← ih (n := 6 - p) (by omega) (by omega), show 6 - (6 - p) = p by omega]

theorem climbing_eq_binary (he : ReadsExpression e) : climbing e 6 0 = binary e :=
  climbing_eq_chain he (Nat.le_refl 6) (Nat.le_refl 6)

end Grammar

end Caret
