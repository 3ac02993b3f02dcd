import Caret.Token.Kind
/-!
# Sets of modifiers

A set of modifiers (`ModifierFlags`) is written as a number: each modifier has a bit of its own.
Those of a node are put together from the tokens that it lists (`compute_modifier_flags`).
-/

namespace Caret

/-- The bit of a modifier; the modifiers of parameters start at bit 16. -/
def TokenKind.modifierBit? : TokenKind → Option Nat
  | .publicKeyword => some 0
  | .privateKeyword => some 1
  | .protectedKeyword => some 2
  | .internalKeyword => some 3
  | .staticKeyword => some 4
  | .abstractKeyword => some 5
  | .sealedKeyword => some 6
  | .virtualKeyword => some 7
  | .overrideKeyword => some 8
  | .readonlyKeyword => some 9
  | .partialKeyword => some 10
  | .thisKeyword => some 16
  | .refKeyword => some 17
  | .outKeyword => some 18
  | .inKeyword => some 19
  | .paramsKeyword => some 20
  | _ => none

/-- A set of modifiers. -/
structure Modifiers where
  bits : Nat
deriving DecidableEq

namespace Modifiers

def none : Modifiers := ⟨0⟩

/-- The modifier that a kind of token is, or none. -/
def single (k : TokenKind) : Modifiers :=
  match k.modifierBit? with
  | some b => ⟨1 <<< b⟩
  | Option.none => none

def union (m n : Modifiers) : Modifiers := ⟨m.bits ||| n.bits⟩

def ofKinds : List TokenKind → Modifiers
  | [] => none
  | k :: ks => (single k).union (ofKinds ks)

def has (m : Modifiers) (k : TokenKind) : Bool := k.modifierBit?.any (m.bits.testBit ·)

@[simp] theorem has_none (k : TokenKind) : Modifiers.none.has k = false := by
  unfold has Modifiers.none
  cases k.modifierBit? <;> simp

@[simp] theorem has_union (m n : Modifiers) (k : TokenKind) :
    (m.union n).has k = (m.has k || n.has k) := by
  unfold has union
  cases k.modifierBit? <;> simp

end Modifiers

end Caret
