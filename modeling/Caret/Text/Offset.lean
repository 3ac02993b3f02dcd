/-!
# Byte offsets

Texts are lists of characters; an offset counts the bytes of the UTF-8 form of what stands
before it. Offsets in requests are 32 bits wide.
-/

namespace Caret

def byteLength : List Char → Nat
  | [] => 0
  | c :: cs => c.utf8Size + byteLength cs

@[simp] theorem byteLength_nil : byteLength [] = 0 := rfl

@[simp] theorem byteLength_cons (c : Char) (cs : List Char) :
    byteLength (c :: cs) = c.utf8Size + byteLength cs := rfl

@[simp] theorem byteLength_append (as bs : List Char) :
    byteLength (as ++ bs) = byteLength as + byteLength bs := by
  induction as with
  | nil => simp
  | cons c cs ih => simp [ih, Nat.add_assoc]

/-- The offset is that of a character of the text or of its end. -/
def isBoundary : List Char → Nat → Bool
  | _, 0 => true
  | [], _ + 1 => false
  | c :: cs, n + 1 => c.utf8Size ≤ n + 1 && isBoundary cs (n + 1 - c.utf8Size)

namespace Offset

/-- One more than the largest offset that a request can name. -/
def limit : Nat := 4294967296

/-- The offset after `n`; the one after the largest is the first. -/
def next (n : Nat) : Nat := (n + 1) % limit

theorem next_of_lt {n : Nat} (h : n + 1 < limit) : next n = n + 1 := Nat.mod_eq_of_lt h

end Offset

end Caret
