/-!
# Spans

Places in a text are byte offsets into its UTF-8 form, and a span is a half-open range of them.
-/

namespace Caret

/-- The offsets from `start` up to, but not including, `stop`. -/
structure Span where
  start : Nat
  stop : Nat
deriving DecidableEq

namespace Span

/-- The number of offsets in a span; a span that ends before it starts has none. -/
def length (s : Span) : Nat := s.stop - s.start

def isEmpty (s : Span) : Bool := s.stop ≤ s.start

def contains (s : Span) (offset : Nat) : Bool := s.start ≤ offset && offset < s.stop

theorem contains_iff (s : Span) (offset : Nat) :
    s.contains offset ↔ s.start ≤ offset ∧ offset < s.stop := by
  simp [contains]

theorem isEmpty_iff_length (s : Span) : s.isEmpty ↔ s.length = 0 := by
  simp [isEmpty, length]; omega

end Span

end Caret
