import Caret.Text.Offset
/-!
# The caret marker

A caret is written into a text as `$$`. `splitMarker` takes the first marker out of a text and
says where it stood (`split_caret_marker`); `insertMarker` writes one at an offset.
-/

namespace Caret

/-- The text without its first marker, and the marker's offset. -/
def firstMarker : List Char → Option (List Char × Nat)
  | [] => none
  | '$' :: '$' :: rest => some (rest, 0)
  | c :: rest => (firstMarker rest).map fun (text, offset) => (c :: text, c.utf8Size + offset)

/-- As `firstMarker`, for a marker whose offset a request can name. -/
def splitMarker (text : List Char) : Option (List Char × Nat) :=
  (firstMarker text).filter fun found => found.2 < Offset.limit

/-- The text with a marker written before the character at `offset`. -/
def insertMarker : List Char → Nat → List Char
  | text, 0 => '$' :: '$' :: text
  | [], _ + 1 => ['$', '$']
  | c :: text, n + 1 => c :: insertMarker text (n + 1 - c.utf8Size)

end Caret
