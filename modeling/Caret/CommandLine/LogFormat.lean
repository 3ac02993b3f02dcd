/-!
# Log formats

How log lines are to be written is named by a word; blanks around it and capital letters do not
matter, and an unknown word means plain text.
-/

namespace Caret

inductive LogFormat where
  | text | tree | json
deriving DecidableEq

/-- The characters that are blank in Unicode. -/
def isBlankChar (c : Char) : Bool :=
  let n := c.toNat
  (9 ≤ n && n ≤ 13) || n == 0x20 || n == 0x85 || n == 0xA0 || n == 0x1680 ||
    (0x2000 ≤ n && n ≤ 0x200A) || n == 0x2028 || n == 0x2029 || n == 0x202F || n == 0x205F ||
    n == 0x3000

/-- A text without the blanks at its ends. -/
def trimBlanks (cs : List Char) : List Char :=
  ((cs.dropWhile isBlankChar).reverse.dropWhile isBlankChar).reverse

theorem isBlankChar_of_isWhitespace {c : Char} (h : c.isWhitespace) : isBlankChar c := by
  simp only [Char.isWhitespace, Bool.or_eq_true, decide_eq_true_eq] at h
  rcases h with ((rfl | rfl) | rfl) | rfl <;> decide

/-- The format that a word names. -/
def LogFormat.ofText (word : String) : LogFormat :=
  match String.ofList ((trimBlanks word.toList).map Char.toLower) with
  | "tree" => .tree
  | "json" => .json
  | _ => .text

end Caret
