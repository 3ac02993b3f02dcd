import Caret.Grammar.Declaration
/-!
# Source files

`SourceFile.ofText` reads a whole text as `parse_source_file` does. Its root holds all tokens of the
text, the end of the file last.
-/

namespace Caret

/-- A text that is read: its length, the root of its syntax tree, and its diagnostics in the order
of their places. -/
structure SourceFile where
  length : Nat
  root : Tree
  diagnostics : List Diagnostic

namespace Grammar

open Caret.Parser

def declarations : Parser := look fun c =>
  many (· != .endOfFile)
    (((namespaceMember c.rest).into .item).orSkip .expectedDeclaration)

/-- The cursor before the first token of a text. -/
def startOf (text : List Char) : Cursor where
  rest := (scan text).dropLast
  length := byteLength text
  readEnd := 0
  diagnostics := []

end Grammar

/-- The tree and the diagnostics of a text. -/
def SourceFile.ofText (text : List Char) : SourceFile :=
  let c := Grammar.startOf text
  let r := Grammar.declarations c
  { length := c.length
    root := .node .loose .compilationUnit ⟨c.next.start, c.length⟩
      (r.1 ++ [.leaf .loose (.endOfFile c.length)])
    diagnostics := r.2.diagnostics.reverse }

end Caret
