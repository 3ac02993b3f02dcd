import Caret.Builder.Declaration
import Caret.Table.Layout
/-!
# Building the table of a text

`NodeTable.ofText` is the arena of a text as the parser leaves it, with all tokens of the text and
the end of the file.
-/

namespace Caret

namespace Builder

def declarations : Builder (List Ref) := look fun c =>
  many (· != .endOfFile) (orSkip (namespaceMember (c.rest.length - 1)) .expectedDeclaration)

/-- The root, which reaches to the end of the text. -/
def root (m : Marker) (members : List Ref) : Builder Ref := look fun c => do
  let root ← finishAt m c.length .compilationUnit (.list members)
  fun s => (root, { s with arena := { s.arena with root } })

/-- A whole file (`parse_source_file`). The end of the file belongs to the root. -/
def sourceFile : Builder Ref := do
  let m ← start
  let members ← declarations
  let _ ← token
  root m members

end Builder

namespace State

/-- The state before the first token of a text is read. -/
def startOf (text : List Char) : State where
  rest := scan text
  length := byteLength text
  readEnd := 0
  diagnostics := []
  arena := .empty

/-- The state in which a whole text is read. -/
def ofText (text : List Char) : State := (Builder.sourceFile (startOf text)).2

end State

/-- The table of a text. -/
def NodeTable.ofText (text : List Char) : NodeTable := (State.ofText text).arena.table

end Caret
