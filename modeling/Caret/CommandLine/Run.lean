import Caret.Builder.SourceFile
import Caret.Completion.Dispatch
import Caret.Text.Marker
import Caret.Types.Binding
/-!
# Completion runs

One request from a text to an outcome: find the caret, read the text, number its types, complete.
The caret is given by an offset or by a marker in the text.
-/

namespace Caret

inductive ReadFailure where
  | notFound | isDirectory
  /-- The path leads through a file. -/
  | notDirectory
  /-- The path or one of its parts is too long. -/
  | tooLong
  /-- The path has a character that no path may have. -/
  | badPath
  /-- The file does not hold a text in UTF-8. -/
  | notText
  | other (description : String)
deriving DecidableEq

def ReadFailure.name : ReadFailure → String
  | .notFound => "NotFound"
  | .isDirectory => "IsADirectory"
  | .notDirectory => "NotADirectory"
  | .tooLong => "InvalidFilename"
  | .badPath => "InvalidInput"
  | .notText => "InvalidData"
  | .other description => description

/-- Why a run gives no outcome. -/
inductive RunError where
  | unreadable (file : String) (failure : ReadFailure)
  | pastEnd (position length : Nat)
  | insideCharacter (position : Nat)
  | noCaret
  | unbound (error : ModelError)
  | failed (position : Nat) (error : CompletionError)
deriving DecidableEq

/-- The wording of an error: what went wrong, and below it the cause, if there is another. -/
def RunError.messages : RunError → List String
  | .unreadable file failure => ["failed to read " ++ file, failure.name]
  | .pastEnd position length =>
    ["position " ++ toString position ++ " is past the end of the file (" ++ toString length ++
      " bytes)"]
  | .insideCharacter position =>
    ["position " ++ toString position ++ " is not on a character boundary"]
  | .noCaret => ["no --position given and no `$$` caret marker in the file"]
  | .unbound error => ["failed to bind declarations", error.message]
  | .failed position error =>
    ["completion failed at offset " ++ toString position, error.message]

structure Run where
  fileName : String
  /-- The offset of the caret in the text that was read. -/
  position : Nat
  outcome : Outcome
  diagnostics : List Diagnostic
deriving DecidableEq

namespace Run

/-- The text to read, and the caret in it. -/
def caretIn (source : List Char) : (position : Option Nat) → Except RunError (List Char × Nat)
  | some position =>
    if byteLength source < position then .error (.pastEnd position (byteLength source))
    else if isBoundary source position then .ok (source, position)
    else .error (.insideCharacter position)
  | none =>
    match splitMarker source with
    | some found => .ok found
    | none => .error .noCaret

/-- Completes in a source at an offset, or at its marker if none is given. -/
def ofSource (fileName : String) (source : List Char) (position : Option Nat)
    (options : Options) : Request (Except RunError Run) := do
  match caretIn source position with
  | .error e => return .error e
  | .ok (text, position) =>
    let read := State.ofText text
    let table := read.arena.table
    match ← Binding.bind table with
    | .error e => return .error (.unbound e)
    | .ok binding =>
      match ← Registry.default.complete table binding.model position options with
      | .error e => return .error (.failed position e)
      | .ok outcome => return .ok ⟨fileName, position, outcome, read.diagnostics.reverse⟩

/-- Completes in a file that holds the given bytes, or could not be read. -/
def ofFile (fileName : String) (contents : Except ReadFailure ByteArray) (position : Option Nat)
    (options : Options) : Except RunError Run :=
  match contents with
  | .error failure => .error (.unreadable fileName failure)
  | .ok bytes =>
    match String.fromUTF8? bytes with
    | none => .error (.unreadable fileName .notText)
    | some source => (ofSource fileName source.toList position options RequestState.quiet).1

end Run

end Caret
