import Caret.CommandLine.Arguments
import Caret.CommandLine.Run
import Caret.Json.Decode
import Caret.Json.Printer
/-!
# Reports

How the result of a run is printed: for readers, one suggestion or failure a line, or as JSON.
-/

namespace Caret

/-! ## Colours -/

inductive TextStyle where
  | greenBold | yellow | dimmed
deriving DecidableEq

namespace TextStyle

def opening : TextStyle → List Char
  | greenBold => ['\x1b', '[', '1', ';', '3', '2', 'm']
  | yellow => ['\x1b', '[', '3', '3', 'm']
  | dimmed => ['\x1b', '[', '2', 'm']

def closing : List Char := ['\x1b', '[', '0', 'm']

/-- A text in which the style starts again after everything that ends it. -/
def reopened (style : TextStyle) : List Char → List Char
  | '\x1b' :: '[' :: '0' :: 'm' :: cs => closing ++ style.opening ++ reopened style cs
  | c :: cs => c :: reopened style cs
  | [] => []

/-- A text in a style, where colours are wanted. -/
def apply (style : TextStyle) (color : Bool) (text : String) : String :=
  if color then String.ofList (style.opening ++ style.reopened text.toList ++ closing) else text

end TextStyle

/-! ## Lines -/

namespace Report

/-- A text that is filled up with blanks to eight characters. -/
def padded (text : String) : String :=
  text ++ String.ofList (List.replicate (8 - text.length) ' ')

def itemLine (color : Bool) (i : Item) : String :=
  if i.preselect then
    TextStyle.greenBold.apply color (padded i.label) ++ " " ++ i.sortText ++ " (preselected)"
  else padded i.label ++ " " ++ i.sortText

def faultLine (color : Bool) (f : Fault) : String :=
  TextStyle.yellow.apply color "warning" ++ ": " ++ f.keyword.text ++ " dropped: " ++
    f.error.message

/-- The line that tells why there may be no suggestions. -/
def headLines (color : Bool) (r : Run) : List String :=
  if r.outcome.cancelled then [TextStyle.dimmed.apply color "completion cancelled"]
  else if r.outcome.items.isEmpty then
    [TextStyle.dimmed.apply color
      ("no keywords at " ++ r.fileName ++ ":" ++ toString r.position)]
  else []

def text (color : Bool) (r : Run) : String :=
  String.intercalate "\n"
    (headLines color r ++ r.outcome.items.map (itemLine color) ++
      r.outcome.faults.map (faultLine color))

def json (r : Run) : String := (JsonValue.ofOutcome r.outcome).pretty

def render (format : OutputFormat) (color : Bool) (r : Run) : String :=
  match format with
  | .text => text color r
  | .json => json r

end Report

end Caret
