import Caret.Completion.Dispatch
import Caret.Json.Value
import Caret.Text.Span
/-!
# JSON forms of the library's values

How keywords, options, kinds, spans and references are written in JSON, and what is accepted for
them. A name of a choice may also be given as an object with that name for its only member and
`null` for its value; the members of a record may be given in an array, in order. Members that a
record does not have are ignored as long as their names stand for a text, but one that it has may
not be repeated.
-/

namespace Caret.JsonValue

/-! ## Accepting -/

/-- A number from 0 up to the largest of 32 bits, written without sign, point and exponent. -/
def natural? : JsonValue → Option Nat
  | number literal =>
    if literal.all Char.isDigit then
      (String.ofList literal).toNat?.filter (· < Offset.limit)
    else none
  | _ => none

/-- A name that chooses among some values. -/
def choice? (options : List α) (name : α → String) : JsonValue → Option α
  | text s => options.find? fun a => name a == s
  | object [(.text s, null)] => options.find? fun a => name a == s
  | _ => none

/-- The only member of a name. -/
def member? (members : List (JsonString × JsonValue)) (name : String) :
    Option (Option JsonValue) :=
  match members.filter fun m => m.1 == .text name with
  | [] => some none
  | [m] => some (some m.2)
  | _ => none

/-- The members of a record with the given names, each where it is given. -/
def record? (names : List String) : JsonValue → Option (List (Option JsonValue))
  | array items =>
    if items.length ≤ names.length then
      some (items.map some ++ List.replicate (names.length - items.length) none)
    else none
  | object members =>
    if members.all fun m => m.1.isText then names.mapM (member? members) else none
  | _ => none

def keyword? : JsonValue → Option Keyword := choice? Keyword.all Keyword.text

def tokenKind? : JsonValue → Option TokenKind := choice? TokenKind.all TokenKind.name

def typeKind? : JsonValue → Option TypeKind := choice? TypeKind.all TypeKind.name

def dispatchMode? : JsonValue → Option DispatchMode :=
  choice? [.sequential, .parallel] DispatchMode.name

/-- Options; what is not given is as in `Options.default`. -/
def options? (v : JsonValue) : Option Options := do
  match ← record? ["dispatch"] v with
  | [some mode] => return ⟨← dispatchMode? mode⟩
  | _ => return .default

def span? (v : JsonValue) : Option Span := do
  match ← record? ["start", "end"] v with
  | [some start, some stop] => return ⟨← natural? start, ← natural? stop⟩
  | _ => none

def references? (v : JsonValue) : Option (List Nat) := do
  match ← record? ["nodes"] v with
  | [some (array items)] => items.mapM natural?
  | _ => none

/-! ## Writing -/

def ofSpan (s : Span) : JsonValue := record [("start", natural s.start), ("end", natural s.stop)]

def ofOptions (o : Options) : JsonValue := record [("dispatch", text o.dispatch.name)]

def ofReferences (ns : List Nat) : JsonValue := record [("nodes", array (ns.map natural))]

def ofItem (i : Item) : JsonValue :=
  record [("keyword", text i.keyword.text), ("label", text i.label),
    ("preselect", bool i.preselect), ("sort_text", text i.sortText)]

def ofError : CompletionError → JsonValue
  | .fault message => record [("kind", text "semantic"), ("message", text message)]
  | .crashed keyword message =>
    record [("kind", text "panicked"), ("keyword", text keyword.text), ("message", text message)]

def ofFault (f : Fault) : JsonValue :=
  record [("keyword", text f.keyword.text), ("error", ofError f.error)]

/-- The JSON form of an outcome; faults and cancellation are only told if there are any. -/
def ofOutcome (o : Outcome) : JsonValue :=
  record ([("items", array (o.items.map ofItem))] ++
    (if o.faults.isEmpty then [] else [("faults", array (o.faults.map ofFault))]) ++
    (if o.cancelled then [("cancelled", bool true)] else []))

end Caret.JsonValue
