/-!
# JSON values

Numbers and strings are kept so that a reader can tell what was written: a number as its digits,
a string as the text that it stands for, and the members of an object in order, repeated names
included.
-/

namespace Caret

/-- A string of a document. -/
inductive JsonString where
  /-- A string that stands for a text. -/
  | text (value : String)
  /-- A string with an escape for half of a pair of 16-bit units, which stands for no text. It is
  kept as it is written between its quotes. -/
  | broken (literal : List Char)
deriving DecidableEq

def JsonString.isText : JsonString → Bool
  | text _ => true
  | broken _ => false

inductive JsonValue where
  | null
  | bool (value : Bool)
  | number (literal : List Char)
  | string (value : JsonString)
  | array (items : List JsonValue)
  | object (members : List (JsonString × JsonValue))
deriving Inhabited

namespace JsonValue

@[match_pattern] def text (s : String) : JsonValue := string (.text s)

def natural (n : Nat) : JsonValue := number (toString n).toList

/-- An object whose members have the given names. -/
def record (members : List (String × JsonValue)) : JsonValue :=
  object (members.map fun (name, v) => (.text name, v))

end JsonValue

end Caret
