import Caret.Json.Value
/-!
# Reading JSON

`JsonValue.ofText?` reads a document and accepts nothing but the JSON grammar. Each reader takes
the front of a text and returns the rest.
-/

namespace Caret.JsonValue

def skipBlanks (cs : List Char) : List Char :=
  cs.dropWhile fun c => c == ' ' || c == '\n' || c == '\t' || c == '\r'

/-- The text after the given characters. -/
def expectChars : (expected : List Char) → List Char → Option (List Char)
  | [], cs => some cs
  | e :: es, c :: cs => if e = c then expectChars es cs else none
  | _ :: _, [] => none

/-! ## Numbers -/

def readDigits (cs : List Char) : Option (List Char × List Char) :=
  match cs.takeWhile Char.isDigit with
  | [] => none
  | ds => some (ds, cs.dropWhile Char.isDigit)

/-- The digits before the point; a zero stands alone. -/
def readWhole : List Char → Option (List Char × List Char)
  | '0' :: cs => some (['0'], cs)
  | cs => readDigits cs

/-- The point and the digits after it, if there is a point. -/
def readFraction : List Char → Option (List Char × List Char)
  | '.' :: cs => (readDigits cs).map fun (ds, rest) => ('.' :: ds, rest)
  | cs => some ([], cs)

def readSign : List Char → List Char × List Char
  | '+' :: cs => (['+'], cs)
  | '-' :: cs => (['-'], cs)
  | cs => ([], cs)

def readExponent (cs : List Char) : Option (List Char × List Char) :=
  match cs with
  | e :: rest =>
    if e == 'e' || e == 'E' then
      let (sign, rest) := readSign rest
      (readDigits rest).map fun (ds, rest) => (e :: sign ++ ds, rest)
    else some ([], cs)
  | [] => some ([], cs)

def readUnsigned (cs : List Char) : Option (List Char × List Char) := do
  let (whole, cs) ← readWhole cs
  let (fraction, cs) ← readFraction cs
  let (exponent, cs) ← readExponent cs
  return (whole ++ fraction ++ exponent, cs)

def readNumber : List Char → Option (List Char × List Char)
  | '-' :: cs => (readUnsigned cs).map fun (literal, rest) => ('-' :: literal, rest)
  | cs => readUnsigned cs

/-! ## Strings -/

def hexValue? (c : Char) : Option Nat :=
  if c.isDigit then some (c.toNat - '0'.toNat)
  else if 'a' ≤ c ∧ c ≤ 'f' then some (c.toNat - 'a'.toNat + 10)
  else if 'A' ≤ c ∧ c ≤ 'F' then some (c.toNat - 'A'.toNat + 10)
  else none

/-- The number that four digits in base 16 write. -/
def readUnit : List Char → Option (Nat × List Char)
  | a :: b :: c :: d :: cs => do
    let a ← hexValue? a
    let b ← hexValue? b
    let c ← hexValue? c
    let d ← hexValue? d
    return (((a * 16 + b) * 16 + c) * 16 + d, cs)
  | _ => none

/-- The character that an escape of one or two 16-bit units stands for; half of a pair stands for
none. -/
def readEscapedUnits (cs : List Char) : Option (Option Char × List Char) := do
  let (high, rest) ← readUnit cs
  if 0xDC00 ≤ high ∧ high ≤ 0xDFFF then return (none, rest)
  if ¬(0xD800 ≤ high ∧ high ≤ 0xDBFF) then return (some (Char.ofNat high), rest)
  match rest with
  | '\\' :: 'u' :: more =>
    let (low, more) ← readUnit more
    if 0xDC00 ≤ low ∧ low ≤ 0xDFFF then
      return (some (Char.ofNat (0x10000 + (high - 0xD800) * 0x400 + (low - 0xDC00))), more)
    return (none, rest)
  | _ => return (none, rest)

def simpleEscape? : Char → Option Char
  | '"' => some '"'
  | '\\' => some '\\'
  | '/' => some '/'
  | 'b' => some '\x08'
  | 'f' => some '\x0c'
  | 'n' => some '\n'
  | 'r' => some '\r'
  | 't' => some '\t'
  | _ => none

/-- The characters of a string after its opening quote, `none` for those that stand for none;
`fuel` bounds their number. -/
def readString : (fuel : Nat) → List Char → Option (List (Option Char) × List Char)
  | 0, _ => none
  | _ + 1, [] => none
  | _ + 1, '"' :: cs => some ([], cs)
  | n + 1, '\\' :: 'u' :: cs => do
    let (c, cs) ← readEscapedUnits cs
    let (s, cs) ← readString n cs
    return (c :: s, cs)
  | n + 1, '\\' :: e :: cs => do
    let c ← simpleEscape? e
    let (s, cs) ← readString n cs
    return (some c :: s, cs)
  | n + 1, c :: cs =>
    if c.toNat < 32 || c == '\\' then none
    else (readString n cs).map fun (s, rest) => (some c :: s, rest)

def readQuoted : List Char → Option (JsonString × List Char)
  | '"' :: cs => (readString (cs.length + 1) cs).map fun (s, rest) =>
    match s.mapM id with
    | some chars => (.text (String.ofList chars), rest)
    | none => (.broken (cs.take (cs.length - rest.length - 1)), rest)
  | _ => none

/-! ## Values -/

mutual

/-- A value; `fuel` bounds the nesting. -/
def readValue : (fuel : Nat) → List Char → Option (JsonValue × List Char)
  | 0, _ => none
  | n + 1, cs =>
    match skipBlanks cs with
    | '\x7b' :: cs =>
      match skipBlanks cs with
      | '\x7d' :: cs => some (.object [], cs)
      | cs => (readMembers n cs).map fun (ms, rest) => (.object ms, rest)
    | '[' :: cs =>
      match skipBlanks cs with
      | ']' :: cs => some (.array [], cs)
      | cs => (readItems n cs).map fun (vs, rest) => (.array vs, rest)
    | '"' :: cs => (readQuoted ('"' :: cs)).map fun (s, rest) => (.string s, rest)
    | 'n' :: cs => (expectChars ['u', 'l', 'l'] cs).map fun rest => (.null, rest)
    | 't' :: cs => (expectChars ['r', 'u', 'e'] cs).map fun rest => (.bool true, rest)
    | 'f' :: cs => (expectChars ['a', 'l', 's', 'e'] cs).map fun rest => (.bool false, rest)
    | cs => (readNumber cs).map fun (literal, rest) => (.number literal, rest)

def readItems : (fuel : Nat) → List Char → Option (List JsonValue × List Char)
  | 0, _ => none
  | n + 1, cs => do
    let (v, cs) ← readValue n cs
    match skipBlanks cs with
    | ',' :: cs =>
      let (vs, cs) ← readItems n cs
      return (v :: vs, cs)
    | ']' :: cs => return ([v], cs)
    | _ => none

def readMembers : (fuel : Nat) → List Char → Option (List (JsonString × JsonValue) × List Char)
  | 0, _ => none
  | n + 1, cs => do
    let (key, cs) ← readQuoted (skipBlanks cs)
    match skipBlanks cs with
    | ':' :: cs =>
      let (v, cs) ← readValue n cs
      match skipBlanks cs with
      | ',' :: cs =>
        let (ms, cs) ← readMembers n cs
        return ((key, v) :: ms, cs)
      | '\x7d' :: cs => return ([(key, v)], cs)
      | _ => none
    | _ => none

end

/-- The value that a text writes; nothing but blanks may follow it. -/
def ofText? (text : String) : Option JsonValue := do
  let cs := text.toList
  let (v, rest) ← readValue (2 * cs.length + 1) cs
  if (skipBlanks rest).isEmpty then some v else none

end Caret.JsonValue
