import Caret.Json.Value
/-!
# Printing JSON

Values are printed over several lines: each level of nesting is indented by two more blanks, and
empty arrays and objects stay on one line. Only quotes, backslashes and control characters are
escaped.
-/

namespace Caret.JsonValue

def hexDigit (n : Nat) : Char := Nat.digitChar (n % 16)

def escapeChar (c : Char) : List Char :=
  match c with
  | '"' => ['\\', '"']
  | '\\' => ['\\', '\\']
  | '\n' => ['\\', 'n']
  | '\r' => ['\\', 'r']
  | '\t' => ['\\', 't']
  | '\x08' => ['\\', 'b']
  | '\x0c' => ['\\', 'f']
  | c =>
    if c.toNat < 32 then ['\\', 'u', '0', '0', hexDigit (c.toNat / 16), hexDigit c.toNat] else [c]

def quote : JsonString → List Char
  | .text s => '"' :: s.toList.flatMap escapeChar ++ ['"']
  | .broken literal => '"' :: literal ++ ['"']

/-- A new line that is indented for a level. -/
def newLine (depth : Nat) : List Char := '\n' :: List.replicate (2 * depth) ' '

mutual

/-- A value whose first line is indented for the given level. -/
def print (depth : Nat) : JsonValue → List Char
  | null => ['n', 'u', 'l', 'l']
  | bool true => ['t', 'r', 'u', 'e']
  | bool false => ['f', 'a', 'l', 's', 'e']
  | number literal => literal
  | string s => quote s
  | array [] => ['[', ']']
  | array (v :: vs) =>
    '[' :: newLine (depth + 1) ++ print (depth + 1) v ++ printItems (depth + 1) vs ++
      newLine depth ++ [']']
  | object [] => ['\x7b', '\x7d']
  | object ((key, v) :: ms) =>
    '\x7b' :: newLine (depth + 1) ++ quote key ++ [':', ' '] ++ print (depth + 1) v ++
      printMembers (depth + 1) ms ++ newLine depth ++ ['\x7d']

def printItems (depth : Nat) : List JsonValue → List Char
  | [] => []
  | v :: vs => ',' :: newLine depth ++ print depth v ++ printItems depth vs

def printMembers (depth : Nat) : List (JsonString × JsonValue) → List Char
  | [] => []
  | (key, v) :: ms =>
    ',' :: newLine depth ++ quote key ++ [':', ' '] ++ print depth v ++ printMembers depth ms

end

/-- A value as a document. -/
def pretty (v : JsonValue) : String := String.ofList (print 0 v)

end Caret.JsonValue
