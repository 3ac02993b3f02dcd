import Caret.Text.Offset
import Caret.Text.Span
import Caret.Token.Kind
/-!
# Scanning

`scan` cuts a text into tokens (`scan_all`). Every character belongs to one piece: a blank, a
comment or a token, and the first character of a piece and what follows it decide how far the piece
goes (`Piece.first`). Literals and comments that are not closed end with the text, or a string with
its line, so scanning never fails.
-/

namespace Caret

/-- A token: its kind, the offset of its first character, and its characters. -/
structure Token where
  kind : TokenKind
  start : Nat
  text : List Char
deriving DecidableEq

namespace Token

def stop (t : Token) : Nat := t.start + byteLength t.text

def span (t : Token) : Span := ⟨t.start, t.stop⟩

/-- The end of a text of the given length, as a token. -/
def endOfFile (length : Nat) : Token := ⟨.endOfFile, length, []⟩

@[simp] theorem stop_endOfFile (length : Nat) : (endOfFile length).stop = length := rfl

end Token

/-- What starts at a character: a token of some kind or, without a kind, a gap between tokens,
and how many of the following characters belong to it. -/
structure Piece where
  kind : Option TokenKind
  more : Nat
deriving DecidableEq

namespace Piece

/-! ## The characters of each kind of piece -/

def isBlank (c : Char) : Bool := c == ' ' || c == '\t' || c == '\r' || c == '\n'

def startsName (c : Char) : Bool := c.isAlpha || c == '_' || c == '@'

def continuesName (c : Char) : Bool := c.isAlphanum || c == '_'

def continuesNumber (c : Char) : Bool := c.isAlphanum || c == '.'

/-- The length of the first characters that have a property. -/
def run (p : Char → Bool) : List Char → Nat
  | [] => 0
  | c :: cs => if p c then run p cs + 1 else 0

/-- The length of a block comment after its opening, up to and with its closing. -/
def blockRest : List Char → Nat
  | [] => 0
  | '*' :: '/' :: _ => 2
  | _ :: cs => blockRest cs + 1

/-- The length of a string after its opening quote (`scan_string_body`): up to and with the closing
quote, or up to the end of the line. A backslash takes the next character with it, whatever it
is. -/
def stringRest : List Char → Nat
  | [] => 0
  | '"' :: _ => 1
  | '\n' :: _ => 0
  | ['\\'] => 1
  | '\\' :: _ :: cs => stringRest cs + 2
  | _ :: cs => stringRest cs + 1

/-! ## Pieces -/

/-- The punctuation that starts with a character, given the character after it. -/
def punctuation : Char → Option Char → Option Piece
  | '\x7b', _ => some ⟨some .openBrace, 0⟩
  | '\x7d', _ => some ⟨some .closeBrace, 0⟩
  | '(', _ => some ⟨some .openParen, 0⟩
  | ')', _ => some ⟨some .closeParen, 0⟩
  | '[', _ => some ⟨some .openBracket, 0⟩
  | ']', _ => some ⟨some .closeBracket, 0⟩
  | ';', _ => some ⟨some .semicolon, 0⟩
  | ',', _ => some ⟨some .comma, 0⟩
  | ':', _ => some ⟨some .colon, 0⟩
  | '.', _ => some ⟨some .dot, 0⟩
  | '?', _ => some ⟨some .question, 0⟩
  | '*', _ => some ⟨some .asterisk, 0⟩
  | '/', _ => some ⟨some .slash, 0⟩
  | '%', _ => some ⟨some .percent, 0⟩
  | '=', some '=' => some ⟨some .equalsEquals, 1⟩
  | '=', some '>' => some ⟨some .equalsGreater, 1⟩
  | '=', _ => some ⟨some .equals, 0⟩
  | '!', some '=' => some ⟨some .exclamationEquals, 1⟩
  | '!', _ => some ⟨some .exclamation, 0⟩
  | '<', some '=' => some ⟨some .lessEquals, 1⟩
  | '<', _ => some ⟨some .less, 0⟩
  | '>', some '=' => some ⟨some .greaterEquals, 1⟩
  | '>', _ => some ⟨some .greater, 0⟩
  | '+', some '=' => some ⟨some .plusEquals, 1⟩
  | '+', _ => some ⟨some .plus, 0⟩
  | '-', some '=' => some ⟨some .minusEquals, 1⟩
  | '-', _ => some ⟨some .minus, 0⟩
  | '&', some '&' => some ⟨some .ampersandAmpersand, 1⟩
  | '|', some '|' => some ⟨some .barBar, 1⟩
  | _, _ => none

/-- The gap that starts with a character (`skip_trivia`): a blank, or a comment to the end of its
line or to its closing. -/
def gap : Char → List Char → Option Piece
  | '/', '/' :: cs => some ⟨none, run (· != '\n') cs + 1⟩
  | '/', '*' :: cs => some ⟨none, blockRest cs + 1⟩
  | c, _ => if isBlank c then some ⟨none, 0⟩ else none

/-- The literal or word that starts with a character; any other character stands alone. -/
def lexeme (c : Char) (cs : List Char) : Piece :=
  if c == '"' then ⟨some .stringLiteral, stringRest cs⟩
  else if c.isDigit then ⟨some .numericLiteral, run continuesNumber cs⟩
  else if startsName c then
    let more := run continuesName cs
    ⟨some ((TokenKind.ofWord? (c :: cs.take more)).getD .identifier), more⟩
  else ⟨some .unknown, 0⟩

/-- The piece that starts with the character `c` when `cs` follows. -/
def first (c : Char) (cs : List Char) : Piece :=
  (gap c cs).getD ((punctuation c cs.head?).getD (lexeme c cs))

end Piece

/-! ## Scanning a text -/

/-- The tokens of a text that starts at `offset` and whose first `skip` characters belong to a
piece that has begun before; the last token is the end of the file. -/
def scanFrom (offset : Nat) : (skip : Nat) → List Char → List Token
  | _, [] => [Token.endOfFile offset]
  | skip + 1, c :: cs => scanFrom (offset + c.utf8Size) skip cs
  | 0, c :: cs =>
    let piece := Piece.first c cs
    let rest := scanFrom (offset + c.utf8Size) piece.more cs
    match piece.kind with
    | none => rest
    | some kind => ⟨kind, offset, c :: cs.take piece.more⟩ :: rest

/-- The tokens of a text, the end of the file last. -/
def scan (text : List Char) : List Token := scanFrom 0 0 text

/-- The first `count` tokens of a text, where after the end of the file comes its end again. -/
def scanMany (text : List Char) (count : Nat) : List Token :=
  (scan text ++ List.replicate count (Token.endOfFile (byteLength text))).take count

@[simp] theorem scan_nil : scan [] = [.endOfFile 0] := rfl

theorem scanFrom_ne_nil (offset skip : Nat) (cs : List Char) : scanFrom offset skip cs ≠ [] := by
  induction cs generalizing offset skip with
  | nil => simp [scanFrom]
  | cons c cs ih =>
    cases skip with
    | zero =>
      simp only [scanFrom]
      split
      · exact ih _ _
      · simp
    | succ n => exact ih _ _

end Caret
