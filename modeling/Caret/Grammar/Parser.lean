import Caret.Grammar.Diagnostic
import Caret.Tree.Basic
/-!
# Parsers

A parser reads some tokens off a cursor and yields the trees it made of them, in order. Every
token it reads is a leaf of one of those trees. Parsers are put together by `++` (one after the
other), by looking at the next tokens, by `many` and `separated`, and by `node`, which makes one
tree of all that a parser yields.

The end of the file is never read; `Cursor.next` shows it when all tokens are read. `take` is
`parse_token_node`, `expect` is `parse_expected`, and `close` is what `start_node` and `finish_node`
do, all without an arena to fill.
-/

namespace Caret

/-! ## Cursors -/

/-- A place between the tokens of a file, with what was reported on the way to it. -/
structure Cursor where
  /-- The unread tokens, without the end of the file. -/
  rest : List Token
  /-- The length of the text. -/
  length : Nat
  /-- The end of the token read last. -/
  readEnd : Nat
  /-- The diagnostics so far, the newest first. -/
  diagnostics : List Diagnostic
deriving DecidableEq

namespace Cursor

def next (c : Cursor) : Token := c.rest.head?.getD (.endOfFile c.length)

def kind (c : Cursor) : TokenKind := c.next.kind

/-- The kind of the token after `count` more. -/
def peek (c : Cursor) (count : Nat) : TokenKind :=
  (c.rest[count]?.map Token.kind).getD .endOfFile

def report (c : Cursor) (problem : Problem) : Cursor :=
  if c.diagnostics.head?.any fun last => last.span.start == c.next.start then c
  else { c with diagnostics := ⟨c.next.span, problem⟩ :: c.diagnostics }

end Cursor

/-! ## Parsers -/

def Parser := Cursor → List Tree × Cursor

namespace Parser

def emit (ts : List Tree) : Parser := fun c => (ts, c)

def nothing : Parser := emit []

def andThen (p q : Parser) : Parser := fun c =>
  let r := p c
  let s := q r.2
  (r.1 ++ s.1, s.2)

instance : Append Parser := ⟨andThen⟩

/-- Goes on as `next` says, which is told where `p` started and what it yielded. -/
def read (p : Parser) (next : Nat → List Tree → Parser) : Parser := fun c =>
  let r := p c
  next c.next.start r.1 r.2

/-- Goes on as `choose` says, which is shown the cursor. -/
def look (choose : Cursor → Parser) : Parser := fun c => choose c c

def ifNext (test : TokenKind → Bool) (p q : Parser) : Parser :=
  look fun c => if test c.kind then p else q

def report (problem : Problem) : Parser := fun c => ([], c.report problem)

def take : Parser := fun c =>
  match c.rest with
  | [] => ([], c)
  | t :: ts => ([.leaf .loose t], { c with rest := ts, readEnd := t.stop })

/-- Reads a token of the given kind, or reports that it is missing. -/
def expect (kind : TokenKind) : Parser := ifNext (· == kind) take (report (.expected kind))

/-- Puts the last of the trees that `p` yields into a slot. -/
def into (p : Parser) (slot : Slot) : Parser := fun c =>
  let r := p c
  (r.1.dropLast ++ (r.1.getLast?.map (Tree.withSlot slot)).toList, r.2)

/-- Makes one tree of all that `p` yields; it reaches from `start` to the last token read. -/
def close (kind : NodeKind) (start : Nat) (p : Parser) : Parser := fun c =>
  let r := p c
  ([.node .loose kind ⟨start, max r.2.readEnd start⟩ r.1], r.2)

/-- Makes one tree of all that `p` yields; it starts at the next token. -/
def node (kind : NodeKind) (p : Parser) : Parser := look fun c => close kind c.next.start p

/-- What `p` yields; if that is nothing, the next token is reported and passed over. -/
def orSkip (p : Parser) (problem : Problem) : Parser :=
  p.read fun _ ts => if ts.isEmpty then report problem ++ take else emit ts

/-! ## Repetition

Each turn of a repetition reads a token, so there are no more turns than unread tokens. The tokens
that are unread when a repetition begins count its turns. -/

/-- `p` as long as the next token passes the test, at most once for each of `unread`. -/
def manyAtMost (test : TokenKind → Bool) (p : Parser) : (unread : List Token) → Parser
  | [] => nothing
  | _ :: unread => ifNext test (p ++ manyAtMost test p unread) nothing

def many (test : TokenKind → Bool) (p : Parser) : Parser :=
  look fun c => manyAtMost test p c.rest

/-- `p` with commas between, each time if the next token passes the test, at most once for each of
`unread`. -/
def separatedAtMost (test : TokenKind → Bool) (p : Parser) : (unread : List Token) → Parser
  | [] => nothing
  | _ :: unread =>
    ifNext test (p ++ ifNext (· == .comma) (take ++ separatedAtMost test p unread) nothing) nothing

/-- `p` with commas between; before each time the next token has to pass the test. There is a turn
after the last comma even if no token is left. -/
def separated (test : TokenKind → Bool) (p : Parser) : Parser :=
  look fun c => separatedAtMost test p (c.next :: c.rest)

/-! ## Extension to the right -/

/-- How a tree goes on: the kind of the larger tree, the slot that the tree has in it, and the
parser for the rest of it. -/
structure Extension where
  kind : NodeKind
  slot : Slot
  rest : Parser

/-- Makes `left`, which starts at `start`, and what the extension reads one tree. -/
def enlarge (ext : Extension) (start : Nat) (left : List Tree) : Parser :=
  close ext.kind start (emit (left.map (Tree.withSlot ext.slot)) ++ ext.rest)

/-- Enlarges `left` as long as the rule tells how, at most once for each of `unread`. -/
def extend (rule : Cursor → Option Extension) (start : Nat) :
    (unread : List Token) → (left : List Tree) → Parser
  | [], left => emit left
  | _ :: unread, left => look fun c =>
    match rule c with
    | none => emit left
    | some ext => (enlarge ext start left).read fun _ tree => extend rule start unread tree

/-- What `p` yields, enlarged as long as the rule tells how. -/
def extended (p : Parser) (rule : Cursor → Option Extension) : Parser :=
  p.read fun start left => look fun c => extend rule start c.rest left

end Parser

end Caret
