import Caret.Arena.Basic
import Caret.Grammar.Parser
/-!
# Building

A `Builder` reads tokens and fills an arena on the way. What it returns are numbers of entries; no
tree is made. A node that it builds notes where the arena ends when the node starts
(`start_node`), and when it is finished (`finish_node`), it is added to the arena with the numbers
that the builders of its parts returned, and adopts all entries from that place on that no other
node has adopted.

The rules of a text are the same as for the parsers of `Caret.Grammar.Parser`, and so are the tests
that choose between them; `Cursor` is used for both. Here the unread tokens end with the end of the
file, which is an entry of the arena like any other token.
-/

namespace Caret

/-- A cursor in a file, the end of the file included, and the arena that is filled. -/
structure State extends Cursor where
  arena : Arena

/-- A step that reads tokens and fills the arena. -/
def Builder (α : Type) := State → α × State

namespace Builder

instance : Monad Builder where
  pure a := fun s => (a, s)
  bind m f := fun s => f (m s).1 (m s).2

variable {α : Type}

/-! ## Tokens -/

/-- Goes on as `choose` says, which is shown the cursor. -/
def look (choose : Cursor → Builder α) : Builder α := fun s => choose s.toCursor s

def kind : Builder TokenKind := fun s => (s.kind, s)

/-- `m` if the kind of the next token passes the test, `n` otherwise. -/
def ifNext (test : TokenKind → Bool) (m n : Builder α) : Builder α := do
  if test (← kind) then m else n

def unread : Builder Nat := fun s => (s.rest.length, s)

/-- Reads the next token into the arena (`parse_token_node`). Where the end of the file is read
already there is none. -/
def token : Builder Ref := fun s =>
  match s.rest with
  | [] => (none, s)
  | t :: rest =>
    let text := if t.kind = .identifier then some t.text else none
    (some s.arena.size,
      { s with
        rest
        readEnd := if t.kind = .endOfFile then s.readEnd else t.stop
        arena := s.arena.addToken t.kind t.span text })

/-- Reports a problem at the next token (`parse_error_at_current_token`). -/
def report (problem : Problem) : Builder Unit := fun s =>
  ((), { s with toCursor := s.toCursor.report problem })

/-- Reports a problem where a part is missing. -/
def missing (problem : Problem) : Builder Ref := do
  report problem
  return none

/-- Reads a token of the given kind, or reports that it is missing (`parse_expected`). -/
def expect (kind : TokenKind) : Builder Ref := ifNext (· == kind) token (missing (.expected kind))

/-- Reports the next token and passes over it, unless it is the end of the file (`skip_token`). -/
def skip (problem : Problem) : Builder Unit := do
  report problem
  let _ ← ifNext (· == .endOfFile) (pure none) token

/-- `m` where a part was found before. -/
def ifFound (part : Ref) (m : Builder Ref) : Builder Ref :=
  if part.isSome then m else return none

/-! ## Nodes -/

/-- The place where a node starts: in the arena, and in the text. -/
structure Marker where
  first : Nat
  offset : Nat

/-- Marks the place where a node starts (`start_node`). -/
def start : Builder Marker := fun s => (⟨s.arena.size, s.next.start⟩, s)

/-- Adds a node that ends at an offset, and has it adopt what came since the marker. -/
def finishAt (m : Marker) (stop : Nat) (kind : NodeKind) (data : Data) : Builder Ref := fun s =>
  (some s.arena.size,
    { s with
      arena := (s.arena.addNode kind ⟨m.offset, stop⟩ data).adopt m.first (some s.arena.size) })

/-- Adds a node that reaches to the end of the last token that was read (`finish_node`). -/
def finish (m : Marker) (kind : NodeKind) (data : Data) : Builder Ref := fun s =>
  finishAt m (max s.readEnd m.offset) kind data s

def close (m : Marker) (kind : NodeKind) (parts : Builder Data) : Builder Ref := do
  let data ← parts
  finish m kind data

/-- A node that starts here. -/
def node (kind : NodeKind) (parts : Builder Data) : Builder Ref := do
  let m ← start
  close m kind parts

/-! ## Repetition -/

/-- A part for a list. -/
def listed (m : Builder Ref) : Builder (List Ref) := do
  let part ← m
  return [part]

/-- A part for a list, if there is one. -/
def kept (m : Builder Ref) : Builder (List Ref) := do
  let part ← m
  return (part.map some).toList

/-- A list that is left out where it is empty. -/
def someOf (refs : List Ref) : Option (List Ref) := if refs.isEmpty then none else some refs

/-- What `turn` lists as long as the next token passes the test, in at most so many turns. -/
def manyAtMost (test : TokenKind → Bool) (turn : Builder (List Ref)) : Nat → Builder (List Ref)
  | 0 => return []
  | n + 1 => ifNext test
      (do
        let found ← turn
        let others ← manyAtMost test turn n
        return found ++ others)
      (return [])

def many (test : TokenKind → Bool) (turn : Builder (List Ref)) : Builder (List Ref) :=
  look fun c => manyAtMost test turn (c.rest.length - 1)

/-- What `turn` lists with commas between, each time if the next token passes the test, in at most
so many turns. -/
def separatedAtMost (test : TokenKind → Bool) (turn : Builder (List Ref)) :
    Nat → Builder (List Ref)
  | 0 => return []
  | n + 1 => ifNext test
      (do
        let found ← turn
        let others ← ifNext (· == .comma)
          (do
            let _ ← token
            separatedAtMost test turn n)
          (return [])
        return found ++ others)
      (return [])

def separated (test : TokenKind → Bool) (turn : Builder (List Ref)) : Builder (List Ref) :=
  look fun c => separatedAtMost test turn c.rest.length

/-- A part for a list; where no token is read for it, the next token is passed over. -/
def orSkip (m : Builder Ref) (problem : Problem) : Builder (List Ref) := do
  let before ← unread
  let found ← kept m
  let after ← unread
  if after = before then
    skip problem
    return found
  else return found

/-! ## Extension to the right -/

/-- How a node goes on: the kind of the larger node, and its data for the number of the node. -/
structure Extension where
  kind : NodeKind
  parts : (left : Ref) → Builder Data

/-- Makes `left` part of larger nodes, which all start at the marker, as long as the rule tells
how, at most so many times. -/
def extend (rule : Cursor → Option Extension) (m : Marker) : Nat → (left : Ref) → Builder Ref
  | 0, left => return left
  | n + 1, left => look fun c =>
    match rule c with
    | none => return left
    | some ext => do
      let larger ← close m ext.kind (ext.parts left)
      extend rule m n larger

end Builder

end Caret
