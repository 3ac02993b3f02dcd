/-!
# Cancellation tokens

A token (`CancellationToken`) is a handle on a flag. Copies of a token share its flag, so cancelling
through one of them is seen through all, and through no others.
-/

namespace Caret

/-- Some tokens: the flags, and for each token the number of its flag. -/
structure CancellationTokens where
  flags : List Bool
  handles : List Nat
deriving DecidableEq

namespace CancellationTokens

def empty : CancellationTokens := ⟨[], []⟩

/-- Adds a token with a flag of its own. -/
def add (ts : CancellationTokens) (cancelled : Bool) : CancellationTokens :=
  ⟨ts.flags ++ [cancelled], ts.handles ++ [ts.flags.length]⟩

/-- Adds a copy of the `i`-th token, if there is one. -/
def copy? (ts : CancellationTokens) (i : Nat) : Option CancellationTokens :=
  ts.handles[i]?.map fun flag => { ts with handles := ts.handles ++ [flag] }

/-- Cancels through the `i`-th token, if there is one. -/
def cancel? (ts : CancellationTokens) (i : Nat) : Option CancellationTokens :=
  ts.handles[i]?.map fun flag => { ts with flags := ts.flags.set flag true }

def states (ts : CancellationTokens) : List Bool :=
  ts.handles.map fun flag => ts.flags[flag]?.getD false

/-- The wording for an operation that stopped because its token was cancelled. -/
def stoppedMessage : String := "operation was cancelled"

end CancellationTokens

end Caret
