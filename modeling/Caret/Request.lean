/-!
# Requests

A request can be cancelled at any moment. Those who serve it poll for that (`is_cancelled`), and
what they answer may depend on nothing else that changes while they run. So a request is a
computation over a `RequestState`: whether it is cancelled, and, if somebody is about to cancel it,
how many polls come before that. The state also counts the questions that a type model is asked.
-/

namespace Caret

structure RequestState where
  cancelled : Bool
  /-- After how many more polls the request is cancelled from outside; `none` for never. -/
  pollsLeft : Option Nat
  /-- How often the type around a place was asked for. -/
  enclosingAsked : Nat
  /-- How often a type reference was to be resolved. -/
  resolveAsked : Nat
deriving DecidableEq

namespace RequestState

/-- A request that nobody cancels from outside. -/
def quiet : RequestState := ⟨false, none, 0, 0⟩

/-- A request that is cancelled before it starts. -/
def alreadyCancelled : RequestState := ⟨true, none, 0, 0⟩

/-- A request that is cancelled from outside after some polls. -/
def cancelledAfter (polls : Nat) : RequestState := ⟨false, some polls, 0, 0⟩

def start (cancelled : Bool) : RequestState := if cancelled then alreadyCancelled else quiet

end RequestState

abbrev Request := StateM RequestState

namespace Request

/-- Whether the request is cancelled. Once it is, it stays so. -/
def poll : Request Bool := fun s =>
  if s.cancelled then (true, s)
  else match s.pollsLeft with
    | none => (false, s)
    | some 0 => (true, { s with cancelled := true })
    | some (n + 1) => (false, { s with pollsLeft := some n })

def cancel : Request Unit := modify fun s => { s with cancelled := true }

/-- Whether one of `count` polls finds the request cancelled. -/
def pollTimes : (count : Nat) → Request Bool
  | 0 => pure false
  | n + 1 => do if ← poll then pure true else pollTimes n

theorem poll_of_cancelled {s : RequestState} (h : s.cancelled) : poll s = (true, s) := by
  simp [poll, h]

theorem cancelled_of_poll {s : RequestState} (h : (poll s).1) : (poll s).2.cancelled := by
  unfold poll at h ⊢
  split
  · assumption
  · split <;> simp_all

theorem poll_quiet {s : RequestState} (h : s.cancelled = false) (never : s.pollsLeft = none) :
    poll s = (false, s) := by
  simp [poll, h, never]

end Request

end Caret
