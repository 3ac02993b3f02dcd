import Caret.Completion.Outcome
import Caret.Completion.Registry
/-!
# Completion

A request (`complete`) gathers the context of a place and asks every recommender about it
(`dispatch`). The recommenders do
not depend on each other, so they may be asked in any order: the outcome lists what they find in
the order of registration. A recommender that fails is left out, and only it. A request that is
cancelled on the way suggests nothing.
-/

namespace Caret

inductive DispatchMode where
  | sequential | parallel
deriving DecidableEq

def DispatchMode.name : DispatchMode → String
  | .sequential => "sequential"
  | .parallel => "parallel"

structure Options where
  dispatch : DispatchMode
deriving DecidableEq

/-- The choices of a request that makes none. -/
def Options.default : Options := ⟨.parallel⟩

def findings (c : Context) : List Recommender → Request (List Finding)
  | [] => pure []
  | r :: rs => do
    let verdict ← r.contained c
    return (r.keyword, verdict) :: (← findings c rs)

namespace Registry

/-- The findings in the order of registration. -/
def arrange (r : Registry) (fs : List Finding) : List Finding :=
  r.keywords.filterMap fun k => fs.find? (·.1 == k)

/-- Asks the recommenders in the given order, which should be one of all that are registered. -/
def dispatchInOrder (r : Registry) (order : List Recommender) (c : Context) :
    Request Outcome := do
  if ← Request.poll then return .nothingCancelled
  let outcome := Outcome.ofFindings (r.arrange (← findings c order))
  if ← Request.poll then return outcome.cancel
  return outcome

/-- Asks the recommenders; what they find does not depend on how they are run. -/
def dispatch (r : Registry) (c : Context) (_ : DispatchMode) : Request Outcome :=
  r.dispatchInOrder r.recommenders c

/-- Completes at an offset. A fault of the model in building the context fails the request. -/
def complete (r : Registry) (table : NodeTable) (model : Model) (offset : Nat)
    (options : Options) : Request (Except CompletionError Outcome) := do
  if ← Request.poll then return .ok .nothingCancelled
  match ← Context.build table model offset with
  | .error e => return .error e
  | .ok c => return .ok (← r.dispatch c options.dispatch)

end Registry

end Caret
