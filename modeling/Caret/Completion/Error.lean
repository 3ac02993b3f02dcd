import Caret.Keyword
import Caret.Types.Model
/-!
# Errors of recommenders

That a keyword does not fit, or that the request is cancelled, is an ordinary answer. An error
(`CompletionError`) is left only where somebody could not answer at all.
-/

namespace Caret

inductive CompletionError where
  /-- The type model could not answer. -/
  | fault (message : String)
  /-- The recommender for a keyword crashed. -/
  | crashed (keyword : Keyword) (message : String)
deriving DecidableEq

def CompletionError.message : CompletionError → String
  | .fault message => "semantic model fault: " ++ message
  | .crashed keyword message => "recommender for '" ++ keyword.text ++ "' panicked: " ++ message

/-- How a recommender stops without an answer: it reports an error, or it crashes, with or without
a message. -/
inductive Stop where
  | error (e : CompletionError)
  | crash (message : Option String)
deriving DecidableEq

def unknownCrash : String := "unknown panic"

/-- What remains of a stop outside the recommender for a keyword. -/
def Stop.contained (keyword : Keyword) : Stop → CompletionError
  | .error e => e
  | .crash message => .crashed keyword (message.getD unknownCrash)

/-- What a caller sees of a model's answer: a cancelled question has no answer, and only a fault is
an error. -/
def observe : TypeAnswer → Except CompletionError (Option TypeId)
  | .ok id => .ok id
  | .error .cancelled => .ok none
  | .error (.fault message) => .error (.fault message)

end Caret
