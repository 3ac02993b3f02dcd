import Caret.Completion.Recommender
/-!
# Outcomes

What a completion request finds (`CompletionOutcome`): the keywords to suggest, the recommenders
that failed, and whether the request was cancelled.
-/

namespace Caret

/-- The sort texts of suggestions; lower ones are shown first. -/
def sortText (preselect : Bool) : String := if preselect then "0" else "15"

structure Item where
  keyword : Keyword
  label : String
  preselect : Bool
  sortText : String
deriving DecidableEq

def Item.suggest (keyword : Keyword) (preselect : Bool) : Item :=
  ⟨keyword, keyword.text, preselect, Caret.sortText preselect⟩

structure Fault where
  keyword : Keyword
  error : CompletionError
deriving DecidableEq

structure Outcome where
  /-- The suggestions, the preselected ones first. -/
  items : List Item
  faults : List Fault
  cancelled : Bool
deriving DecidableEq

abbrev Finding := Keyword × Except CompletionError Verdict

namespace Finding

def item? : Finding → Option Item
  | (_, .ok v) => if v.isValid then some (.suggest v.keyword v.preselect) else none
  | (_, .error _) => none

def fault? : Finding → Option Fault
  | (_, .ok _) => none
  | (keyword, .error e) => some ⟨keyword, e⟩

end Finding

namespace Outcome

/-- The outcome of a request that was cancelled before anything was found. -/
def nothingCancelled : Outcome := ⟨[], [], true⟩

/-- The outcome of some findings, in their order but for the preselected suggestions. -/
def ofFindings (fs : List Finding) : Outcome :=
  let items := fs.filterMap Finding.item?
  ⟨items.filter (·.preselect) ++ items.filter (!·.preselect), fs.filterMap Finding.fault?, false⟩

/-- The outcome when it turns out that the request was cancelled: no suggestion holds. -/
def cancel (o : Outcome) : Outcome := { o with items := [], cancelled := true }

def item? (o : Outcome) (k : Keyword) : Option Item := o.items.find? (·.keyword == k)

def keywords (o : Outcome) : List Keyword := o.items.map (·.keyword)

end Outcome

end Caret
