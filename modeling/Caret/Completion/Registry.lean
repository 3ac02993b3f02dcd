import Caret.Completion.Recommender
/-!
# Registries

A registry (`RecommenderRegistry`) holds at most one recommender for each keyword, in the order in
which the keywords were registered first. Registering again replaces the recommender and keeps its
place.
-/

namespace Caret

structure Registry where
  recommenders : List Recommender

namespace Registry

def empty : Registry := ⟨[]⟩

def keywords (r : Registry) : List Keyword := r.recommenders.map (·.keyword)

def get? (r : Registry) (k : Keyword) : Option Recommender :=
  r.recommenders.find? (·.keyword == k)

def size (r : Registry) : Nat := r.recommenders.length

/-- Some recommenders with `x` in the place of the first one for its keyword, or at the end. -/
def insert (x : Recommender) : List Recommender → List Recommender
  | [] => [x]
  | y :: ys => if y.keyword = x.keyword then x :: ys else y :: insert x ys

/-- The registry with one more recommender, or with one replaced. -/
def register (r : Registry) (x : Recommender) : Registry := ⟨insert x r.recommenders⟩

/-- The recommender that is handed back when another one is registered: the one that it replaces. -/
def replaced (r : Registry) (x : Recommender) : Option Recommender := r.get? x.keyword

/-- The registry with one recommender for every keyword. -/
def default : Registry := Recommender.defaults.foldl register empty

theorem keywords_insert (x : Recommender) (ys : List Recommender) :
    (insert x ys).map (·.keyword) =
      if x.keyword ∈ ys.map (·.keyword) then ys.map (·.keyword)
      else ys.map (·.keyword) ++ [x.keyword] := by
  induction ys with
  | nil => simp [insert]
  | cons y ys ih =>
    by_cases h : y.keyword = x.keyword
    · simp [insert, h]
    · have h' : ¬x.keyword = y.keyword := fun e => h e.symm
      simp only [insert, h, if_false, List.map_cons, ih, List.mem_cons, h', false_or]
      split <;> simp

theorem keywords_register (r : Registry) (x : Recommender) :
    (r.register x).keywords =
      if x.keyword ∈ r.keywords then r.keywords else r.keywords ++ [x.keyword] :=
  keywords_insert x r.recommenders

end Registry

end Caret
