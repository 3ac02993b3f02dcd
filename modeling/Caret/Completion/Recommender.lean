import Caret.Context.Basic
/-!
# Recommenders

A recommender judges one keyword at a place: whether it may stand there (`is_valid_context`), and if
so whether it should be preselected (`should_preselect`). A recommender that finds the request
cancelled says no.

`this` and `base` start expressions and statements of an instance and name the other constructor
after the colon of a constructor; `this` also marks the receiver of an extension method. `ref`,
`out` and `params` start parameters, `ref` and `out` arguments too.
-/

namespace Caret

abbrev Judgement := Request (Except Stop Bool)

/-- Judges one keyword. -/
structure Recommender where
  keyword : Keyword
  /-- The keyword may stand at the offset. -/
  isValid : Nat → Context → Judgement
  /-- The keyword should be preselected; only asked where it is valid. -/
  isPreferred : Context → Judgement

structure Verdict where
  keyword : Keyword
  isValid : Bool
  preselect : Bool
deriving DecidableEq

namespace Recommender

def evaluate (r : Recommender) (c : Context) : Request (Except Stop Verdict) := do
  match ← r.isValid c.offset c with
  | .error stop => return .error stop
  | .ok false => return .ok ⟨r.keyword, false, false⟩
  | .ok true =>
    match ← r.isPreferred c with
    | .error stop => return .error stop
    | .ok preferred => return .ok ⟨r.keyword, true, preferred⟩

/-- The verdict of a recommender, where a crash is an error as any other (`evaluate_isolated`). -/
def contained (r : Recommender) (c : Context) : Request (Except CompletionError Verdict) := do
  return (← r.evaluate c).mapError (Stop.contained r.keyword)

end Recommender

/-! ## Rules -/

namespace Context

def startsInInstance (c : Context) : Bool :=
  c.inInstance && (c.allowsExpression || c.allowsStatement)

/-- The constructor of an instance whose initializer the target token opens
(`instance_constructor_of_initializer`). -/
def initializedConstructor (c : Context) : Ref :=
  let constructor := c.table.constructorOfColon c.target
  if c.table.isStatic constructor then none else constructor

/-- A modifier of a parameter may start at the offset. Nothing may if the request is cancelled. -/
def parameterModifierAt (c : Context) (offset : Nat) (onlyFirst : Bool) : Request Bool := do
  if ← Request.poll then return false
  return c.table.allowsParameterModifier offset c.left onlyFirst

def inStaticMethod (c : Context) : Bool :=
  let t := c.table
  let method := t.nodeAbove c.left (· == .methodDeclaration)
  let declaration := t.nodeAbove method NodeKind.isTypeDeclaration
  t.node? declaration == some .classDeclaration && t.isStatic method && t.isStatic declaration

/-- There is a method around the caret, and a type around that. -/
def inMethod (c : Context) : Bool :=
  let method := c.table.nodeAbove c.left (· == .methodDeclaration)
  method.isSome && (c.table.nodeAbove method NodeKind.isTypeDeclaration).isSome

/-- The receiver of an extension method may start here (`extension_receiver_parameter`): the first
parameter of a static method of a static class. -/
def extensionReceiver (c : Context) (offset : Nat) : Request Bool := do
  if !(← c.parameterModifierAt offset true) then return false
  if !c.inMethod then return false
  if ← Request.poll then return false
  return c.inStaticMethod

/-- The type around the caret is one of those expected here (`is_enclosing_type_inferred`). -/
def expectsEnclosingType (c : Context) : Judgement := do
  if c.inferred.isEmpty then return .ok false
  if ← Request.poll then return .ok false
  match observe (← c.model.askEnclosing c.offset) with
  | .error e => return .error (.error e)
  | .ok id => return .ok (id.any c.inferred.contains)

end Context

/-! ## The recommenders -/

namespace Recommender

def this : Recommender where
  keyword := .this
  isValid offset c := do
    if ← Request.poll then return .ok false
    if c.startsInInstance then return .ok true
    if c.initializedConstructor.isSome then return .ok true
    return .ok (← c.extensionReceiver offset)
  isPreferred c := c.expectsEnclosingType

/-- The recommender for `base`, which is never preselected. After the colon of a constructor it
needs a class. -/
def base : Recommender where
  keyword := .base
  isValid _ c := do
    if ← Request.poll then return .ok false
    return .ok (c.containingType.isSome &&
      (c.startsInInstance ||
        c.table.node? (c.table.parent c.initializedConstructor) == some .classDeclaration))
  isPreferred _ := pure (.ok false)

/-- The recommender for a modifier of parameters; `ref` and `out` may also start an argument. -/
def parameterModifier (k : Keyword) : Recommender where
  keyword := k
  isValid offset c := do
    if ← Request.poll then return .ok false
    if ← c.parameterModifierAt offset false then return .ok true
    return .ok ((k == .ref || k == .out) && c.table.allowsArgumentModifier c.target)
  isPreferred _ := pure (.ok false)

def of : Keyword → Recommender
  | .this => this
  | .base => base
  | .ref => parameterModifier .ref
  | .out => parameterModifier .out
  | .params => parameterModifier .params

def defaults : List Recommender := Keyword.all.map of

@[simp] theorem keyword_of (k : Keyword) : (of k).keyword = k := by cases k <;> rfl

end Recommender

end Caret
