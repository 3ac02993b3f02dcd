import Caret.Proofs.Answers
/-!
# A failing model is confined

A type model may answer a question with a type, with none, that the request is cancelled, or with a
fault. Completion asks two questions at most: which type the reference names that gives the expected
type, and, only for `this` and only where a type is expected, which type is around the caret. A
fault of the first answer fails the request, a fault of the second one leaves out `this`; a
cancelled answer counts as none. What is said of the other keywords does not depend on the model at
all (`Registry.complete_confined`).
-/

namespace Caret

/-! ## Counting questions -/

/-- The state of a request after some questions. -/
def RequestState.asked (s : RequestState) (enclosing resolve : Nat) : RequestState :=
  { s with enclosingAsked := s.enclosingAsked + enclosing, resolveAsked := s.resolveAsked + resolve }

theorem RequestState.Untroubled.asked {s : RequestState} (hs : s.Untroubled) (i j : Nat) :
    (s.asked i j).Untroubled := hs

namespace Request

variable {α β : Type} {m : Request α} {a : α} {f : α → Request β} {b : β} {i j i' j' : Nat}

/-- If nobody cancels the request, the computation gives `a`, and asks the model for the type around
a place and for that of a reference so many times. -/
def Asks (m : Request α) (enclosing resolve : Nat) (a : α) : Prop :=
  ∀ s : RequestState, s.Untroubled → m s = (a, s.asked enclosing resolve)

namespace Asks

theorem pure (a : α) : Asks (Pure.pure a) 0 0 a := fun _ _ => rfl

theorem bind (hm : Asks m i j a) (hf : Asks (f a) i' j' b) : Asks (m >>= f) (i + i') (j + j') b := by
  intro s hs
  show f (m s).1 (m s).2 = _
  rw [hm s hs, hf _ (hs.asked i j), RequestState.asked, RequestState.asked, RequestState.asked]
  simp only [Nat.add_assoc]

/-- What asks nothing goes on to a computation that asks. -/
theorem bind_left (hm : Asks m 0 0 a) (hf : Asks (f a) i j b) : Asks (m >>= f) i j b := by
  simpa only [Nat.zero_add] using hm.bind hf

theorem bind_right (hm : Asks m i j a) (hf : Asks (f a) 0 0 b) : Asks (m >>= f) i j b := hm.bind hf

/-- The two questions are asked one after the other. -/
theorem bind_apart (hm : Asks m 0 j a) (hf : Asks (f a) i 0 b) : Asks (m >>= f) i j b := by
  simpa only [Nat.zero_add, Nat.add_zero] using hm.bind hf

theorem poll : Asks poll 0 0 false := fun _ hs => poll_quiet hs.1 hs.2

theorem polled {stop next : Request β} (h : Asks next i j b) :
    Asks (do if ← Request.poll then stop else next) i j b := poll.bind_left h

end Asks

/-- If nobody cancels the request, the computation leaves it as it is. -/
def Silent (m : Request α) : Prop := ∀ s : RequestState, s.Untroubled → (m s).2 = s

namespace Silent

theorem pure (a : α) : Silent (Pure.pure a : Request α) := fun _ _ => rfl

theorem bind (hm : Silent m) (hf : ∀ a, Silent (f a)) : Silent (m >>= f) := by
  intro s hs
  show (f (m s).1 (m s).2).2 = s
  rw [hm s hs]
  exact hf _ s hs

theorem poll : Silent Request.poll := fun _ hs => by rw [poll_quiet hs.1 hs.2]

theorem asks (hm : Silent m) (ha : Answers m a) : Asks m 0 0 a :=
  fun s hs => Prod.ext (ha s hs).1 (hm s hs)

end Silent

end Request

open Request

/-! ## Models that may fail -/

/-- The model gives the answers to its questions, and leaves the request as it is. -/
structure Model.Says (m : Model) (enclosing : Nat → TypeAnswer) (resolve : Ref → TypeAnswer) :
    Prop where
  enclosing : ∀ offset, Asks (m.enclosing offset) 0 0 (enclosing offset)
  resolve : ∀ reference, Asks (m.resolve reference) 0 0 (resolve reference)

namespace Model.Says

variable {m : Model} {enclosing : Nat → TypeAnswer} {resolve : Ref → TypeAnswer}
  (h : m.Says enclosing resolve)

include h

theorem askEnclosing (offset : Nat) : Asks (m.askEnclosing offset) 1 0 (enclosing offset) :=
  .bind_right (a := ()) (fun _ _ => rfl) (h.enclosing offset)

theorem askResolve (reference : Ref) : Asks (m.askResolve reference) 0 1 (resolve reference) :=
  .bind_right (a := ()) (fun _ _ => rfl) (h.resolve reference)

end Model.Says

/-- The type reference that is resolved for an offset: the one that gives the expected type where an
expression may start. -/
def NodeTable.expectedReference (t : NodeTable) (offset : Nat) : Ref :=
  let target := t.beforeTouchedWord (t.tokenBefore offset) offset
  if t.allowsExpression target then t.expectedType (t.containingType target) target else none

/-! ## The context -/

namespace Context

variable {m : Model} {enclosing : Nat → TypeAnswer} {resolve : Ref → TypeAnswer}

/-- The expected types that an answer tells, or the fault. -/
def toldBy (answer : TypeAnswer) : Except CompletionError (List TypeId) :=
  (observe answer).map fun id => (id.filter (· != TypeId.void)).toList

/-- The types that are expected if references are resolved so and the given one tells them. -/
def inferredBy (resolve : Ref → TypeAnswer) : Ref → Except CompletionError (List TypeId)
  | none => .ok []
  | some i => toldBy (resolve (some i))

theorem inferFrom_asks (hm : m.Says enclosing resolve) (reference : Ref) :
    Asks (inferFrom m reference) 0 (if reference.isSome then 1 else 0)
      (inferredBy resolve reference) := by
  cases reference with
  | none => exact .pure _
  | some i => exact .bind_right (hm.askResolve (some i)) (.pure _)

theorem build_asks (hm : m.Says enclosing resolve) (t : NodeTable) (offset : Nat) :
    Asks (build t m offset) 0 (if (t.expectedReference offset).isSome then 1 else 0)
      ((inferredBy resolve (t.expectedReference offset)).map (gathered t m offset)) := by
  simp only [build, NodeTable.expectedReference]
  split
  · exact .bind_right (inferFrom_asks hm _) (.pure _)
  · exact .bind_right (.pure _) (.pure _)

/-- The caret is asked about: `this` may stand there and a type is expected. -/
def consults (c : Context) : Bool := c.admits .this && !c.inferred.isEmpty

/-- Whether `this` is preselected if it may stand at the place, or the fault. -/
def preferredBy (c : Context) (answer : TypeAnswer) : Except CompletionError Bool :=
  if c.inferred.isEmpty then .ok false else (observe answer).map fun id => id.any c.inferred.contains

theorem expectsEnclosingType_asks {c : Context} (hm : c.model.Says enclosing resolve) :
    Asks c.expectsEnclosingType (if c.inferred.isEmpty then 0 else 1) 0
      ((c.preferredBy (enclosing c.offset)).mapError .error) := by
  unfold expectsEnclosingType preferredBy
  split
  · exact .pure _
  · refine .polled (.bind_right (hm.askEnclosing c.offset) ?_)
    cases observe (enclosing c.offset) with
    | error e => exact .pure _
    | ok id => exact .pure _

theorem observe_eq_error {answer : TypeAnswer} {e : CompletionError} :
    observe answer = .error e ↔ ∃ message, e = .fault message ∧ answer = .error (.fault message) := by
  cases answer with
  | ok id => simp [observe]
  | error reason => cases reason <;> simp [observe, eq_comm]

/-- The types are not known if the reference is resolved with a fault. -/
theorem inferredBy_eq_error {reference : Ref} {e : CompletionError} :
    inferredBy resolve reference = .error e ↔ ∃ message, e = .fault message ∧ reference.isSome ∧
      resolve reference = .error (.fault message) := by
  cases reference with
  | none => simp [inferredBy]
  | some i =>
    have htold : inferredBy resolve (some i) = .error e ↔ observe (resolve (some i)) = .error e := by
      rw [inferredBy, toldBy]
      cases observe (resolve (some i)) <;> simp [Except.map]
    rw [htold, observe_eq_error]
    simp

theorem inferredBy_cancelled {reference : Ref} (h : resolve reference = .error .cancelled) :
    inferredBy resolve reference = .ok [] := by
  cases reference with
  | none => rfl
  | some i =>
    rw [inferredBy, h]
    rfl

theorem preferredBy_eq_error {c : Context} {answer : TypeAnswer} {e : CompletionError} :
    c.preferredBy answer = .error e ↔ c.inferred ≠ [] ∧ ∃ message, e = .fault message ∧
      answer = .error (.fault message) := by
  rw [preferredBy, ← observe_eq_error]
  cases c.inferred with
  | nil => simp
  | cons id ids => cases observe answer <;> simp [Except.map]

theorem preferredBy_cancelled (c : Context) : c.preferredBy (.error .cancelled) = .ok false := by
  unfold preferredBy
  split <;> rfl

theorem parameterModifierAt_silent (c : Context) (offset : Nat) (onlyFirst : Bool) :
    Silent (c.parameterModifierAt offset onlyFirst) :=
  .bind .poll fun stop => by cases stop <;> exact .pure _

theorem extensionReceiver_silent (c : Context) (offset : Nat) :
    Silent (c.extensionReceiver offset) := by
  refine .bind (c.parameterModifierAt_silent offset true) fun modifier => ?_
  cases modifier with
  | false => exact .pure _
  | true =>
    cases c.inMethod with
    | false => exact .pure _
    | true => exact .bind .poll fun stop => by cases stop <;> exact .pure _

end Context

/-! ## The recommenders -/

namespace Recommender

theorem isValid_silent (k : Keyword) (offset : Nat) (c : Context) :
    Silent ((of k).isValid offset c) := by
  have hmodifier (k : Keyword) : Silent ((parameterModifier k).isValid offset c) := by
    refine .bind .poll fun stop => ?_
    cases stop with
    | true => exact .pure _
    | false =>
      refine .bind (c.parameterModifierAt_silent offset false) fun modifier => ?_
      cases modifier <;> exact .pure _
  cases k with
  | this =>
    refine .bind .poll fun stop => ?_
    cases stop with
    | true => exact .pure _
    | false =>
      cases c.startsInInstance with
      | true => exact .pure _
      | false =>
        cases c.initializedConstructor.isSome with
        | true => exact .pure _
        | false => exact (c.extensionReceiver_silent offset).bind fun _ => .pure _
  | base => exact .bind .poll fun stop => by cases stop <;> exact .pure _
  | ref | out | params => exact hmodifier _

theorem isValid_asks (k : Keyword) (c : Context) :
    Asks ((of k).isValid c.offset c) 0 0 (.ok (c.admits k)) :=
  (isValid_silent k c.offset c).asks (isValid_answers k c)

variable {c : Context} {enclosing : Nat → TypeAnswer} {resolve : Ref → TypeAnswer}

/-- What is said of `this` if it should be preselected so, or failed. -/
def verdictOn (c : Context) (preferred : Except CompletionError Bool) :
    Except CompletionError Verdict :=
  if c.admits .this then preferred.map fun p => ⟨.this, true, p⟩ else .ok ⟨.this, false, false⟩

theorem this_asks (hm : c.model.Says enclosing resolve) :
    Asks ((of .this).contained c) (if c.consults then 1 else 0) 0
      (verdictOn c (c.preferredBy (enclosing c.offset))) := by
  have hvalid := isValid_asks .this c
  unfold verdictOn Context.consults
  cases hadmits : c.admits .this with
  | false =>
    rw [hadmits] at hvalid
    exact .bind_right (a := .ok ⟨.this, false, false⟩) (hvalid.bind_left (.pure _)) (.pure _)
  | true =>
    rw [hadmits] at hvalid
    have hpreferred := Context.expectsEnclosingType_asks hm
    have hcount : (if true && !c.inferred.isEmpty then 1 else 0) =
        if c.inferred.isEmpty then 0 else 1 := by cases c.inferred.isEmpty <;> rfl
    rw [hcount]
    cases hp : c.preferredBy (enclosing c.offset) with
    | error e =>
      rw [hp] at hpreferred
      exact .bind_right (a := .error (.error e))
        (hvalid.bind_left (.bind_right hpreferred (.pure _))) (.pure _)
    | ok p =>
      rw [hp] at hpreferred
      exact .bind_right (a := .ok ⟨.this, true, p⟩)
        (hvalid.bind_left (.bind_right hpreferred (.pure _))) (.pure _)

/-- Only `this` asks the model. -/
theorem contained_asks {k : Keyword} (hk : k ≠ .this) :
    Asks ((of k).contained c) 0 0 (.ok ⟨k, c.admits k, false⟩) := by
  have hvalid := isValid_asks k c
  have hpreferred : Asks ((of k).isPreferred c) 0 0 (.ok false) := by
    cases k with
    | this => exact absurd rfl hk
    | base | ref | out | params => exact .pure _
  refine .bind_right (a := .ok ⟨k, c.admits k, false⟩) (hvalid.bind_left ?_) (.pure _)
  cases c.admits k with
  | false =>
    simp only [keyword_of]
    exact .pure _
  | true =>
    refine hpreferred.bind_left ?_
    simp only [keyword_of]
    exact .pure _

end Recommender

/-! ## What is found -/

/-- The keywords that are never preselected. -/
def Keyword.others : List Keyword := [.base, .ref, .out, .params]

/-- The findings if `this` should be preselected so, or failed. -/
def foundBy (c : Context) (preferred : Except CompletionError Bool) : List Finding :=
  (.this, Recommender.verdictOn c preferred) :: found c (fun _ => false) Keyword.others

section Findings

variable {c : Context} {enclosing : Nat → TypeAnswer} {resolve : Ref → TypeAnswer}
  {preferred : Except CompletionError Bool}

theorem findings_others {ks : List Keyword} (hks : ∀ k ∈ ks, k ≠ .this) :
    Asks (findings c (ks.map Recommender.of)) 0 0 (found c (fun _ => false) ks) := by
  induction ks with
  | nil => exact .pure _
  | cons k ks ih =>
    simp only [List.map_cons, findings, Recommender.keyword_of]
    exact (Recommender.contained_asks (hks k (List.mem_cons_self ..))).bind_left
      (.bind_right (ih fun k hk => hks k (List.mem_cons_of_mem _ hk)) (.pure _))

theorem dispatch_asks (hm : c.model.Says enclosing resolve) (mode : DispatchMode) :
    Asks (Registry.default.dispatch c mode) (if c.consults then 1 else 0) 0
      (.ofFindings (foundBy c (c.preferredBy (enclosing c.offset)))) := by
  have hothers : Asks (findings c (Keyword.others.map Recommender.of)) 0 0 _ :=
    findings_others (c := c) (by decide)
  have hfindings : Asks (findings c (Keyword.all.map Recommender.of)) (if c.consults then 1 else 0) 0
      (foundBy c (c.preferredBy (enclosing c.offset))) :=
    .bind_right (Recommender.this_asks hm) (hothers.bind_left (.pure _))
  exact .polled (.bind_right hfindings (.polled (.pure _)))

theorem item?_verdictOn : Finding.item? (.this, Recommender.verdictOn c preferred) =
    if c.admits .this then preferred.toOption.map (Item.suggest .this) else none := by
  unfold Recommender.verdictOn
  split
  · cases preferred <;> rfl
  · rfl

/-- Only `this` may fail. -/
theorem faults_foundBy : (Outcome.ofFindings (foundBy c preferred)).faults =
    match preferred with
    | .error e => if c.admits .this then [⟨.this, e⟩] else []
    | .ok _ => [] := by
  have hothers : (found c (fun _ => false) Keyword.others).filterMap Finding.fault? = [] := rfl
  change (foundBy c preferred).filterMap Finding.fault? = _
  rw [foundBy, List.filterMap_cons, hothers, Recommender.verdictOn]
  cases c.admits .this <;> cases preferred <;> rfl

theorem length_faults_foundBy : (Outcome.ofFindings (foundBy c preferred)).faults.length ≤ 1 := by
  rw [faults_foundBy]
  cases preferred with
  | ok p => exact Nat.zero_le _
  | error e => cases c.admits .this <;> simp

theorem mem_faults_foundBy {answer : TypeAnswer} {f : Fault} :
    f ∈ (Outcome.ofFindings (foundBy c (c.preferredBy answer))).faults ↔ ∃ message,
      f = ⟨.this, .fault message⟩ ∧ c.consults ∧ answer = .error (.fault message) := by
  rw [faults_foundBy, Context.consults]
  constructor
  · intro hf
    cases hp : c.preferredBy answer with
    | ok p => rw [hp] at hf; cases hf
    | error e =>
      obtain ⟨hne, message, rfl, hanswer⟩ := Context.preferredBy_eq_error.1 hp
      rw [hp] at hf
      cases hadmits : c.admits .this with
      | false => rw [hadmits] at hf; cases hf
      | true =>
        rw [hadmits] at hf
        exact ⟨message, List.mem_singleton.1 hf, by simpa using hne, hanswer⟩
  · rintro ⟨message, rfl, hconsults, hanswer⟩
    rw [Bool.and_eq_true] at hconsults
    have hne : c.inferred ≠ [] := by simpa using hconsults.2
    rw [Context.preferredBy_eq_error.2 ⟨hne, message, rfl, hanswer⟩]
    simp [hconsults.1]

theorem mem_items_foundBy {i : Item} : i ∈ (Outcome.ofFindings (foundBy c preferred)).items ↔
    (c.admits .this ∧ ∃ p, preferred = .ok p ∧ i = .suggest .this p) ∨
      ∃ k ∈ Keyword.others, c.admits k ∧ i = .suggest k false := by
  have hothers : i ∈ (Keyword.others.filter c.admits).map (Item.suggest · false) ↔
      ∃ k ∈ Keyword.others, c.admits k ∧ i = .suggest k false := by
    simp only [List.mem_map, List.mem_filter, and_assoc]
    exact exists_congr fun k => and_congr_right fun _ => and_congr_right fun _ => eq_comm
  rw [Registry.mem_items_ofFindings, foundBy, List.filterMap_cons, item?_verdictOn, items_found]
  cases c.admits .this with
  | false => simp [hothers]
  | true =>
    cases preferred with
    | error e => simp [Except.toOption, hothers]
    | ok p => simp [Except.toOption, hothers]

theorem foundBy_ok_false (c : Context) :
    (Outcome.ofFindings (foundBy c (.ok false))).faults = [] ∧
      ∀ i ∈ (Outcome.ofFindings (foundBy c (.ok false))).items, i.preselect = false := by
  refine ⟨faults_foundBy, fun i hi => ?_⟩
  rcases mem_items_foundBy.1 hi with ⟨-, p, hp, rfl⟩ | ⟨k, -, -, rfl⟩
  · cases hp
    rfl
  · rfl

/-- The suggestions of the other keywords are the same whatever is said of `this`. -/
theorem filter_items_foundBy :
    (Outcome.ofFindings (foundBy c preferred)).items.filter (·.keyword != .this) =
      (Keyword.others.filter c.admits).map (Item.suggest · false) := by
  have hothers : ∀ i ∈ (Keyword.others.filter c.admits).map (Item.suggest · false),
      i.preselect = false ∧ i.keyword ≠ .this := by
    intro i hi
    obtain ⟨k, hk, rfl⟩ := List.mem_map.1 hi
    have hne : ∀ k ∈ Keyword.others, k ≠ .this := by decide
    exact ⟨rfl, hne k (List.mem_filter.1 hk).1⟩
  rw [Outcome.ofFindings, foundBy, List.filterMap_cons, item?_verdictOn, items_found]
  generalize (Keyword.others.filter c.admits).map (Item.suggest · false) = items at hothers ⊢
  have hfirst : items.filter (·.preselect) = [] :=
    List.filter_eq_nil_iff.2 fun i hi => by simp [(hothers i hi).1]
  have hlater : items.filter (!·.preselect) = items :=
    List.filter_eq_self.2 fun i hi => by simp [(hothers i hi).1]
  have hall : items.filter (·.keyword != .this) = items :=
    List.filter_eq_self.2 fun i hi => by simp [(hothers i hi).2]
  split
  · simp only [hfirst, hlater, hall, List.nil_append]
  · rename_i i hi
    have hi : i.keyword = .this := by
      cases hadmits : c.admits .this with
      | false => rw [hadmits] at hi; cases hi
      | true =>
        rw [hadmits, if_pos rfl] at hi
        obtain ⟨p, -, rfl⟩ := Option.map_eq_some_iff.1 hi
        rfl
    cases hp : i.preselect <;> simp [hp, hi, hfirst, hlater, hall]

end Findings

/-! ## The rule -/

/-- `this` may stand at an offset, and a type is expected there. -/
def Registry.Consults (t : NodeTable) (m : Model) (offset : Nat) (s : RequestState) : Prop :=
  ∃ c, (Context.build t m offset s).1 = .ok c ∧
    (Recommender.this.isValid c.offset c s).1 = .ok true ∧ c.inferred ≠ []

/-- What the answers of a model do to a request in the state `s` that has the given result and is
left in the state `s'`. -/
structure Registry.Confined (t : NodeTable) (m : Model) (offset : Nat) (s : RequestState)
    (enclosing : Nat → TypeAnswer) (resolve : Ref → TypeAnswer)
    (result : Except CompletionError Outcome) (s' : RequestState) : Prop where
  /-- One reference is resolved at most. -/
  resolved : s'.resolveAsked =
    s.resolveAsked + if (t.expectedReference offset).isSome then 1 else 0
  /-- The type around the caret is asked for once. -/
  asked : Consults t m offset s → s'.enclosingAsked = s.enclosingAsked + 1
  notAsked : ¬Consults t m offset s → s'.enclosingAsked = s.enclosingAsked
  /-- The request fails exactly if the reference is resolved with a fault. -/
  failed : ∀ error, result = .error error ↔ ∃ message, error = .fault message ∧
    (t.expectedReference offset).isSome ∧
    resolve (t.expectedReference offset) = .error (.fault message)
  uncancelled : ∀ outcome, result = .ok outcome → outcome.cancelled = false
  once : ∀ outcome, result = .ok outcome → outcome.faults.length ≤ 1
  /-- Only `this` may fail, with the fault of the other question. -/
  faults : ∀ outcome, result = .ok outcome → ∀ f, f ∈ outcome.faults ↔ ∃ message,
    f = ⟨.this, .fault message⟩ ∧ Consults t m offset s ∧
      enclosing offset = .error (.fault message)
  /-- A cancelled answer counts as none: it fails nothing, and nothing is preselected. -/
  resolveCancelled : resolve (t.expectedReference offset) = .error .cancelled →
    ∃ outcome, result = .ok outcome ∧ outcome.faults = [] ∧
      ∀ i ∈ outcome.items, i.preselect = false
  enclosingCancelled : enclosing offset = .error .cancelled → ∀ outcome, result = .ok outcome →
    outcome.faults = [] ∧ ∀ i ∈ outcome.items, i.preselect = false

namespace Registry

variable {m : Model} {enclosing : Nat → TypeAnswer} {resolve : Ref → TypeAnswer}

/-- Completion is told by the answers. -/
theorem complete_asks (hm : m.Says enclosing resolve) (t : NodeTable) (offset : Nat)
    (options : Options) :
    match Context.inferredBy resolve (t.expectedReference offset) with
    | .error e => Asks (default.complete t m offset options) 0
        (if (t.expectedReference offset).isSome then 1 else 0) (.error e)
    | .ok ids => ∃ c, c = Context.gathered t m offset ids ∧
        Asks (default.complete t m offset options) (if c.consults then 1 else 0)
          (if (t.expectedReference offset).isSome then 1 else 0)
          (.ok (.ofFindings (foundBy c (c.preferredBy (enclosing offset))))) := by
  have hbuild := Context.build_asks hm t offset
  cases hids : Context.inferredBy resolve (t.expectedReference offset) with
  | error e =>
    rw [hids] at hbuild
    exact .polled (.bind_right hbuild (.pure _))
  | ok ids =>
    rw [hids] at hbuild
    exact ⟨_, rfl, .polled (.bind_apart hbuild
      (.bind_right (dispatch_asks hm options.dispatch) (.pure _)))⟩

/-- The caret is asked about where the context says so. -/
theorem consults_iff (hm : m.Says enclosing resolve) {t : NodeTable} {offset : Nat}
    {s : RequestState} (hs : s.Untroubled) : Consults t m offset s ↔
      ∃ ids, Context.inferredBy resolve (t.expectedReference offset) = .ok ids ∧
        (Context.gathered t m offset ids).consults := by
  have hvalid (c : Context) :
      (Recommender.this.isValid c.offset c s).1 = .ok true ↔ c.admits .this := by
    rw [show Recommender.this = .of .this from rfl, Recommender.isValid_asks .this c s hs]
    simp
  simp only [Consults, Context.build_asks hm t offset s hs, hvalid]
  cases Context.inferredBy resolve (t.expectedReference offset) with
  | error e => simp [Except.map]
  | ok ids => simp [Except.map, Context.consults, Context.gathered]

section Requests

variable (hm : m.Says enclosing resolve) (t : NodeTable) (offset : Nat) (options : Options)
  {s : RequestState} (hs : s.Untroubled)

include hm hs

/-- The suggestions of the other keywords do not depend on what the model answers. -/
theorem filter_items_complete {outcome : Outcome}
    (h : (default.complete t m offset options s).1 = .ok outcome) (m' : Model) :
    outcome.items.filter (·.keyword != .this) =
      (Keyword.others.filter (Context.gathered t m' offset []).admits).map (Item.suggest · false) := by
  have hasks := complete_asks hm t offset options
  cases hids : Context.inferredBy resolve (t.expectedReference offset) with
  | error e =>
    rw [hids] at hasks
    rw [hasks s hs] at h
    cases h
  | ok ids =>
    rw [hids] at hasks
    obtain ⟨c, rfl, hasks⟩ := hasks
    rw [hasks s hs] at h
    obtain rfl := Except.ok.inj h
    have hadmits : ∀ k ∈ Keyword.others, (Context.gathered t m offset ids).admits k =
        (Context.gathered t m' offset []).admits k := by
      intro k _
      cases k <;> rfl
    rw [filter_items_foundBy, List.filter_congr hadmits]

/-- A fault of the expected type fails the request before the caret is asked about. -/
theorem confined_of_error {e : CompletionError}
    (hids : Context.inferredBy resolve (t.expectedReference offset) = .error e) :
    Confined t m offset s enclosing resolve
      (default.complete t m offset options s).1 (default.complete t m offset options s).2 := by
  have hasks := complete_asks hm t offset options
  have hconsults : Consults t m offset s ↔ _ := consults_iff hm hs
  rw [hids] at hasks hconsults
  have hno : ¬Consults t m offset s := by simp [hconsults]
  obtain ⟨message, rfl, hsome, hresolve⟩ := Context.inferredBy_eq_error.1 hids
  rw [hasks s hs]
  constructor
  case resolved => rfl
  case asked => exact fun h => absurd h hno
  case notAsked => exact fun _ => rfl
  case failed =>
    intro error
    rw [← Context.inferredBy_eq_error, hids]
    constructor <;> rintro ⟨⟩ <;> rfl
  case uncancelled => rintro outcome ⟨⟩
  case once => rintro outcome ⟨⟩
  case faults => rintro outcome ⟨⟩
  case resolveCancelled =>
    intro hcancelled
    rw [hresolve] at hcancelled
    cases hcancelled
  case enclosingCancelled => rintro - outcome ⟨⟩

theorem confined_of_ok {ids : List TypeId}
    (hids : Context.inferredBy resolve (t.expectedReference offset) = .ok ids) :
    Confined t m offset s enclosing resolve
      (default.complete t m offset options s).1 (default.complete t m offset options s).2 := by
  have hasks := complete_asks hm t offset options
  have hconsults : Consults t m offset s ↔ _ := consults_iff hm hs
  rw [hids] at hasks hconsults
  obtain ⟨c, hc, hasks⟩ := hasks
  have hconsults : Consults t m offset s ↔ c.consults := by simp [hconsults, hc]
  rw [hasks s hs]
  constructor
  case resolved => rfl
  case asked =>
    intro h
    rw [hconsults] at h
    simp [RequestState.asked, h]
  case notAsked =>
    intro h
    rw [hconsults] at h
    simp [RequestState.asked, h]
  case failed =>
    intro error
    rw [← Context.inferredBy_eq_error, hids]
    exact iff_of_false nofun nofun
  case uncancelled =>
    rintro outcome ⟨⟩
    rfl
  case once =>
    rintro outcome ⟨⟩
    exact length_faults_foundBy
  case faults =>
    rintro outcome ⟨⟩ f
    rw [hconsults]
    exact mem_faults_foundBy
  case resolveCancelled =>
    intro hcancelled
    have hnone : c.inferred = [] := by
      rw [Context.inferredBy_cancelled hcancelled] at hids
      rw [hc, ← Except.ok.inj hids]
      rfl
    have hpreferred : c.preferredBy (enclosing offset) = .ok false := by
      rw [Context.preferredBy, hnone]
      rfl
    rw [hpreferred]
    exact ⟨_, rfl, foundBy_ok_false c⟩
  case enclosingCancelled =>
    rintro hcancelled outcome ⟨⟩
    rw [hcancelled, Context.preferredBy_cancelled]
    exact foundBy_ok_false c

theorem confined : Confined t m offset s enclosing resolve
    (default.complete t m offset options s).1 (default.complete t m offset options s).2 := by
  cases hids : Context.inferredBy resolve (t.expectedReference offset) with
  | error e => exact confined_of_error hm t offset options hs hids
  | ok ids => exact confined_of_ok hm t offset options hs hids

end Requests

/-- The answers of a model change nothing but what is said of `this`, and fail the request only if
the expected type is not known for a fault. -/
theorem complete_confined (t : NodeTable) (offset : Nat) (options : Options)
    (hm : m.Says enclosing resolve) {s : RequestState} (hs : s.Untroubled) :
    Confined t m offset s enclosing resolve (default.complete t m offset options s).1
      (default.complete t m offset options s).2 ∧
    ∀ (m' : Model) (enclosing' : Nat → TypeAnswer) (resolve' : Ref → TypeAnswer),
      m'.Says enclosing' resolve' → ∀ s' : RequestState, s'.Untroubled → ∀ outcome outcome',
        (default.complete t m offset options s).1 = .ok outcome →
        (default.complete t m' offset options s').1 = .ok outcome' →
          outcome.items.filter (·.keyword != .this) =
            outcome'.items.filter (·.keyword != .this) := by
  refine ⟨confined hm t offset options hs, fun m' enclosing' resolve' hm' s' hs' o o' ho ho' => ?_⟩
  rw [filter_items_complete hm t offset options hs ho m,
    filter_items_complete hm' t offset options hs' ho' m]

/-- A type is expected behind `return`, and the type around is not known. -/
def returnText : List Char := "class A\x7bA M()\x7breturn \x7d\x7d".toList

/-- A model that knows the expected type only. -/
def halfBroken : Model where
  enclosing _ := pure (.error (.fault "down"))
  resolve _ := pure (.ok (some (Binding.idAt 0)))
  typeName _ := none

theorem complete_confined_return : ∃ outcome,
    (default.complete (.ofText returnText) halfBroken 21 .default .quiet).1 = .ok outcome ∧
      ⟨.this, .fault "down"⟩ ∈ outcome.faults := by
  have hm : halfBroken.Says (fun _ => .error (.fault "down")) fun _ => .ok (some (Binding.idAt 0)) :=
    ⟨fun _ => .pure _, fun _ => .pure _⟩
  have hreference : (NodeTable.ofText returnText).expectedReference 21 = some 4 := by decide +kernel
  have hinferred : Context.inferredBy (fun _ => .ok (some (Binding.idAt 0)))
      ((NodeTable.ofText returnText).expectedReference 21) = .ok [Binding.idAt 0] := by
    rw [hreference]
    rfl
  have hconsults : Consults (.ofText returnText) halfBroken 21 .quiet :=
    (consults_iff hm RequestState.untroubled_quiet).2 ⟨_, hinferred, by decide +kernel⟩
  obtain ⟨h, -⟩ := complete_confined (.ofText returnText) 21 .default hm RequestState.untroubled_quiet
  cases hresult : (default.complete (.ofText returnText) halfBroken 21 .default .quiet).1 with
  | error e =>
    obtain ⟨message, -, -, hresolve⟩ := (h.failed e).1 hresult
    cases hresolve
  | ok outcome => exact ⟨outcome, rfl, (h.faults outcome hresult _).2 ⟨_, rfl, hconsults, rfl⟩⟩

end Registry

end Caret
