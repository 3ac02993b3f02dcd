import Caret.Proofs.Answers
import Caret.Proofs.Script
/-!
# Those who serve a completion request

A type model, recommenders and a registry of them, given with the scripts that they follow: they
depend on nothing but what they are asked and on polls, and may cancel the request themselves. From
these comes the script of a whole completion request (`ScriptedRegistry.complete`); completion is
its run (`ScriptedRegistry.run_complete`).

The type model of a text and the default recommenders are of this form (`ScriptedModel.ofBinding`,
`ScriptedRegistry.registry_default`).
-/

namespace Caret

/-! ## The type model -/

/-- A type model with the scripts that it follows. It says that the request is cancelled exactly
when it has seen that. -/
structure ScriptedModel where
  model : Model
  enclosing : Nat → Script TypeAnswer
  resolve : Ref → Script TypeAnswer
  run_enclosing : ∀ offset, (enclosing offset).run = model.enclosing offset
  run_resolve : ∀ reference, (resolve reference).run = model.resolve reference
  enclosing_cancelled : ∀ offset v,
    ((enclosing offset).run v).1 = .error .cancelled ↔ (enclosing offset).seen v = true
  resolve_cancelled : ∀ reference v,
    ((resolve reference).run v).1 = .error .cancelled ↔ (resolve reference).seen v = true

namespace ScriptedModel

variable (m : ScriptedModel) {t : NodeTable} {offset : Nat} {v : RequestState} {c : Context}
  {e : CompletionError}

/-- How the types are inferred that a type reference tells. -/
def inferFrom (reference : Ref) : Script (Except CompletionError (List TypeId)) :=
  if reference.isNone then .answer (.ok [])
  else .ask .resolve ((m.resolve reference).map fun a =>
    (observe a).map fun id => (id.filter (· != TypeId.void)).toList)

/-- How the expected types at a place are inferred. -/
def infer (t : NodeTable) (offset : Nat) : Script (Except CompletionError (List TypeId)) :=
  let target := t.beforeTouchedWord (t.tokenBefore offset) offset
  if t.allowsExpression target then
    m.inferFrom (t.expectedType (t.containingType target) target)
  else .answer (.ok [])

/-- How the context of a place is built. -/
def build (t : NodeTable) (offset : Nat) : Script (Except CompletionError Context) :=
  (m.infer t offset).map fun ids => ids.map (Context.gathered t m.model offset)

theorem run_inferFrom (reference : Ref) :
    (m.inferFrom reference).run = Context.inferFrom m.model reference := by
  unfold inferFrom Context.inferFrom
  split
  · rfl
  · rw [Script.run, Script.run_map, m.run_resolve]
    rfl

theorem run_build (t : NodeTable) (offset : Nat) :
    (m.build t offset).run = Context.build t m.model offset := by
  simp only [build, infer, Context.build]
  split
  · rw [Script.run_map, m.run_inferFrom]
    rfl
  · rfl

/-- A fault of the model is one that it finds without seeing the request cancelled. -/
theorem inferFrom_error {reference : Ref}
    (h : ((m.inferFrom reference).run v).1 = .error e) :
    (m.inferFrom reference).unobserved = .error e := by
  unfold inferFrom at h ⊢
  split at h
  · cases h
  · rename_i hsome
    rw [if_neg hsome, Script.unobserved, Script.unobserved_map]
    rw [Script.run, Script.run_map] at h
    -- the model answers after the question is counted
    have hanswer : (observe ((m.resolve reference).run (Question.resolve.count v)).1).map
        (fun id => (id.filter (· != TypeId.void)).toList) = .error e := h
    have hseen : (m.resolve reference).seen (Question.resolve.count v) = false := by
      by_contra hseen
      rw [(m.resolve_cancelled reference _).2 (by simpa using hseen)] at hanswer
      cases hanswer
    rw [← Script.run_of_seen_false hseen]
    exact hanswer

theorem infer_error (h : ((m.infer t offset).run v).1 = .error e) :
    (m.infer t offset).unobserved = .error e := by
  simp only [infer] at h ⊢
  split at h
  · rename_i hallowed
    rw [if_pos hallowed]
    exact m.inferFrom_error h
  · cases h

theorem build_error (h : ((m.build t offset).run v).1 = .error e) :
    (m.build t offset).unobserved = .error e := by
  rw [build, Script.run_map_apply] at h
  rw [build, Script.unobserved_map]
  cases hi : ((m.infer t offset).run v).1 with
  | ok ids => rw [hi] at h; cases h
  | error e' =>
    rw [hi] at h
    rw [m.infer_error hi]
    exact h

theorem model_of_build (h : ((m.build t offset).run v).1 = .ok c) : c.model = m.model := by
  rw [build, Script.run_map_apply] at h
  cases hi : ((m.infer t offset).run v).1 with
  | error e => rw [hi] at h; cases h
  | ok ids => rw [hi] at h; cases h; rfl

/-- A script that asks nobody but polls once. -/
def pollOnce (answer : TypeAnswer) : Script TypeAnswer :=
  .polled (.answer (.error .cancelled)) (.answer answer)

theorem pollOnce_cancelled (id : Option TypeId) (v : RequestState) :
    ((pollOnce (.ok id)).run v).1 = .error .cancelled ↔ (pollOnce (.ok id)).seen v = true := by
  rw [pollOnce, Script.polled, Script.run_poll, Script.seen]
  cases (Request.poll v).1 with
  | true => exact ⟨fun _ => rfl, fun _ => rfl⟩
  | false =>
    constructor
    · intro h
      cases h
    · intro h
      cases h

/-- The type model of a text. -/
def ofBinding (b : Binding) : ScriptedModel where
  model := b.model
  enclosing offset := pollOnce (.ok (b.enclosing offset))
  resolve reference := pollOnce (.ok (b.resolve reference))
  run_enclosing _ := Script.run_polled rfl rfl
  run_resolve _ := Script.run_polled rfl rfl
  enclosing_cancelled _ := pollOnce_cancelled _
  resolve_cancelled _ := pollOnce_cancelled _

end ScriptedModel

/-! ## Recommenders -/

/-- A recommender with the scripts that it follows in the contexts of a model. -/
structure ScriptedRecommender (model : Model) where
  recommender : Recommender
  isValid : Nat → Context → Script (Except Stop Bool)
  isPreferred : Context → Script (Except Stop Bool)
  run_isValid : ∀ offset c, c.model = model →
    (isValid offset c).run = recommender.isValid offset c
  run_isPreferred : ∀ c, c.model = model → (isPreferred c).run = recommender.isPreferred c

namespace ScriptedRecommender

variable {model : Model} (x : ScriptedRecommender model) {c : Context}

/-- How a recommender comes to its verdict. -/
def evaluate (c : Context) : Script (Except Stop Verdict) :=
  (x.isValid c.offset c).bind fun
    | .error stop => .answer (.error stop)
    | .ok false => .answer (.ok ⟨x.recommender.keyword, false, false⟩)
    | .ok true => (x.isPreferred c).map fun
      | .error stop => .error stop
      | .ok preferred => .ok ⟨x.recommender.keyword, true, preferred⟩

/-- How a recommender comes to its verdict, where a crash is an error as any other. -/
def contained (c : Context) : Script (Except CompletionError Verdict) :=
  (x.evaluate c).map fun verdict => verdict.mapError (Stop.contained x.recommender.keyword)

theorem run_contained (hc : c.model = model) :
    (x.contained c).run = x.recommender.contained c := by
  rw [contained, Script.run_map, evaluate]
  refine congrArg (· >>= _) ?_
  refine Script.run_bind_of_run (x.run_isValid c.offset c hc) fun valid => ?_
  cases valid with
  | error stop => rfl
  | ok valid =>
    cases valid with
    | false => rfl
    | true =>
      show (Script.map _ (x.isPreferred c)).run = _
      rw [Script.run_map, x.run_isPreferred c hc]
      refine congrArg (_ >>= ·) (funext fun preferred => ?_)
      cases preferred <;> rfl

end ScriptedRecommender

/-! ## The registry -/

/-- Some findings, one recommender after the other. -/
def ScriptedRecommender.findings {model : Model} (c : Context) :
    List (ScriptedRecommender model) → Script (List Finding)
  | [] => .answer []
  | x :: xs => (x.contained c).bind fun verdict =>
      (findings c xs).map fun fs => (x.recommender.keyword, verdict) :: fs

theorem ScriptedRecommender.run_findings {model : Model} {c : Context} (hc : c.model = model)
    (xs : List (ScriptedRecommender model)) :
    (findings c xs).run = Caret.findings c (xs.map (·.recommender)) := by
  induction xs with
  | nil => rfl
  | cons x xs ih =>
    refine Script.run_bind_of_run (x.run_contained hc) fun verdict => ?_
    rw [Script.run_map, ih]

theorem ScriptedRecommender.unobserved_findings {model : Model} (c : Context)
    (xs : List (ScriptedRecommender model)) :
    (findings c xs).unobserved =
      xs.map fun x => (x.recommender.keyword, (x.contained c).unobserved) := by
  induction xs with
  | nil => rfl
  | cons x xs ih => rw [findings, Script.unobserved_bind, Script.unobserved_map, ih, List.map_cons]

/-- A registry of such recommenders, at most one for each keyword. -/
structure ScriptedRegistry (model : Model) where
  recommenders : List (ScriptedRecommender model)
  nodup : (recommenders.map fun x => x.recommender.keyword).Nodup

namespace ScriptedRegistry

/-- The registry. -/
def registry {model : Model} (r : ScriptedRegistry model) : Registry :=
  ⟨r.recommenders.map (·.recommender)⟩

/-- What becomes of the findings in the order of registration. -/
def outcome {model : Model} (r : ScriptedRegistry model) (fs : List Finding) : Outcome :=
  .ofFindings (r.registry.arrange fs)

/-- How the recommenders are asked one after the other. -/
def dispatch {model : Model} (r : ScriptedRegistry model) (c : Context) : Script Outcome :=
  .polled (.answer .nothingCancelled) ((ScriptedRecommender.findings c r.recommenders).bind fun fs =>
    .polled (.answer (r.outcome fs).cancel) (.answer (r.outcome fs)))

theorem run_dispatch {model : Model} (r : ScriptedRegistry model) {c : Context}
    (hc : c.model = model) (mode : DispatchMode) :
    (r.dispatch c).run = r.registry.dispatch c mode := by
  refine Script.run_polled rfl ?_
  refine Script.run_bind_of_run (ScriptedRecommender.run_findings hc r.recommenders) fun fs => ?_
  exact Script.run_polled rfl rfl

variable {m : ScriptedModel} (r : ScriptedRegistry m.model)

/-- How a completion request is served. -/
def complete (t : NodeTable) (offset : Nat) : Script (Except CompletionError Outcome) :=
  .polled (.answer (.ok .nothingCancelled)) ((m.build t offset).bind fun
    | .error e => .answer (.error e)
    | .ok c => (r.dispatch c).map .ok)

/-- Completion is the run of its script. -/
theorem run_complete (t : NodeTable) (offset : Nat) (options : Options) :
    (r.complete t offset).run = r.registry.complete t m.model offset options := by
  refine Script.run_polled rfl ?_
  rw [Script.run_bind, ← m.run_build]
  funext v
  have hmodel (c : Context) : ((m.build t offset).run v).1 = .ok c → c.model = m.model :=
    m.model_of_build
  show (Script.run _) ((m.build t offset).run v).2 = (_ : Request _) ((m.build t offset).run v).2
  refine congrFun ?_ _
  cases hb : ((m.build t offset).run v).1 with
  | error e => rfl
  | ok c =>
    show ((r.dispatch c).map Except.ok).run = _
    rw [Script.run_map, r.run_dispatch (hmodel c hb) options.dispatch]

end ScriptedRegistry

/-! ## The default recommenders -/

open Request

theorem Context.parameterModifierAt_scripted (c : Context) (offset : Nat) (onlyFirst : Bool) :
    Scripted (c.parameterModifierAt offset onlyFirst) := .polled (.pure _) (.pure _)

theorem Context.extensionReceiver_scripted (c : Context) (offset : Nat) :
    Scripted (c.extensionReceiver offset) := by
  refine .bind (c.parameterModifierAt_scripted offset true) fun allowed => ?_
  split
  · exact .pure _
  · split
    · exact .pure _
    · exact .polled (.pure _) (.pure _)

namespace Recommender

variable {m : ScriptedModel} {c : Context} (k : Keyword)

theorem isValid_scripted (offset : Nat) : Scripted ((of k).isValid offset c) := by
  have hmodifier (k : Keyword) : Scripted ((parameterModifier k).isValid offset c) := by
    refine .polled (.pure _) (.bind (c.parameterModifierAt_scripted offset false) fun allowed => ?_)
    split <;> exact .pure _
  cases k with
  | this =>
    refine .polled (.pure _) ?_
    split
    · exact .pure _
    · split
      · exact .pure _
      · exact .bind (c.extensionReceiver_scripted offset) fun _ => .pure _
  | base => exact .polled (.pure _) (.pure _)
  | ref | out | params => exact hmodifier _

theorem isPreferred_scripted (hc : c.model = m.model) : Scripted ((of k).isPreferred c) := by
  cases k with
  | this =>
    show Scripted c.expectsEnclosingType
    unfold Context.expectsEnclosingType
    split
    · exact .pure _
    · refine .polled (.pure _) (.bind (.bind (.count .enclosing) fun _ => ?_) fun answer => ?_)
      · exact ⟨m.enclosing c.offset, by rw [m.run_enclosing, hc]⟩
      · split <;> exact .pure _
  | base | ref | out | params => exact .pure _

end Recommender

open Classical in
/-- A default recommender with its scripts. -/
noncomputable def ScriptedRecommender.of (m : ScriptedModel) (k : Keyword) :
    ScriptedRecommender m.model where
  recommender := .of k
  isValid offset c := (Recommender.isValid_scripted (c := c) k offset).choose
  isPreferred c :=
    if hc : c.model = m.model then (Recommender.isPreferred_scripted k hc).choose
    else .answer (.ok false)
  run_isValid offset c _ := (Recommender.isValid_scripted k offset).choose_spec
  run_isPreferred c hc := by
    rw [dif_pos hc]
    exact (Recommender.isPreferred_scripted k hc).choose_spec

/-- The default registry with its scripts. -/
noncomputable def ScriptedRegistry.default (m : ScriptedModel) : ScriptedRegistry m.model where
  recommenders := Keyword.all.map (ScriptedRecommender.of m)
  nodup := by
    rw [List.map_map]
    have hkeywords : (fun x => x.recommender.keyword) ∘ ScriptedRecommender.of m = id :=
      funext Recommender.keyword_of
    rw [hkeywords, List.map_id]
    decide

theorem ScriptedRegistry.registry_default (m : ScriptedModel) :
    (default m).registry = Registry.default := rfl

end Caret
