import Caret.Proofs.Registration
import Caret.Proofs.Service
/-!
# Cancellation leaves all or nothing

While a completion request is served its recommenders may be asked at the same time, so that a step
of one comes between two steps of another, and the request may be cancelled at any moment: by
somebody outside, by the model or by a recommender (`MayComplete`). The program's own runs are
among these, whatever the order in which it asks (`mayDispatch_inOrder`, `mayComplete_run`).

However it goes, the result is that of the request when nobody observes that it is cancelled, or
nothing and a note that it was cancelled (`complete_allOrNothing`). The reason is that the flag is
not taken back. If it is unset at the last look then every look before found it unset, and if it is
set then everything is dropped. The building of the context alone may fail after the flag is set;
but a model that saw the flag says so, and is not at fault.
-/

namespace Caret

/-- The outcome has no suggestion, and says that the request was cancelled. -/
def Outcome.Dropped (o : Outcome) : Prop := o.items = [] ∧ o.cancelled = true

theorem Outcome.dropped_cancel (o : Outcome) : o.cancel.Dropped := ⟨rfl, rfl⟩

namespace ScriptedRegistry

/-! ## What may happen -/

/-- The recommenders may be asked with this outcome. The first flag says whether the request is
cancelled before, the second whether it is at the last look. -/
inductive MayDispatch {model : Model} (r : ScriptedRegistry model) (c : Context) :
    Bool → Outcome → Bool → Prop
  | stopped (before : Bool) : MayDispatch r c before .nothingCancelled true
  | asked {verdicts : List (Except CompletionError Verdict)} {after : Bool} :
      Stage.Reaches ⟨false, r.recommenders.map (·.contained c)⟩ ⟨after, verdicts.map .answer⟩ →
      MayDispatch r c false
        (let outcome := r.outcome (r.registry.keywords.zip verdicts)
          if after then outcome.cancel else outcome) after

/-- Completion may have this result. -/
inductive MayComplete {m : ScriptedModel} (r : ScriptedRegistry m.model) (t : NodeTable)
    (offset : Nat) : Bool → Except CompletionError Outcome → Bool → Prop
  | stopped (before : Bool) : MayComplete r t offset before (.ok .nothingCancelled) true
  | failed {e : CompletionError} {after : Bool} :
      Stage.Reaches ⟨false, [m.build t offset]⟩ ⟨after, [.answer (.error e)]⟩ →
      MayComplete r t offset false (.error e) after
  | built {c : Context} {between after : Bool} {o : Outcome} :
      Stage.Reaches ⟨false, [m.build t offset]⟩ ⟨between, [.answer (.ok c)]⟩ →
      MayDispatch r c between o after → MayComplete r t offset false (.ok o) after

/-! ## What then follows -/

section

variable {model : Model} {r : ScriptedRegistry model} {c : Context} {before after : Bool}
  {o : Outcome}

theorem MayDispatch.before_of_after (h : r.MayDispatch c before o false) : before = false := by
  cases h
  rfl

theorem MayDispatch.dropped (h : r.MayDispatch c before o true) : o.Dropped := by
  cases h with
  | stopped => exact ⟨rfl, rfl⟩
  | asked => exact Outcome.dropped_cancel _

end

end ScriptedRegistry

/-- Where the request is not cancelled in the end every script comes to its unobserved answer. -/
theorem Stage.Reaches.unobserved {α : Type} {before : Bool} {ss : List (Script α)} {as : List α}
    (h : Stage.Reaches ⟨before, ss⟩ ⟨false, as.map .answer⟩) : as = ss.map Script.unobserved := by
  have hviews : List.Forall₂ (Stage.Viewed before false) ss as := h.views
  clear h
  induction hviews with
  | nil => rfl
  | cons hview _ ih =>
    obtain ⟨v, -, ha, hcancelled⟩ := hview
    rw [List.map_cons, ← ih, ← ha, Script.run_of_uncancelled]
    simpa using hcancelled

namespace ScriptedRegistry

theorem zip_keywords {model : Model} (r : ScriptedRegistry model)
    (f : ScriptedRecommender model → Except CompletionError Verdict) :
    r.registry.keywords.zip (r.recommenders.map f) =
      r.recommenders.map fun x => (x.recommender.keyword, f x) := by
  unfold registry Registry.keywords
  simp only [List.map_map]
  rw [List.zip_map']
  rfl

theorem MayDispatch.unobserved {model : Model} {r : ScriptedRegistry model} {c : Context}
    {before : Bool} {o : Outcome} (h : r.MayDispatch c before o false) :
    o = (r.dispatch c).unobserved := by
  cases h with
  | asked hreaches =>
    rw [hreaches.unobserved, List.map_map, zip_keywords]
    show r.outcome _ = (Script.bind _ _).unobserved
    rw [Script.unobserved_bind, ScriptedRecommender.unobserved_findings]
    rfl

variable {m : ScriptedModel} {r : ScriptedRegistry m.model} {t : NodeTable} {offset : Nat}
  {before after : Bool}

/-- A failure while the context is built is that of the request when nobody observes anything. -/
theorem build_failed {e : CompletionError}
    (h : Stage.Reaches ⟨before, [m.build t offset]⟩ ⟨after, [.answer (.error e)]⟩) :
    (m.build t offset).unobserved = .error e := by
  have hviews : Stage.Views _ [Except.error e] _ := Stage.Reaches.views h
  cases hviews with
  | cons hview _ =>
    obtain ⟨v, -, ha, -⟩ := hview
    exact m.build_error ha

theorem unobserved_complete : (r.complete t offset).unobserved =
    match (m.build t offset).unobserved with
    | .error e => .error e
    | .ok c => .ok (r.dispatch c).unobserved := by
  show (Script.bind _ _).unobserved = _
  rw [Script.unobserved_bind]
  cases (m.build t offset).unobserved with
  | error e => rfl
  | ok c => exact Script.unobserved_map _ _

/-- The result is that of the request when nobody observes that it is cancelled, or nothing; and it
is nothing if the request was cancelled at the last look, unless the context could not be built. -/
def AllOrNothing (r : ScriptedRegistry m.model) (t : NodeTable) (offset : Nat)
    (result : Except CompletionError Outcome) (after : Bool) : Prop :=
  (result = (r.complete t offset).unobserved ∨ ∃ o, result = .ok o ∧ o.Dropped) ∧
  (after = true → (∀ e, result ≠ .error e) → ∃ o, result = .ok o ∧ o.Dropped)

theorem MayComplete.allOrNothing {result : Except CompletionError Outcome}
    (h : r.MayComplete t offset before result after) : r.AllOrNothing t offset result after := by
  cases h with
  | stopped =>
    have hdropped : Outcome.nothingCancelled.Dropped := ⟨rfl, rfl⟩
    exact ⟨.inr ⟨_, rfl, hdropped⟩, fun _ _ => ⟨_, rfl, hdropped⟩⟩
  | failed hbuild =>
    refine ⟨.inl ?_, fun _ hno => absurd rfl (hno _)⟩
    rw [unobserved_complete, build_failed hbuild]
  | built hbuild hdispatch =>
    cases after with
    | true => exact ⟨.inr ⟨_, rfl, hdispatch.dropped⟩, fun _ _ => ⟨_, rfl, hdispatch.dropped⟩⟩
    | false =>
      refine ⟨.inl ?_, fun hafter => nomatch hafter⟩
      -- the flag is unset at the last look, so it was unset when the context was built
      obtain rfl := hdispatch.before_of_after
      have hcontext : [Except.ok _] = _ := Stage.Reaches.unobserved hbuild
      simp only [List.map_cons, List.map_nil, List.cons.injEq, and_true] at hcontext
      rw [unobserved_complete, ← hcontext, hdispatch.unobserved]

/-! ## What the program does is among it -/

section

variable {model : Model} {r : ScriptedRegistry model} {c : Context}

/-- Where each recommender stands if the scripts that are left are known by the keyword. -/
def stage (r : ScriptedRegistry model) (cancelled : Bool)
    (left : Keyword → Script (Except CompletionError Verdict)) :
    Stage (Except CompletionError Verdict) :=
  ⟨cancelled, r.recommenders.map fun x => left x.recommender.keyword⟩

/-- One recommender is asked while the others wait. -/
theorem reaches_contained (hc : c.model = model) {x : ScriptedRecommender model}
    (hx : x ∈ r.recommenders) {left : Keyword → Script (Except CompletionError Verdict)}
    (hleft : left x.recommender.keyword = x.contained c) (v : RequestState) :
    Stage.Reaches (r.stage v.cancelled left)
      (r.stage (x.recommender.contained c v).2.cancelled
        (Function.update left x.recommender.keyword
          (.answer (x.recommender.contained c v).1))) := by
  obtain ⟨before, after, hr⟩ := List.append_of_mem hx
  have hnodup := r.nodup
  rw [hr, List.map_append, List.map_cons, List.nodup_middle, List.nodup_cons,
    ← List.map_append] at hnodup
  -- the scripts of the others stay as they are
  have hothers (ys : List (ScriptedRecommender model)) (hys : ∀ y ∈ ys, y ∈ before ++ after)
      (s : Script (Except CompletionError Verdict)) :
      (ys.map fun y => Function.update left x.recommender.keyword s y.recommender.keyword) =
        ys.map fun y => left y.recommender.keyword := by
    refine List.map_congr_left fun y hy => Function.update_of_ne ?_ _ _
    intro hkeyword
    exact hnodup.1 (List.mem_map.2 ⟨y, hys y hy, hkeyword⟩)
  unfold stage
  rw [hr, List.map_append, List.map_cons, List.map_append, List.map_cons, Function.update_self,
    hothers before (fun y => List.mem_append_left after),
    hothers after (fun y => List.mem_append_right before), hleft, ← x.run_contained hc]
  exact Stage.reaches_answer (x.contained c) v _ _

/-- The scripts that are left after some findings. -/
def leftAfter (left : Keyword → Script (Except CompletionError Verdict)) (fs : List Finding)
    (k : Keyword) : Script (Except CompletionError Verdict) :=
  match fs.find? (·.1 == k) with
  | some f => .answer f.2
  | none => left k

theorem keywords_findings (xs : List Recommender) (v : RequestState) :
    (findings c xs v).1.map (·.1) = xs.map (·.keyword) := by
  induction xs generalizing v with
  | nil => rfl
  | cons x xs ih => exact congrArg (x.keyword :: ·) (ih _)

theorem leftAfter_cons {left : Keyword → Script (Except CompletionError Verdict)}
    {fs : List Finding} {f : Finding} (hf : f.1 ∉ fs.map (·.1)) :
    leftAfter (Function.update left f.1 (.answer f.2)) fs = leftAfter left (f :: fs) := by
  funext k
  unfold leftAfter
  by_cases hk : f.1 = k
  · have hnone : fs.find? (·.1 == k) = none := by
      rw [List.find?_eq_none]
      intro g hg hkey
      exact hf (List.mem_map.2 ⟨g, hg, (eq_of_beq hkey).trans hk.symm⟩)
    rw [hnone, List.find?_cons_of_pos (by simpa using hk), ← hk, Function.update_self]
  · rw [List.find?_cons_of_neg (by simpa using hk), Function.update_of_ne (Ne.symm hk)]

theorem reaches_findings (hc : c.model = model) {order : List (ScriptedRecommender model)}
    {left : Keyword → Script (Except CompletionError Verdict)} (v : RequestState)
    (horder : ∀ x ∈ order, x ∈ r.recommenders ∧ left x.recommender.keyword = x.contained c)
    (hnodup : (order.map fun x => x.recommender.keyword).Nodup) :
    Stage.Reaches (r.stage v.cancelled left)
      (r.stage (findings c (order.map (·.recommender)) v).2.cancelled
        (leftAfter left (findings c (order.map (·.recommender)) v).1)) := by
  induction order generalizing left v with
  | nil => exact .refl
  | cons x order ih =>
    obtain ⟨hx, hleft⟩ := horder x List.mem_cons_self
    obtain ⟨hnew, hnodup'⟩ := List.nodup_cons.1 hnodup
    have hfirst := reaches_contained hc hx hleft v
    have hothers : ∀ y ∈ order, y ∈ r.recommenders ∧
        Function.update left x.recommender.keyword (.answer (x.recommender.contained c v).1)
          y.recommender.keyword = y.contained c := by
      intro y hy
      obtain ⟨hy', hlefty⟩ := horder y (List.mem_cons_of_mem x hy)
      refine ⟨hy', (Function.update_of_ne ?_ _ _).trans hlefty⟩
      intro hkeyword
      exact hnew (List.mem_map.2 ⟨y, hy, hkeyword⟩)
    have hrest := ih (x.recommender.contained c v).2 hothers hnodup'
    rw [leftAfter_cons (f := (x.recommender.keyword, (x.recommender.contained c v).1))] at hrest
    · exact hfirst.trans hrest
    · rw [keywords_findings, List.map_map]
      exact hnew

/-- The recommenders by their keywords. -/
theorem exists_left (r : ScriptedRegistry model) (c : Context) :
    ∃ left : Keyword → Script (Except CompletionError Verdict),
      ∀ x ∈ r.recommenders, left x.recommender.keyword = x.contained c := by
  classical
  refine ⟨fun k => if h : ∃ x ∈ r.recommenders, x.recommender.keyword = k then h.choose.contained c
    else .answer (.error (.fault "")), fun x hx => ?_⟩
  have hex : ∃ y ∈ r.recommenders, y.recommender.keyword = x.recommender.keyword := ⟨x, hx, rfl⟩
  simp only [dif_pos hex,
    List.inj_on_of_nodup_map r.nodup hex.choose_spec.1 hx hex.choose_spec.2]

/-- Each recommender's verdict is among the findings. -/
theorem exists_verdicts {order : List (ScriptedRecommender model)}
    (hperm : order.Perm r.recommenders) (v : RequestState) :
    ∃ verdict : Keyword → Except CompletionError Verdict, ∀ x ∈ r.recommenders,
      (findings c (order.map (·.recommender)) v).1.find? (·.1 == x.recommender.keyword) =
        some (x.recommender.keyword, verdict x.recommender.keyword) := by
  generalize hfs : (findings c (order.map (·.recommender)) v).1 = fs
  have hkeys := keywords_findings (c := c) (order.map (·.recommender)) v
  rw [hfs] at hkeys
  refine ⟨fun k => ((fs.find? (·.1 == k)).map (·.2)).getD (.error (.fault "")), fun x hx => ?_⟩
  have hmem : x.recommender.keyword ∈ fs.map (·.1) := by
    rw [hkeys, List.map_map]
    exact List.mem_map.2 ⟨x, hperm.mem_iff.2 hx, rfl⟩
  obtain ⟨f, hf, hkey⟩ := List.mem_map.1 hmem
  cases hfind : fs.find? (·.1 == x.recommender.keyword) with
  | none => exact absurd (List.find?_eq_none.1 hfind f hf) (by simp [hkey])
  | some g =>
    have hg : g.1 = x.recommender.keyword := eq_of_beq (List.find?_some hfind :)
    simp only [hfind, Option.map_some, Option.getD_some]
    rw [← hg]

/-- In the order of registration the findings are what they are in the order of asking. -/
theorem outcome_zip {fs : List Finding} {verdict : Keyword → Except CompletionError Verdict}
    (hfs : ∀ x ∈ r.recommenders, fs.find? (·.1 == x.recommender.keyword) =
      some (x.recommender.keyword, verdict x.recommender.keyword)) :
    r.outcome (r.registry.keywords.zip
      (r.recommenders.map fun x => verdict x.recommender.keyword)) = r.outcome fs := by
  have hzip : r.registry.keywords.zip (r.recommenders.map fun x => verdict x.recommender.keyword) =
      r.registry.recommenders.map fun x => (x.keyword, verdict x.keyword) := by
    rw [zip_keywords, registry, List.map_map]
    rfl
  have hnodup : (r.registry.recommenders.map (·.keyword)).Nodup := by
    rw [registry, List.map_map]
    exact r.nodup
  have hfs' : ∀ x ∈ r.registry.recommenders,
      fs.find? (·.1 == x.keyword) = some (x.keyword, verdict x.keyword) := by
    intro x hx
    obtain ⟨y, hy, rfl⟩ := List.mem_map.1 hx
    exact hfs y hy
  unfold outcome
  rw [hzip, Registry.arrange_eq hfs', Registry.arrange_eq fun x hx =>
    Registry.find?_map_finding (fun _ => rfl) hx hnodup]

/-- Whatever the order in which the recommenders are asked. -/
theorem mayDispatch_inOrder (hc : c.model = model) {order : List (ScriptedRecommender model)}
    (hperm : order.Perm r.recommenders) (v : RequestState) :
    r.MayDispatch c v.cancelled
      (r.registry.dispatchInOrder (order.map (·.recommender)) c v).1
      (r.registry.dispatchInOrder (order.map (·.recommender)) c v).2.cancelled := by
  unfold Registry.dispatchInOrder
  rw [Request.polled_apply]
  cases hp : (Request.poll v).1 with
  | true =>
    show r.MayDispatch c v.cancelled .nothingCancelled (Request.poll v).2.cancelled
    rw [Request.cancelled_poll, hp]
    exact .stopped v.cancelled
  | false =>
    -- the state `w` before the recommenders are asked, and the state `u` at the last look
    generalize hw : (Request.poll v).2 = w
    generalize hu : (findings c (order.map (·.recommender)) w).2 = u
    generalize hfs : (findings c (order.map (·.recommender)) w).1 = fs
    have hwc : w.cancelled = false := by rw [← hw, Request.cancelled_poll, hp]
    obtain ⟨left, hleft⟩ := r.exists_left c
    obtain ⟨verdict, hverdict⟩ := exists_verdicts (c := c) hperm w
    rw [hfs] at hverdict
    have hstart : r.stage w.cancelled left = ⟨false, r.recommenders.map (·.contained c)⟩ := by
      rw [hwc, stage, List.map_congr_left hleft]
    have hend : r.stage (Request.poll u).1 (leftAfter left fs) = ⟨(Request.poll u).1,
        (r.recommenders.map fun x => verdict x.recommender.keyword).map .answer⟩ := by
      rw [stage, List.map_map]
      refine congrArg _ (List.map_congr_left fun x hx => ?_)
      rw [leftAfter, hverdict x hx]
      rfl
    have hreaches : Stage.Reaches (r.stage w.cancelled left)
        (r.stage (Request.poll u).1 (leftAfter left fs)) := by
      have hasked := reaches_findings hc w (fun x hx => ⟨hperm.mem_iff.1 hx,
        hleft x (hperm.mem_iff.1 hx)⟩) ((hperm.map _).nodup_iff.2 r.nodup)
      rw [hfs, hu] at hasked
      exact hasked.trans (Stage.reaches_poll u _)
    rw [hstart, hend] at hreaches
    have hrun : (do
        let outcome := Outcome.ofFindings
          (r.registry.arrange (← findings c (order.map (·.recommender))))
        if ← Request.poll then return outcome.cancel
        return outcome : Request Outcome) w =
          (if (Request.poll u).1 then (r.outcome fs).cancel else r.outcome fs,
            (Request.poll u).2) := by
      rw [← hu, ← hfs]
      show (do if ← Request.poll then _ else _ : Request Outcome) _ = _
      rw [Request.polled_apply]
      split <;> rfl
    rw [Request.uncancelled_of_poll hp, if_neg (by simp), hrun, Request.cancelled_poll,
      ← outcome_zip hverdict]
    exact .asked hreaches

end

variable {m : ScriptedModel} {r : ScriptedRegistry m.model} {t : NodeTable} {offset : Nat}

/-- Completion may have the result that it has. -/
theorem mayComplete_run (options : Options) (v : RequestState) :
    r.MayComplete t offset v.cancelled
      (r.registry.complete t m.model offset options v).1
      (r.registry.complete t m.model offset options v).2.cancelled := by
  unfold Registry.complete
  rw [Request.polled_apply, ← m.run_build]
  cases hp : (Request.poll v).1 with
  | true =>
    show r.MayComplete t offset v.cancelled (.ok .nothingCancelled) (Request.poll v).2.cancelled
    rw [Request.cancelled_poll, hp]
    exact .stopped v.cancelled
  | false =>
    rw [Request.uncancelled_of_poll hp, if_neg (by simp)]
    generalize hw : (Request.poll v).2 = w
    have hwc : w.cancelled = false := by rw [← hw, Request.cancelled_poll, hp]
    have hreaches := Stage.reaches_answer (m.build t offset) w [] []
    rw [hwc] at hreaches
    have hmodel (c : Context) : ((m.build t offset).run w).1 = .ok c → c.model = m.model :=
      m.model_of_build
    show r.MayComplete t offset false ((_ : Request _) ((m.build t offset).run w).2).1
      ((_ : Request _) ((m.build t offset).run w).2).2.cancelled
    generalize ((m.build t offset).run w).2 = u at hreaches ⊢
    cases hb : ((m.build t offset).run w).1 with
    | error e =>
      rw [hb] at hreaches
      exact .failed hreaches
    | ok c =>
      rw [hb] at hreaches
      have horder := mayDispatch_inOrder (r := r) (hmodel c hb) (.refl r.recommenders) u
      exact .built hreaches horder

/-- Cancellation leaves all or nothing. Completion follows a script; the recommenders may be asked in
any order, and at the same time; and whatever then happens, the result is the one of the script when
nobody observes that the request is cancelled, or nothing. -/
theorem complete_allOrNothing {m : ScriptedModel} (r : ScriptedRegistry m.model) (t : NodeTable)
    (offset : Nat) (options : Options) :
    (r.complete t offset).run = r.registry.complete t m.model offset options ∧
    (∀ (c : Context) (order : List (ScriptedRecommender m.model)) (v : RequestState),
      c.model = m.model → order.Perm r.recommenders →
      r.MayDispatch c v.cancelled
        (r.registry.dispatchInOrder (order.map (·.recommender)) c v).1
        (r.registry.dispatchInOrder (order.map (·.recommender)) c v).2.cancelled) ∧
    (∀ v : RequestState,
      r.MayComplete t offset v.cancelled
        (r.registry.complete t m.model offset options v).1
        (r.registry.complete t m.model offset options v).2.cancelled) ∧
    ∀ before result after,
      r.MayComplete t offset before result after → r.AllOrNothing t offset result after :=
  ⟨r.run_complete t offset options, fun _ _ v hc hperm => mayDispatch_inOrder hc hperm v,
    mayComplete_run options, fun _ _ _ => MayComplete.allOrNothing⟩

/-- With the default registry, where a type of the text is expected, after any number of polls. -/
theorem complete_allOrNothing_default :
    ∃ (t : NodeTable) (m : ScriptedModel) (r : ScriptedRegistry m.model),
      t = .ofText "class C { void M() { C c = ; } }".toList ∧
      m.model = (Binding.ofTable t).model ∧ r.registry = Registry.default ∧
      ∀ polls, r.AllOrNothing t 27
        (Registry.default.complete t m.model 27 .default (.cancelledAfter polls)).1
        (Registry.default.complete t m.model 27 .default (.cancelledAfter polls)).2.cancelled := by
  refine ⟨_, .ofBinding _, .default _, rfl, rfl, rfl, fun polls => ?_⟩
  obtain ⟨-, -, hruns, hresults⟩ := complete_allOrNothing (.default _) _ 27 .default
  exact hresults _ _ _ (hruns (.cancelledAfter polls))

end ScriptedRegistry

end Caret
