import Caret.Request
import Mathlib.Data.List.Forall2
import Mathlib.Logic.Relation
/-!
# Serving a request step by step

Those who serve a request learn nothing that changes but whether it is cancelled: what they do is a
script of polls, and of cancelling the request themselves. Several scripts may be followed at the
same time (`dispatch` in parallel), a step of one and then a step of another, while somebody outside
cancels the request between any two steps (`Stage.Step`).

The flag is never taken back. So for each of them it is as if he were alone and the request were
cancelled after some number of his own polls, and the flag is set at the end if he left it so
(`Stage.Reaches.views`).
-/

namespace Caret

/-- A question that is put to a type model. -/
inductive Question where
  | enclosing | resolve

/-- Counts a question. -/
def Question.count : Question → RequestState → RequestState
  | .enclosing, s => { s with enclosingAsked := s.enclosingAsked + 1 }
  | .resolve, s => { s with resolveAsked := s.resolveAsked + 1 }

/-- What is done to come to an answer. -/
inductive Script (α : Type) where
  | answer (a : α)
  /-- Polls, and goes on as the poll says. -/
  | poll (next : Bool → Script α)
  /-- Cancels the request, and goes on. -/
  | cancel (next : Script α)
  /-- Puts a question, which is counted, and goes on. -/
  | ask (question : Question) (next : Script α)

variable {α β : Type}

namespace Script

/-- The computation that follows a script. -/
def run : Script α → Request α
  | answer a => pure a
  | poll next => Request.poll >>= fun cancelled => (next cancelled).run
  | cancel next => Request.cancel >>= fun _ => next.run
  | ask question next => modify question.count >>= fun _ => next.run

theorem run_poll (next : Bool → Script α) (v : RequestState) :
    (poll next).run v = (next (Request.poll v).1).run (Request.poll v).2 := rfl

/-- The second script goes on from the answer of the first. -/
def bind (f : α → Script β) : Script α → Script β
  | answer a => f a
  | poll next => poll fun cancelled => (next cancelled).bind f
  | cancel next => cancel (next.bind f)
  | ask question next => ask question (next.bind f)

theorem run_bind (s : Script α) (f : α → Script β) :
    (s.bind f).run = s.run >>= fun a => (f a).run := by
  induction s with
  | answer a => rfl
  | poll next ih => funext st; simp only [bind, run, ih]; rfl
  | cancel next ih => funext st; simp only [bind, run, ih]; rfl
  | ask question next ih => funext st; simp only [bind, run, ih]; rfl

theorem run_bind_of_run {s : Script α} {t : α → Script β} {m : Request α} {f : α → Request β}
    (hs : s.run = m) (ht : ∀ a, (t a).run = f a) : (s.bind t).run = m >>= f := by
  rw [run_bind, hs, funext ht]

/-- The script with another answer. -/
def map (f : α → β) (s : Script α) : Script β := s.bind fun a => .answer (f a)

theorem run_map (f : α → β) (s : Script α) : (s.map f).run = s.run >>= fun a => pure (f a) :=
  run_bind s _

theorem run_map_apply (f : α → β) (s : Script α) (v : RequestState) :
    (s.map f).run v = (f (s.run v).1, (s.run v).2) := by
  rw [run_map]
  rfl

/-- Polls, and stops if the request is cancelled. -/
def polled (stop next : Script α) : Script α :=
  .poll fun cancelled => if cancelled then stop else next

theorem run_polled {stop next : Script α} {m n : Request α} (hs : stop.run = m)
    (hn : next.run = n) : (polled stop next).run = (do if ← Request.poll then m else n) := by
  rw [← hs, ← hn]
  funext v
  rw [polled, run_poll]
  show _ = (if (Request.poll v).1 then stop.run else next.run) (Request.poll v).2
  split <;> rfl

/-- The answer when every poll is told that the request is not cancelled. -/
def unobserved : Script α → α
  | answer a => a
  | poll next => (next false).unobserved
  | cancel next => next.unobserved
  | ask _ next => next.unobserved

theorem unobserved_bind (s : Script α) (f : α → Script β) :
    (s.bind f).unobserved = (f s.unobserved).unobserved := by
  induction s with
  | answer a => rfl
  | poll next ih => exact ih false
  | cancel next ih => exact ih
  | ask question next ih => exact ih

theorem unobserved_map (f : α → β) (s : Script α) : (s.map f).unobserved = f s.unobserved :=
  unobserved_bind s _

/-- Whether some poll finds the request cancelled. -/
def seen : Script α → RequestState → Bool
  | answer _, _ => false
  | poll next, v => (Request.poll v).1 || (next (Request.poll v).1).seen (Request.poll v).2
  | cancel next, v => next.seen { v with cancelled := true }
  | ask question next, v => next.seen (question.count v)

theorem run_of_seen_false {s : Script α} {v : RequestState} (h : s.seen v = false) :
    (s.run v).1 = s.unobserved := by
  induction s generalizing v with
  | answer a => rfl
  | poll next ih =>
    obtain ⟨hp, hn⟩ := Bool.or_eq_false_iff.1 h
    rw [run_poll, unobserved]
    rw [hp] at hn ⊢
    exact ih false hn
  | cancel next ih => exact ih (v := { v with cancelled := true }) h
  | ask question next ih => exact ih (v := question.count v) h

/-- The flag is not taken back. -/
theorem run_cancelled (s : Script α) {v : RequestState} (h : v.cancelled = true) :
    (s.run v).2.cancelled = true := by
  induction s generalizing v with
  | answer a => exact h
  | poll next ih =>
    rw [run_poll, Request.poll_of_cancelled h]
    exact ih true h
  | cancel next ih => exact ih (v := { v with cancelled := true }) rfl
  | ask question next ih => exact ih (v := question.count v) (by cases question <;> exact h)

theorem cancelled_of_seen {s : Script α} {v : RequestState} (h : s.seen v = true) :
    (s.run v).2.cancelled = true := by
  induction s generalizing v with
  | answer a => cases h
  | poll next ih =>
    rw [run_poll]
    rcases Bool.or_eq_true_iff.1 h with hp | hn
    · exact run_cancelled _ (Request.cancelled_of_poll hp)
    · exact ih _ hn
  | cancel next ih => exact ih (v := { v with cancelled := true }) h
  | ask question next ih => exact ih (v := question.count v) h

/-- Who leaves the request uncancelled has never seen it otherwise. -/
theorem run_of_uncancelled {s : Script α} {v : RequestState} (h : (s.run v).2.cancelled = false) :
    (s.run v).1 = s.unobserved := by
  apply run_of_seen_false
  by_contra hseen
  rw [cancelled_of_seen (by simpa using hseen)] at h
  cases h

end Script

/-! ## Computations with a script -/

namespace Request

/-- A poll finds the flag as it leaves it. -/
theorem cancelled_poll (v : RequestState) : (poll v).2.cancelled = (poll v).1 := by
  unfold poll
  split
  · assumption
  · split <;> simp_all

theorem uncancelled_of_poll {v : RequestState} (h : (poll v).1 = false) : v.cancelled = false := by
  by_contra hc
  rw [poll_of_cancelled (by simpa using hc)] at h
  cases h

theorem polled_apply (m n : Request α) (v : RequestState) :
    (do if ← poll then m else n : Request α) v =
      if (poll v).1 then m (poll v).2 else n (poll v).2 := by
  show (if (poll v).1 then m else n) (poll v).2 = _
  split <;> rfl

/-- The computation follows some script. -/
def Scripted (m : Request α) : Prop := ∃ s : Script α, s.run = m

namespace Scripted

theorem pure (a : α) : Scripted (Pure.pure a : Request α) := ⟨.answer a, rfl⟩

theorem bind {m : Request α} {f : α → Request β} (hm : Scripted m) (hf : ∀ a, Scripted (f a)) :
    Scripted (m >>= f) := by
  obtain ⟨s, rfl⟩ := hm
  choose t ht using hf
  exact ⟨s.bind t, by rw [Script.run_bind, funext ht]⟩

theorem poll : Scripted Request.poll := ⟨.poll .answer, rfl⟩

theorem cancel : Scripted Request.cancel := ⟨.cancel (.answer ()), rfl⟩

theorem polled {stop next : Request α} (hs : Scripted stop) (hn : Scripted next) :
    Scripted (do if ← Request.poll then stop else next) := by
  refine bind poll fun cancelled => ?_
  cases cancelled with
  | true => exact hs
  | false => exact hn

theorem count (question : Question) : Scripted (modify question.count : Request Unit) :=
  ⟨.ask question (.answer ()), rfl⟩

end Scripted

end Request

/-! ## Polls that answer alike -/

/-- Polls answer in the first state as they do in the second: if the request is cancelled in the
second then it is in the first, or the next poll finds it so. -/
def RequestState.Foresees (v w : RequestState) : Prop :=
  (w.cancelled = true ∧ (v.cancelled = true ∨ v.pollsLeft = some 0)) ∨
  (v.cancelled = false ∧ w.cancelled = false ∧ v.pollsLeft = w.pollsLeft)

namespace RequestState.Foresees

variable {v w : RequestState}

theorem refl (v : RequestState) : v.Foresees v := by
  cases h : v.cancelled with
  | true => exact .inl ⟨h, .inl h⟩
  | false => exact .inr ⟨h, h, rfl⟩

theorem cancelled (h : v.Foresees w) (hv : v.cancelled = true) : w.cancelled = true := by
  rcases h with ⟨hw, -⟩ | ⟨hv', -, -⟩
  · exact hw
  · simp [hv] at hv'

theorem poll (h : v.Foresees w) : (Request.poll v).1 = (Request.poll w).1 ∧
    (Request.poll v).2.Foresees (Request.poll w).2 := by
  rcases h with ⟨hw, hv | hv⟩ | ⟨hv, hw, hp⟩
  · rw [Request.poll_of_cancelled hv, Request.poll_of_cancelled hw]
    exact ⟨rfl, .inl ⟨hw, .inl hv⟩⟩
  · rw [Request.poll_of_cancelled hw]
    cases hc : v.cancelled with
    | true => rw [Request.poll_of_cancelled hc]; exact ⟨rfl, .inl ⟨hw, .inl hc⟩⟩
    | false => simp [Request.poll, hc, hv, Foresees, hw]
  · unfold Request.poll
    rw [if_neg (by simp [hv]), if_neg (by simp [hw]), hp]
    split
    · exact ⟨rfl, .inr ⟨hv, hw, hp⟩⟩
    · exact ⟨rfl, .inl ⟨rfl, .inl rfl⟩⟩
    · exact ⟨rfl, .inr ⟨hv, hw, rfl⟩⟩

theorem cancel (v w : RequestState) :
    RequestState.Foresees { v with cancelled := true } { w with cancelled := true } :=
  .inl ⟨rfl, .inl rfl⟩

theorem count (h : v.Foresees w) (q : Question) : (q.count v).Foresees (q.count w) := by
  cases q <;> exact h

end RequestState.Foresees

theorem Script.run_foresees (s : Script α) {v w : RequestState} (h : v.Foresees w) :
    (s.run v).1 = (s.run w).1 ∧ (s.run v).2.Foresees (s.run w).2 := by
  induction s generalizing v w with
  | answer a => exact ⟨rfl, h⟩
  | poll next ih =>
    obtain ⟨hp, hs⟩ := h.poll
    rw [run_poll, run_poll, hp]
    exact ih _ hs
  | cancel next ih => exact ih (.cancel v w)
  | ask question next ih => exact ih (h.count question)

/-! ## Scripts that are followed at the same time -/

/-- Some scripts, and whether their request is cancelled. -/
structure Stage (α : Type) where
  cancelled : Bool
  scripts : List (Script α)

namespace Stage

/-- One step: the request is cancelled from outside, or one of the scripts goes on. -/
inductive Step : Stage α → Stage α → Prop
  | fire (cancelled ss) : Step ⟨cancelled, ss⟩ ⟨true, ss⟩
  | poll (cancelled before next after) :
      Step ⟨cancelled, before ++ .poll next :: after⟩
        ⟨cancelled, before ++ next cancelled :: after⟩
  | cancel (cancelled before next after) :
      Step ⟨cancelled, before ++ .cancel next :: after⟩ ⟨true, before ++ next :: after⟩
  | ask (cancelled before question next after) :
      Step ⟨cancelled, before ++ .ask question next :: after⟩
        ⟨cancelled, before ++ next :: after⟩

/-- Some steps lead from the first stage to the second. -/
def Reaches : Stage α → Stage α → Prop := Relation.ReflTransGen Step

/-- From the first state the script comes to the answer, and leaves the flag unset where it is unset
in the end. -/
def Viewed (cancelled after : Bool) (s : Script α) (a : α) : Prop :=
  ∃ v : RequestState, v.cancelled = cancelled ∧ (s.run v).1 = a ∧
    ((s.run v).2.cancelled = true → after = true)

variable {st st' : Stage α} {as : List α} {after : Bool}

/-- Whoever sees the request cancelled may have seen it so only from his next poll on. -/
theorem Viewed.earlier {s : Script α} {a : α} (cancelled : Bool) (h : Viewed true after s a) :
    Viewed cancelled after s a := by
  obtain ⟨v, hv, ha, hf⟩ := h
  cases cancelled with
  | true => exact ⟨v, hv, ha, hf⟩
  | false =>
    have hforesees : RequestState.Foresees { v with cancelled := false, pollsLeft := some 0 } v :=
      .inl ⟨hv, .inr rfl⟩
    obtain ⟨h1, h2⟩ := s.run_foresees hforesees
    exact ⟨_, rfl, h1.trans ha, fun hc => hf (h2.cancelled hc)⟩

theorem Viewed.poll {cancelled : Bool} {next : Bool → Script α} {a : α}
    (h : Viewed cancelled after (next cancelled) a) : Viewed cancelled after (.poll next) a := by
  obtain ⟨v, rfl, ha, hf⟩ := h
  -- the flag at this poll is that of the state from which the rest is followed
  obtain ⟨u, hu, hp⟩ : ∃ u : RequestState, u.cancelled = v.cancelled ∧
      Request.poll u = (v.cancelled, v) := by
    cases hc : v.cancelled with
    | true => exact ⟨v, hc, Request.poll_of_cancelled hc⟩
    | false =>
      obtain ⟨_, pollsLeft, _, _⟩ := v
      obtain rfl : _ = false := hc
      cases pollsLeft with
      | none => exact ⟨⟨false, none, _, _⟩, rfl, rfl⟩
      | some n => exact ⟨⟨false, some (n + 1), _, _⟩, rfl, rfl⟩
  refine ⟨u, hu, ?_⟩
  rw [Script.run_poll, hp]
  exact ⟨ha, hf⟩

theorem Viewed.cancel {cancelled : Bool} {next : Script α} {a : α} (h : Viewed true after next a) :
    Viewed cancelled after (.cancel next) a := by
  obtain ⟨v, hv, ha, hf⟩ := h
  have hset : ({ v with cancelled := true } : RequestState) = v := by rw [← hv]
  refine ⟨{ v with cancelled }, rfl, ?_⟩
  show (next.run { v with cancelled := true }).1 = a ∧
    ((next.run { v with cancelled := true }).2.cancelled = true → after = true)
  rw [hset]
  exact ⟨ha, hf⟩

theorem Viewed.ask {cancelled : Bool} {question : Question} {next : Script α} {a : α}
    (h : Viewed cancelled after next a) : Viewed cancelled after (.ask question next) a := by
  obtain ⟨v, hv, ha, hf⟩ := h
  have hforesees : (question.count v).Foresees v := by
    cases question <;> exact RequestState.Foresees.refl v
  obtain ⟨h1, h2⟩ := next.run_foresees hforesees
  exact ⟨v, hv, h1.trans ha, fun hc => hf (h2.cancelled hc)⟩

/-- Each script comes to its answer as if it were followed alone. -/
def Views (st : Stage α) (as : List α) (after : Bool) : Prop :=
  List.Forall₂ (Viewed st.cancelled after) st.scripts as

theorem views_replace {cancelled cancelled' : Bool} {before after' : List (Script α)}
    {s s' : Script α} (h : Views ⟨cancelled', before ++ s' :: after'⟩ as after)
    (hs : ∀ a, Viewed cancelled' after s' a → Viewed cancelled after s a)
    (hothers : ∀ (u : Script α) a, Viewed cancelled' after u a → Viewed cancelled after u a) :
    Views ⟨cancelled, before ++ s :: after'⟩ as after := by
  unfold Views at h ⊢
  simp only at h ⊢
  induction before generalizing as with
  | nil =>
    cases h with
    | cons ha has => exact .cons (hs _ ha) (has.imp hothers)
  | cons u before ih =>
    cases h with
    | cons ha has => exact .cons (hothers u _ ha) (ih has)

theorem Step.views (h : Step st st') (hv : st'.Views as after) : st.Views as after := by
  cases h with
  | fire cancelled ss => exact hv.imp fun _ _ => Viewed.earlier cancelled
  | poll cancelled before next after' =>
    exact views_replace hv (fun _ => Viewed.poll) fun _ _ h => h
  | cancel cancelled before next after' =>
    exact views_replace hv (fun _ => Viewed.cancel) fun _ _ => Viewed.earlier cancelled
  | ask cancelled before question next after' =>
    exact views_replace hv (fun _ => Viewed.ask) fun _ _ h => h

theorem views_answers (cancelled : Bool) (as : List α) :
    Views ⟨cancelled, as.map .answer⟩ as cancelled := by
  unfold Views
  induction as with
  | nil => exact .nil
  | cons a as ih => exact .cons ⟨{ RequestState.quiet with cancelled }, rfl, rfl, id⟩ ih

theorem Reaches.views (h : Reaches st ⟨after, as.map .answer⟩) : st.Views as after := by
  induction h using Relation.ReflTransGen.head_induction_on with
  | refl => exact views_answers after as
  | head hstep _ ih => exact hstep.views ih

/-- The flag is not taken back. -/
theorem Step.cancelled (h : Step st st') (hc : st.cancelled = true) : st'.cancelled = true := by
  cases h <;> first | rfl | exact hc

theorem Reaches.cancelled (h : Reaches st st') (hc : st.cancelled = true) :
    st'.cancelled = true := by
  induction h with
  | refl => exact hc
  | tail _ hstep ih => exact hstep.cancelled ih

/-- A poll that finds the request cancelled comes after the moment of cancellation. -/
theorem reaches_poll (v : RequestState) (ss : List (Script α)) :
    Reaches ⟨v.cancelled, ss⟩ ⟨(Request.poll v).1, ss⟩ := by
  cases hp : (Request.poll v).1 with
  | true => exact .head (.fire _ _) .refl
  | false =>
    rw [Request.uncancelled_of_poll hp]
    exact .refl

/-- A script can be followed to its end while the others wait. -/
theorem reaches_answer (s : Script α) (v : RequestState) (before after : List (Script α)) :
    Reaches ⟨v.cancelled, before ++ s :: after⟩
      ⟨(s.run v).2.cancelled, before ++ .answer (s.run v).1 :: after⟩ := by
  induction s generalizing v with
  | answer a => exact .refl
  | poll next ih =>
    rw [Script.run_poll]
    have hrest := ih (Request.poll v).1 (Request.poll v).2
    rw [Request.cancelled_poll] at hrest
    exact .trans (reaches_poll v _) (.head (.poll ..) hrest)
  | cancel next ih => exact .head (.cancel ..) (ih { v with cancelled := true })
  | ask question next ih =>
    have hcount : (question.count v).cancelled = v.cancelled := by cases question <;> rfl
    exact .head (.ask ..) (hcount ▸ ih (question.count v))

end Stage

end Caret
