import Caret.Proofs.Answers
import Mathlib.Data.List.Induction
import Mathlib.Data.List.Nodup
/-!
# Registries and what they report

A registry is known by what was registered (`register`), one recommender after the other: its
keywords are those registered, in the order of their first registration (`keywords_registered`), and
for each keyword it holds the recommender registered last (`get?_registered`). What dispatching
reports is known by the verdicts (`dispatchInOrder_eq`), in whichever order they are asked for.
-/

namespace Caret

open Request

namespace Registry

/-! ## The register -/

theorem find?_insert (x : Recommender) (ys : List Recommender) (k : Keyword) :
    (insert x ys).find? (·.keyword == k) =
      if x.keyword = k then some x else ys.find? (·.keyword == k) := by
  induction ys with
  | nil => by_cases hk : x.keyword = k <;> simp [insert, hk]
  | cons y ys ih =>
    by_cases hy : y.keyword = x.keyword
    · by_cases hk : x.keyword = k <;> simp [insert, hy, hk]
    · rw [insert, if_neg hy, List.find?_cons, List.find?_cons, ih]
      by_cases hk : y.keyword = k
      · have hx : ¬x.keyword = k := fun hx => hy (hk.trans hx.symm)
        rw [beq_iff_eq.2 hk, if_neg hx, if_neg hx]
      · rw [beq_eq_false_iff_ne.2 hk]

theorem get?_register (r : Registry) (x : Recommender) (k : Keyword) :
    (r.register x).get? k = if x.keyword = k then some x else r.get? k :=
  find?_insert x r.recommenders k

/-- Registering puts the recommender in the place of the one that is handed back, or at the end. -/
structure Exchanges (r : Registry) (x : Recommender) : Prop where
  replaced : ∀ y, r.replaced x = some y → ∃ before after,
    r.recommenders = before ++ y :: after ∧ (r.register x).recommenders = before ++ x :: after
  added : r.replaced x = none → (r.register x).recommenders = r.recommenders ++ [x]

theorem insert_of_not_mem {x : Recommender} {ys : List Recommender}
    (h : ∀ y ∈ ys, y.keyword ≠ x.keyword) : insert x ys = ys ++ [x] := by
  induction ys with
  | nil => rfl
  | cons y ys ih =>
    rw [insert, if_neg (h y List.mem_cons_self), ih fun z hz => h z (List.mem_cons_of_mem y hz)]
    rfl

theorem insert_append {x y : Recommender} {before after : List Recommender}
    (h : ∀ z ∈ before, z.keyword ≠ x.keyword) (hy : y.keyword = x.keyword) :
    insert x (before ++ y :: after) = before ++ x :: after := by
  induction before with
  | nil => exact if_pos hy
  | cons z before ih =>
    rw [List.cons_append, insert, if_neg (h z List.mem_cons_self),
      ih fun w hw => h w (List.mem_cons_of_mem z hw)]
    rfl

theorem exchanges (r : Registry) (x : Recommender) : r.Exchanges x := by
  refine ⟨fun y hy => ?_, fun hnone => ?_⟩
  · obtain ⟨hkeyword, before, after, hr, hbefore⟩ := List.find?_eq_some_iff_append.1 hy
    refine ⟨before, after, hr, ?_⟩
    rw [register, hr]
    exact insert_append (fun z hz => by simpa using hbefore z hz) (by simpa using hkeyword)
  · exact insert_of_not_mem fun y hy => by simpa using List.find?_eq_none.1 hnone y hy

/-- The registry with all of the recommenders registered in order. -/
def registered (xs : List Recommender) : Registry := xs.foldl register empty

theorem registered_append (xs ys : List Recommender) :
    registered (xs ++ ys) = ys.foldl register (registered xs) := List.foldl_append

theorem registered_concat (xs : List Recommender) (x : Recommender) :
    registered (xs ++ [x]) = (registered xs).register x := registered_append xs [x]

/-- The keywords are listed once, in the order of their first registration. -/
theorem keywords_registered (xs : List Recommender) :
    (registered xs).keywords = (xs.map (·.keyword)).eraseDups := by
  induction xs using List.reverseRecOn with
  | nil => rfl
  | append_singleton xs x ih =>
    generalize hks : xs.map (·.keyword) = ks at ih
    have hmem : x.keyword ∈ (registered xs).keywords ↔ x.keyword ∈ ks := by
      rw [ih, List.mem_eraseDups]
    rw [registered_concat, keywords_register, List.map_append, List.eraseDups_append, hks, ih]
    rw [ih] at hmem
    show _ = _ ++ (List.filter (fun k => !ks.elem k) [x.keyword]).eraseDups
    by_cases hx : x.keyword ∈ ks
    · rw [if_pos (hmem.2 hx), List.filter_cons_of_neg (by simpa using hx)]
      exact (List.append_nil _).symm
    · rw [if_neg (hmem.not.2 hx), List.filter_cons_of_pos (by simpa using hx)]
      rfl

theorem get?_registered (xs : List Recommender) (k : Keyword) :
    (registered xs).get? k = xs.reverse.find? (·.keyword == k) := by
  induction xs using List.reverseRecOn with
  | nil => rfl
  | append_singleton xs x ih =>
    rw [registered_concat, get?_register, List.reverse_append, ih]
    by_cases hx : x.keyword = k
    · simp [hx]
    · simp [hx]

theorem nodup_keywords_registered (xs : List Recommender) : (registered xs).keywords.Nodup := by
  induction xs using List.reverseRecOn with
  | nil => exact List.nodup_nil
  | append_singleton xs x ih =>
    rw [registered_concat, keywords_register]
    split
    · exact ih
    · rename_i hx
      refine List.nodup_append.2 ⟨ih, List.pairwise_singleton _ _, fun k hk l hl hkl => ?_⟩
      exact hx (List.mem_singleton.1 hl ▸ hkl ▸ hk)

/-! ## The findings -/

variable {c : Context} {verdict : Recommender → Except Stop Verdict}

/-- What a recommender with the given verdict finds. -/
def finding (verdict : Recommender → Except Stop Verdict) (x : Recommender) : Finding :=
  (x.keyword, (verdict x).mapError (Stop.contained x.keyword))

/-- Every recommender is asked once, and what it finds is its verdict. -/
theorem findings_eq {order : List Recommender} {s : RequestState}
    (hverdict : ∀ x ∈ order, Answers (x.evaluate c) (verdict x)) (hs : s.Untroubled) :
    findings c order s =
        (order.map (finding verdict), order.foldl (fun s x => (x.evaluate c s).2) s) ∧
      (order.foldl (fun s x => (x.evaluate c s).2) s).Untroubled := by
  induction order generalizing s with
  | nil => exact ⟨rfl, hs⟩
  | cons x order ih =>
    obtain ⟨hx, hs'⟩ := hverdict x List.mem_cons_self s hs
    obtain ⟨hrest, hend⟩ := ih (fun y hy => hverdict y (List.mem_cons_of_mem x hy)) hs'
    refine ⟨?_, hend⟩
    show ((x.keyword, (x.evaluate c s).1.mapError (Stop.contained x.keyword)) ::
      (findings c order (x.evaluate c s).2).1, (findings c order (x.evaluate c s).2).2) = _
    rw [hrest, hx]
    rfl

/-- Where each keyword has one recommender, that one is found by it. -/
theorem find?_keyword {x : Recommender} {xs : List Recommender} (hx : x ∈ xs)
    (hnodup : (xs.map (·.keyword)).Nodup) : xs.find? (·.keyword == x.keyword) = some x := by
  cases hfind : xs.find? (·.keyword == x.keyword) with
  | none => exact absurd (List.find?_eq_none.1 hfind x hx) (by simp)
  | some y =>
    have hy : y.keyword = x.keyword := eq_of_beq (List.find?_some hfind :)
    rw [List.inj_on_of_nodup_map hnodup (List.mem_of_find?_eq_some hfind) hx hy]

theorem find?_map_finding {f : Recommender → Finding} (hf : ∀ x, (f x).1 = x.keyword)
    {x : Recommender} {xs : List Recommender} (hx : x ∈ xs)
    (hnodup : (xs.map (·.keyword)).Nodup) : (xs.map f).find? (·.1 == x.keyword) = some (f x) := by
  have hkey : (fun g : Finding => g.1 == x.keyword) ∘ f = fun y => y.keyword == x.keyword :=
    funext fun y => congrArg (· == x.keyword) (hf y)
  rw [List.find?_map, hkey, find?_keyword hx hnodup, Option.map_some]

/-- Findings that can be looked up are arranged in the order of registration. -/
theorem arrange_eq {r : Registry} {fs : List Finding} {f : Recommender → Finding}
    (h : ∀ x ∈ r.recommenders, fs.find? (·.1 == x.keyword) = some (f x)) :
    r.arrange fs = r.recommenders.map f := by
  rw [arrange, keywords, List.filterMap_map, ← List.filterMap_eq_map]
  exact List.filterMap_congr h

/-- What dispatching reports when nobody cancels, in whichever order the recommenders are asked. -/
theorem dispatchInOrder_eq {r : Registry} {order : List Recommender} {s : RequestState}
    (hnodup : r.keywords.Nodup) (horder : order.Perm r.recommenders)
    (hverdict : ∀ x ∈ r.recommenders, Answers (x.evaluate c) (verdict x)) (hs : s.Untroubled) :
    r.dispatchInOrder order c s = (.ofFindings (r.recommenders.map (finding verdict)),
      order.foldl (fun s x => (x.evaluate c s).2) s) := by
  have hverdict' : ∀ x ∈ order, Answers (x.evaluate c) (verdict x) :=
    fun x hx => hverdict x (horder.mem_iff.1 hx)
  obtain ⟨hfindings, hend⟩ := findings_eq hverdict' hs
  have harrange : r.arrange (order.map (finding verdict)) = r.recommenders.map (finding verdict) :=
    arrange_eq fun x hx => find?_map_finding (fun _ => rfl) (horder.mem_iff.2 hx)
      ((horder.map Recommender.keyword).nodup_iff.2 hnodup)
  unfold dispatchInOrder
  show (if (poll s).1 then _ else _ : Request Outcome) (poll s).2 = _
  rw [poll_quiet hs.1 hs.2]
  show (if (poll (findings c order s).2).1 then _ else _ : Request Outcome)
    (poll (findings c order s).2).2 = _
  rw [hfindings, poll_quiet hend.1 hend.2]
  show (Outcome.ofFindings (r.arrange (order.map (finding verdict))), _) = _
  rw [harrange]

end Registry

end Caret
