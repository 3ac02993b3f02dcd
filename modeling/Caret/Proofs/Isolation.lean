import Caret.Proofs.Registration
/-!
# A recommender that fails is left out, and only it

What a completion request reports is read off the verdicts of the registered recommenders, one by
one (`evaluate_isolated`): the valid ones are suggested, the failed ones are faults, and neither
changes what is said of the others (`dispatch_registered`).
-/

namespace Caret

open Request

/-! ## Verdicts -/

namespace Recommender

/-- What a recommender says when nobody cancels the request. -/
def verdict (c : Context) (x : Recommender) : Except Stop Verdict := (x.evaluate c .quiet).1

/-- The recommender does not cancel the request, and its verdict depends on nothing else that
changes. -/
def Steady (c : Context) (x : Recommender) : Prop := Answers (x.evaluate c) (x.verdict c)

theorem steady_of_answers {c : Context} {x : Recommender} {a : Except Stop Verdict}
    (h : Answers (x.evaluate c) a) : x.Steady c := by
  have ha : x.verdict c = a := (h .quiet RequestState.untroubled_quiet).1
  rw [Steady, ha]
  exact h

/-- A verdict is about the recommender's own keyword. -/
theorem keyword_of_evaluate (c : Context) (x : Recommender) (s : RequestState) :
    ∀ v, (x.evaluate c s).1 = .ok v → v.keyword = x.keyword := by
  -- whatever the two parts of the recommender answer, and in whatever state
  have hbind {α : Type} (m : Request α) (f : α → Request (Except Stop Verdict))
      (hf : ∀ a s v, (f a s).1 = .ok v → v.keyword = x.keyword) (s : RequestState) :
      ∀ v, ((m >>= f) s).1 = .ok v → v.keyword = x.keyword := fun v h => hf (m s).1 (m s).2 v h
  refine hbind (x.isValid c.offset c) _ (fun valid s => ?_) s
  cases valid with
  | error stop => intro v h; cases h
  | ok valid =>
    cases valid with
    | false => intro v h; cases h; rfl
    | true =>
      refine hbind (x.isPreferred c) _ (fun preferred s v h => ?_) s
      cases preferred with
      | error stop => cases h
      | ok preferred => cases h; rfl

/-- The suggestion that a recommender makes. -/
def suggestion? (c : Context) (x : Recommender) : Option Item :=
  match x.verdict c with
  | .ok v => if v.isValid then some (.suggest x.keyword v.preselect) else none
  | .error _ => none

/-- The fault of a recommender. -/
def fault? (c : Context) (x : Recommender) : Option Fault :=
  match x.verdict c with
  | .ok _ => none
  | .error stop => some ⟨x.keyword, stop.contained x.keyword⟩

variable {c : Context} {x : Recommender}

theorem item?_finding : Finding.item? (Registry.finding (verdict c) x) = x.suggestion? c := by
  unfold Registry.finding suggestion?
  cases hv : x.verdict c with
  | error stop => rfl
  | ok v =>
    show (if v.isValid then some (Item.suggest v.keyword v.preselect) else none) = _
    rw [keyword_of_evaluate c x .quiet v hv]

theorem fault?_finding : Finding.fault? (Registry.finding (verdict c) x) = x.fault? c := by
  unfold Registry.finding fault?
  cases x.verdict c <;> rfl

theorem keyword_suggestion {i : Item} (h : x.suggestion? c = some i) : i.keyword = x.keyword := by
  unfold suggestion? at h
  split at h
  · split at h
    · cases h; rfl
    · cases h
  · cases h

theorem keyword_fault {f : Fault} (h : x.fault? c = some f) : f.keyword = x.keyword := by
  unfold fault? at h
  split at h
  · cases h
  · cases h; rfl

/-- Nobody suggests and fails. -/
theorem fault?_of_suggestion {i : Item} (h : x.suggestion? c = some i) : x.fault? c = none := by
  unfold suggestion? at h
  unfold fault?
  split at h
  · rfl
  · cases h

end Recommender

/-! ## The order of suggestions -/

namespace Item

/-- The first item is shown no later than the second. -/
def NotAfter (i j : Item) : Bool := i.preselect || !j.preselect

theorem notAfter_trans (i j k : Item) : i.NotAfter j → j.NotAfter k → i.NotAfter k := by
  unfold NotAfter
  cases i.preselect <;> cases j.preselect <;> simp

theorem notAfter_total (i j : Item) : (i.NotAfter j || j.NotAfter i) = true := by
  unfold NotAfter
  cases i.preselect <;> cases j.preselect <;> rfl

theorem eq_filter_append_of_sorted {is : List Item} (h : is.Pairwise (·.NotAfter ·)) :
    is = is.filter (·.preselect) ++ is.filter (!·.preselect) := by
  induction h with
  | nil => rfl
  | @cons i is hi _ ih =>
    by_cases hp : i.preselect = true
    · rw [List.filter_cons_of_pos hp, List.filter_cons_of_neg (by simp [hp]), List.cons_append, ← ih]
    · -- nothing that is preselected may follow
      have hrest : ∀ j ∈ is, ¬j.preselect = true := fun j hj => by simpa [NotAfter, hp] using hi j hj
      rw [List.filter_cons_of_neg hp, List.filter_cons_of_pos (by simpa using hp),
        List.filter_eq_nil_iff.2 hrest, List.filter_eq_self.2 fun j hj => by simpa using hrest j hj]
      rfl

/-- Sorting keeps the order of items of the same kind. -/
theorem filter_mergeSort {is : List Item} {p : Item → Bool}
    (hp : ∀ i j, p i → p j → i.NotAfter j) : (is.mergeSort NotAfter).filter p = is.filter p := by
  have hsorted : (is.filter p).Pairwise (·.NotAfter ·) :=
    List.pairwise_of_forall_mem_list fun i hi j hj =>
      hp i j (List.mem_filter.1 hi).2 (List.mem_filter.1 hj).2
  have hsub := (List.sublist_mergeSort notAfter_trans notAfter_total hsorted
    List.filter_sublist).filter p
  rw [List.filter_filter] at hsub
  simp only [Bool.and_self] at hsub
  refine (hsub.eq_of_length ?_).symm
  exact (((List.mergeSort_perm is NotAfter).filter p).length_eq).symm

/-- The preselected items first: this is what sorting without a change among equals gives. -/
theorem mergeSort_eq (is : List Item) :
    is.mergeSort NotAfter = is.filter (·.preselect) ++ is.filter (!·.preselect) := by
  rw [eq_filter_append_of_sorted (List.pairwise_mergeSort notAfter_trans notAfter_total is),
    filter_mergeSort fun i j hi _ => by simp [NotAfter, hi],
    filter_mergeSort fun i j _ hj => by simp only [NotAfter, hj, Bool.or_true]]

end Item

theorem Outcome.items_ofFindings (fs : List Finding) :
    (ofFindings fs).items = (fs.filterMap Finding.item?).mergeSort Item.NotAfter :=
  (Item.mergeSort_eq _).symm

/-! ## Reports -/

namespace Registry

/-- The outcome is read off the verdicts of the registered recommenders. -/
structure Reports (r : Registry) (c : Context) (o : Outcome) : Prop where
  /-- The valid keywords, the preselected ones first, otherwise in the order of registration. -/
  items : o.items = (r.recommenders.filterMap (·.suggestion? c)).filter (·.preselect) ++
    (r.recommenders.filterMap (·.suggestion? c)).filter (!·.preselect)
  /-- The failures in the order of registration. -/
  faults : o.faults = r.recommenders.filterMap (·.fault? c)
  cancelled : o.cancelled = false

variable {r : Registry} {c : Context} {o : Outcome}

theorem reports_ofFindings :
    r.Reports c (.ofFindings (r.recommenders.map (finding (Recommender.verdict c)))) := by
  have hitems : (r.recommenders.map (finding (Recommender.verdict c))).filterMap Finding.item? =
      r.recommenders.filterMap (·.suggestion? c) := by
    rw [List.filterMap_map]
    exact List.filterMap_congr fun x _ => Recommender.item?_finding
  have hfaults : (r.recommenders.map (finding (Recommender.verdict c))).filterMap Finding.fault? =
      r.recommenders.filterMap (·.fault? c) := by
    rw [List.filterMap_map]
    exact List.filterMap_congr fun x _ => Recommender.fault?_finding
  refine ⟨?_, hfaults, rfl⟩
  simp only [Outcome.ofFindings, hitems]

theorem Reports.mem_items (h : r.Reports c o) {i : Item} :
    i ∈ o.items ↔ ∃ x ∈ r.recommenders, x.suggestion? c = some i := by
  rw [h.items, (List.filter_append_perm Item.preselect _).mem_iff, List.mem_filterMap]

/-- No keyword is suggested that fails. -/
theorem Reports.apart (h : r.Reports c o) (hnodup : r.keywords.Nodup) {i : Item} {f : Fault}
    (hi : i ∈ o.items) (hf : f ∈ o.faults) : i.keyword ≠ f.keyword := by
  intro hkeyword
  obtain ⟨x, hx, hxi⟩ := h.mem_items.1 hi
  rw [h.faults] at hf
  obtain ⟨y, hy, hyf⟩ := List.mem_filterMap.1 hf
  have hxy : x.keyword = y.keyword := by
    rw [← Recommender.keyword_suggestion hxi, hkeyword, Recommender.keyword_fault hyf]
  obtain rfl := List.inj_on_of_nodup_map hnodup hx hy hxy
  rw [Recommender.fault?_of_suggestion hxi] at hyf
  cases hyf

/-! ## One more failure -/

/-- The recommenders with `y` in the place of the one for its keyword. -/
def replaceBy (y : Recommender) (xs : List Recommender) : List Recommender :=
  xs.map fun x => if x.keyword = y.keyword then y else x

theorem replaceBy_of_not_mem {y : Recommender} {xs : List Recommender}
    (hy : y.keyword ∉ xs.map (·.keyword)) : replaceBy y xs = xs := by
  refine (List.map_congr_left fun x hx => if_neg ?_).trans (List.map_id' xs)
  intro h
  exact hy (List.mem_map.2 ⟨x, hx, h⟩)

theorem insert_eq_replaceBy {y : Recommender} {xs : List Recommender}
    (hnodup : (xs.map (·.keyword)).Nodup) (hy : y.keyword ∈ xs.map (·.keyword)) :
    insert y xs = replaceBy y xs := by
  induction xs with
  | nil => cases hy
  | cons x xs ih =>
    obtain ⟨hx, hnodup'⟩ := List.nodup_cons.1 hnodup
    show _ = (if x.keyword = y.keyword then y else x) :: replaceBy y xs
    by_cases h : x.keyword = y.keyword
    · rw [insert, if_pos h, if_pos h, replaceBy_of_not_mem (h ▸ hx)]
    · rw [insert, if_neg h, if_neg h,
        ih hnodup' ((List.mem_cons.1 hy).resolve_left (Ne.symm h))]

section

-- what each recommender contributes carries the recommender's keyword
variable {β : Type} {g : Recommender → Option β} {key : β → Keyword}
  (hkey : ∀ x b, g x = some b → key b = x.keyword) (y : Recommender)
include hkey

theorem filter_ne_replaceBy (xs : List Recommender) :
    ((replaceBy y xs).filterMap g).filter (key · ≠ y.keyword) =
      (xs.filterMap g).filter (key · ≠ y.keyword) := by
  have hnone (x : Recommender) (hx : x.keyword = y.keyword) :
      (g x).filter (key · ≠ y.keyword) = none := by
    rw [Option.filter_eq_none_iff]
    intro b hb
    simp [hkey x b hb, hx]
  rw [replaceBy, List.filterMap_map, List.filter_filterMap, List.filter_filterMap]
  refine List.filterMap_congr fun x _ => ?_
  by_cases hx : x.keyword = y.keyword
  · rw [Function.comp_apply, if_pos hx, hnone x hx, hnone y rfl]
  · rw [Function.comp_apply, if_neg hx]

theorem filter_eq_replaceBy {xs : List Recommender} (hnodup : (xs.map (·.keyword)).Nodup)
    (hy : y.keyword ∈ xs.map (·.keyword)) :
    ((replaceBy y xs).filterMap g).filter (key · = y.keyword) = (g y).toList := by
  induction xs with
  | nil => cases hy
  | cons x xs ih =>
    obtain ⟨hx, hnodup'⟩ := List.nodup_cons.1 hnodup
    show (((if x.keyword = y.keyword then y else x) :: replaceBy y xs).filterMap g).filter _ = _
    by_cases h : x.keyword = y.keyword
    · have hrest : (xs.filterMap g).filter (key · = y.keyword) = [] := by
        rw [List.filter_eq_nil_iff]
        intro b hb
        obtain ⟨z, hz, hzb⟩ := List.mem_filterMap.1 hb
        have hne : z.keyword ≠ y.keyword := fun he => hx (List.mem_map.2 ⟨z, hz, he.trans h.symm⟩)
        simpa [hkey z b hzb] using hne
      rw [if_pos h, replaceBy_of_not_mem (h ▸ hx), List.filterMap_cons]
      cases hy' : g y with
      | none => exact hrest
      | some b =>
        rw [List.filter_cons_of_pos (by simp [hkey y b hy']), hrest]
        rfl
    · rw [if_neg h, List.filterMap_cons,
        ← ih hnodup' ((List.mem_cons.1 hy).resolve_left (Ne.symm h))]
      cases hx' : g x with
      | none => rfl
      | some b => exact List.filter_cons_of_neg (by simpa [hkey x b hx'] using h)

end

end Registry

/-- The second outcome is the first with a failure in the place of what was said of a keyword. -/
structure Outcome.FailsAt (o o' : Outcome) (f : Fault) : Prop where
  items : o'.items = o.items.filter (·.keyword ≠ f.keyword)
  others : o'.faults.filter (·.keyword ≠ f.keyword) = o.faults.filter (·.keyword ≠ f.keyword)
  fault : o'.faults.filter (·.keyword = f.keyword) = [f]

namespace Registry

variable {r : Registry} {c : Context} {o o' : Outcome}

theorem failsAt_of_reports {y : Recommender} {stop : Stop}
    (hnodup : r.keywords.Nodup) (hy : y.keyword ∈ r.keywords) (hstop : y.verdict c = .error stop)
    (h : r.Reports c o) (h' : (r.register y).Reports c o') :
    o.FailsAt o' ⟨y.keyword, stop.contained y.keyword⟩ := by
  have hregister : (r.register y).recommenders = replaceBy y r.recommenders :=
    insert_eq_replaceBy hnodup hy
  have hsuggestion : y.suggestion? c = none := by simp only [Recommender.suggestion?, hstop]
  have hfault : y.fault? c = some ⟨y.keyword, stop.contained y.keyword⟩ := by
    simp only [Recommender.fault?, hstop]
  have hitems : (replaceBy y r.recommenders).filterMap (·.suggestion? c) =
      (r.recommenders.filterMap (·.suggestion? c)).filter (·.keyword ≠ y.keyword) := by
    have hkey := fun x i => Recommender.keyword_suggestion (c := c) (x := x) (i := i)
    have hnone := filter_eq_replaceBy hkey y hnodup hy
    rw [hsuggestion, Option.toList_none, List.filter_eq_nil_iff] at hnone
    rw [← filter_ne_replaceBy hkey y, List.filter_eq_self.2]
    intro i hi
    simpa using hnone i hi
  have hkey := fun x f => Recommender.keyword_fault (c := c) (x := x) (f := f)
  refine ⟨?_, ?_, ?_⟩
  · rw [h'.items, h.items, hregister, hitems, List.filter_append, List.filter_filter,
      List.filter_filter, List.filter_filter, List.filter_filter]
    simp only [Bool.and_comm]
  · rw [h'.faults, h.faults, hregister]
    exact filter_ne_replaceBy hkey y r.recommenders
  · rw [h'.faults, hregister]
    refine (filter_eq_replaceBy hkey y hnodup hy).trans ?_
    rw [hfault, Option.toList_some]

/-! ## Every history -/

/-- The registry is what comes of registering the recommenders of the list in order. -/
structure Holds (r : Registry) (history : List Recommender) : Prop where
  /-- Each keyword once, in the order of first registration. -/
  keywords : r.keywords = (history.map (·.keyword)).eraseDups
  nodup : r.keywords.Nodup
  /-- For a keyword the recommender registered last. -/
  last : ∀ k, r.get? k = history.reverse.find? (·.keyword == k)
  /-- Nothing else is in the registry. -/
  all : r.recommenders.map some = r.keywords.map r.get?

theorem holds_registered (xs : List Recommender) : (registered xs).Holds xs := by
  refine ⟨keywords_registered xs, nodup_keywords_registered xs, get?_registered xs, ?_⟩
  rw [keywords, List.map_map]
  refine List.map_congr_left fun x hx => ?_
  exact (find?_keyword hx (nodup_keywords_registered xs)).symm

/-- The start of every history: a registry without recommenders, or the default one. -/
theorem foldl_register {start : Registry} (hstart : start = .empty ∨ start = .default)
    (xs : List Recommender) :
    xs.foldl register start = registered (start.recommenders ++ xs) := by
  rcases hstart with rfl | rfl
  · rfl
  · exact (registered_append Recommender.defaults xs).symm

/-- What a registry of some recommenders reports. -/
theorem reports_registered {xs : List Recommender} {s : RequestState}
    (hsteady : ∀ x ∈ (registered xs).recommenders, x.Steady c) (hs : s.Untroubled)
    {order : List Recommender} (horder : order.Perm (registered xs).recommenders) :
    (registered xs).Reports c ((registered xs).dispatchInOrder order c s).1 ∧
      ((registered xs).dispatchInOrder order c s).2 =
        order.foldl (fun s x => (x.evaluate c s).2) s := by
  rw [dispatchInOrder_eq (nodup_keywords_registered xs) horder hsteady hs]
  exact ⟨reports_ofFindings, rfl⟩

/-- Whatever is registered in whatever order: the registry holds for each keyword what was
registered last, in the order of first registration, and hands back what it replaces; and
dispatching asks each of the recommenders once and reports their verdicts, so that one more failure
changes nothing that is said of the others. -/
theorem dispatch_registered {start r : Registry} (hstart : start = .empty ∨ start = .default)
    (xs : List Recommender) (hr : r = xs.foldl register start) (c : Context)
    (hsteady : ∀ x ∈ r.recommenders, x.Steady c) :
    r.Holds (start.recommenders ++ xs) ∧
    (∀ before x after, xs = before ++ x :: after →
      (before.foldl register start).Exchanges x ∧
      (before.foldl register start).replaced x =
        (start.recommenders ++ before).reverse.find? (·.keyword == x.keyword)) ∧
    (∀ order s, order.Perm r.recommenders → s.Untroubled →
      r.Reports c (r.dispatchInOrder order c s).1 ∧
      (r.dispatchInOrder order c s).2 = order.foldl (fun s x => (x.evaluate c s).2) s) ∧
    ∀ mode s, s.Untroubled →
      r.Reports c (r.dispatch c mode s).1 ∧
      (r.dispatch c mode s).2 = r.recommenders.foldl (fun s x => (x.evaluate c s).2) s ∧
      (∀ i ∈ (r.dispatch c mode s).1.items, ∀ f ∈ (r.dispatch c mode s).1.faults,
        i.keyword ≠ f.keyword) ∧
      ∀ y stop, y.keyword ∈ r.keywords → y.Steady c → y.verdict c = .error stop →
        (r.dispatch c mode s).1.FailsAt ((r.register y).dispatch c mode s).1
          ⟨y.keyword, stop.contained y.keyword⟩ := by
  rw [foldl_register hstart] at hr
  subst hr
  have hnodup := nodup_keywords_registered (start.recommenders ++ xs)
  refine ⟨holds_registered _, fun before x after _ => ?_,
    fun order s horder hs => reports_registered hsteady hs horder, fun mode s hs => ?_⟩
  · rw [foldl_register hstart]
    exact ⟨exchanges _ x, get?_registered _ x.keyword⟩
  · obtain ⟨hreports, honce⟩ := reports_registered hsteady hs (.refl _)
    refine ⟨hreports, honce, fun i hi f hf => hreports.apart hnodup hi hf, ?_⟩
    intro y stop hy hysteady hstop
    have hregister : ((registered (start.recommenders ++ xs)).register y).recommenders =
        replaceBy y (registered (start.recommenders ++ xs)).recommenders :=
      insert_eq_replaceBy hnodup hy
    have hsteady' : ∀ x ∈ ((registered (start.recommenders ++ xs)).register y).recommenders,
        x.Steady c := by
      intro x hx
      rw [hregister] at hx
      obtain ⟨z, hz, rfl⟩ := List.mem_map.1 hx
      split
      · exact hysteady
      · exact hsteady z hz
    refine failsAt_of_reports hnodup hy hstop hreports ?_
    rw [← registered_concat] at hsteady' ⊢
    exact (reports_registered hsteady' hs (.refl _)).1

/-- The default recommenders do not cancel the request. -/
theorem steady_default {b : Binding} (hb : c.model = b.model) :
    ∀ x ∈ default.recommenders, x.Steady c := by
  intro x hx
  rw [recommenders_default] at hx
  obtain ⟨k, -, rfl⟩ := List.mem_map.1 hx
  exact Recommender.steady_of_answers
    (Recommender.evaluate_answers (Recommender.isValid_answers k c)
      (Recommender.isPreferred_answers k c hb))

/-- The default registry in a method, before and after the recommender for one keyword breaks. -/
theorem dispatch_registered_broken :
    ∃ (t : NodeTable) (c : Context) (broken : Recommender),
      t = .ofText "class C { void M() {  } }".toList ∧
      c = .gathered t (Binding.ofTable t).model 21 [] ∧
      default.Holds Recommender.defaults ∧
      ∀ mode, default.Reports c (default.dispatch c mode .quiet).1 ∧
        (default.dispatch c mode .quiet).1.FailsAt
          ((default.register broken).dispatch c mode .quiet).1
          ⟨.this, .crashed .this unknownCrash⟩ := by
  refine ⟨_, _, ⟨.this, fun _ _ => pure (.error (.crash none)), fun _ => pure (.ok false)⟩,
    rfl, rfl, ?_⟩
  obtain ⟨hholds, -, -, hreports⟩ := dispatch_registered (.inr rfl) [] rfl
    (.gathered (.ofText "class C { void M() {  } }".toList)
      (Binding.ofTable (.ofText "class C { void M() {  } }".toList)).model 21 [])
    (steady_default rfl)
  refine ⟨hholds, fun mode => ?_⟩
  obtain ⟨h, -, -, hfails⟩ := hreports mode .quiet RequestState.untroubled_quiet
  refine ⟨h, hfails _ (.crash none) (by decide) (fun s hs => ⟨rfl, hs⟩) rfl⟩

end Registry

end Caret
