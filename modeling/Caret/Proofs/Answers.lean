import Caret.CommandLine.Run
/-!
# What a request answers that nobody cancels

If nobody cancels a request then all its polls say so, and the type model of a text answers every
question. So completion answers, whether a keyword is preselected or not, and suggests the keywords
that may stand there (`complete_answers`).
-/

namespace Caret

namespace RequestState

/-- The request is not cancelled, and will not be. -/
def Untroubled (s : RequestState) : Prop := s.cancelled = false ∧ s.pollsLeft = none

theorem untroubled_quiet : quiet.Untroubled := ⟨rfl, rfl⟩

end RequestState

namespace Request

variable {α β : Type} {m : Request α} {a : α} {f : α → Request β} {b : β}

/-- If nobody cancels the request, the computation gives `a`. -/
def Answers (m : Request α) (a : α) : Prop :=
  ∀ s : RequestState, s.Untroubled → (m s).1 = a ∧ (m s).2.Untroubled

theorem Answers.pure (a : α) : Answers (Pure.pure a) a := fun _ hs => ⟨rfl, hs⟩

theorem Answers.bind (hm : Answers m a) (hf : Answers (f a) b) : Answers (m >>= f) b := by
  intro s hs
  obtain ⟨ha, hs'⟩ := hm s hs
  show (f (m s).1 (m s).2).1 = b ∧ (f (m s).1 (m s).2).2.Untroubled
  rw [ha]
  exact hf _ hs'

theorem Answers.poll : Answers poll false := by
  intro s hs
  rw [poll_quiet hs.1 hs.2]
  exact ⟨rfl, hs⟩

/-- A step that polls first goes on. -/
theorem Answers.polled {stop next : Request β} (h : Answers next b) :
    Answers (do if ← Request.poll then stop else next) b := Answers.poll.bind h

theorem pollTimes_answers (count : Nat) : Answers (pollTimes count) false := by
  induction count with
  | zero => exact .pure _
  | succ n ih => exact .bind .poll ih

end Request

open Request

/-! ## The type model of a text -/

theorem Binding.bind_answers (t : NodeTable) : Answers (Binding.bind t) (.ok (.ofTable t)) :=
  .bind (pollTimes_answers _) (.pure _)

theorem Binding.enclosing_answers (b : Binding) (offset : Nat) :
    Answers (b.model.enclosing offset) (.ok (b.enclosing offset)) := .bind .poll (.pure _)

theorem Binding.resolve_answers (b : Binding) (reference : Ref) :
    Answers (b.model.resolve reference) (.ok (b.resolve reference)) := .bind .poll (.pure _)

theorem Binding.askEnclosing_answers (b : Binding) (offset : Nat) :
    Answers (b.model.askEnclosing offset) (.ok (b.enclosing offset)) :=
  .bind (a := ()) (fun _ hs => ⟨rfl, hs⟩) (b.enclosing_answers offset)

theorem Binding.askResolve_answers (b : Binding) (reference : Ref) :
    Answers (b.model.askResolve reference) (.ok (b.resolve reference)) :=
  .bind (a := ()) (fun _ hs => ⟨rfl, hs⟩) (b.resolve_answers reference)

/-! ## The context -/

namespace Context

/-- The keyword may stand at the place of the context. -/
def admits (c : Context) : Keyword → Bool
  | .this => c.startsInInstance || c.initializedConstructor.isSome ||
      (c.table.allowsParameterModifier c.offset c.left true && c.inMethod && c.inStaticMethod)
  | .base => c.containingType.isSome && (c.startsInInstance ||
      c.table.node? (c.table.parent c.initializedConstructor) == some .classDeclaration)
  | .ref | .out => c.table.allowsParameterModifier c.offset c.left false ||
      c.table.allowsArgumentModifier c.target
  | .params => c.table.allowsParameterModifier c.offset c.left false

/-- What is known about a place where the given types are expected. -/
def gathered (t : NodeTable) (model : Model) (offset : Nat) (inferred : List TypeId) : Context :=
  let left := t.tokenBefore offset
  let target := t.beforeTouchedWord left offset
  { table := t, model, offset, left, target
    inInstance := t.inInstance target
    allowsExpression := t.allowsExpression target && !t.inAttribute target
    allowsStatement := t.allowsStatement target
    containingType := t.containingType target
    inferred }

/-- What a type reference tells about an expected type. -/
def told (b : Binding) (reference : Ref) : List TypeId :=
  ((b.resolve reference).filter (· != TypeId.void)).toList

/-- The types that are expected behind a token. -/
def toldBehind (t : NodeTable) (b : Binding) (token : Ref) : List TypeId :=
  if t.allowsExpression token then told b (t.expectedType (t.containingType token) token) else []

theorem inferFrom_answers (b : Binding) (reference : Ref) :
    Answers (inferFrom b.model reference) (.ok (told b reference)) := by
  cases reference with
  | none => exact .pure _
  | some i => exact .bind (b.askResolve_answers _) (.pure _)

/-- Everything is known about a place that the table and its binding tell. -/
theorem build_gathers (t : NodeTable) (b : Binding) (offset : Nat) :
    Answers (build t b.model offset) (.ok (gathered t b.model offset
      (toldBehind t b (t.beforeTouchedWord (t.tokenBefore offset) offset)))) := by
  simp only [build, toldBehind]
  split
  · exact .bind (inferFrom_answers b _) (.pure _)
  · exact .bind (.pure _) (.pure _)

theorem build_answers (t : NodeTable) (b : Binding) (offset : Nat) :
    ∃ ids, Answers (build t b.model offset) (.ok (gathered t b.model offset ids)) :=
  ⟨_, build_gathers t b offset⟩

theorem parameterModifierAt_answers (c : Context) (onlyFirst : Bool) :
    Answers (c.parameterModifierAt c.offset onlyFirst)
      (c.table.allowsParameterModifier c.offset c.left onlyFirst) := .polled (.pure _)

theorem extensionReceiver_answers (c : Context) : Answers (c.extensionReceiver c.offset)
    (c.table.allowsParameterModifier c.offset c.left true && c.inMethod && c.inStaticMethod) := by
  refine .bind (c.parameterModifierAt_answers true) ?_
  cases c.table.allowsParameterModifier c.offset c.left true with
  | false => exact .pure _
  | true =>
    cases hm : c.inMethod with
    | false => simpa [hm] using Answers.pure _
    | true => simpa [hm] using Answers.polled (.pure _)

/-- The keyword should be preselected at the place of the context: only `this` ever is. -/
def prefers (c : Context) (b : Binding) : Keyword → Bool
  | .this => (b.enclosing c.offset).any c.inferred.contains
  | _ => false

theorem expectsEnclosingType_answers (c : Context) {b : Binding} (hb : c.model = b.model) :
    Answers c.expectsEnclosingType (.ok (c.prefers b .this)) := by
  unfold expectsEnclosingType
  split
  · rename_i hempty
    have hnone : c.prefers b .this = false := by
      rw [prefers, List.isEmpty_iff.1 hempty]
      cases b.enclosing c.offset <;> rfl
    rw [hnone]
    exact .pure _
  · exact .polled (.bind (hb ▸ b.askEnclosing_answers c.offset) (.pure _))

end Context

/-! ## The recommenders -/

namespace Recommender

variable (k : Keyword) (c : Context)

theorem this_answers : Answers (this.isValid c.offset c) (.ok (c.admits .this)) := by
  have hreceiver := c.extensionReceiver_answers
  refine .polled ?_
  unfold Context.admits
  cases c.startsInInstance with
  | true => exact .pure _
  | false =>
    cases c.initializedConstructor.isSome with
    | true => exact .pure _
    | false => exact hreceiver.bind (.pure _)

theorem parameterModifier_answers : Answers ((parameterModifier k).isValid c.offset c)
    (.ok (c.table.allowsParameterModifier c.offset c.left false ||
      ((k == .ref || k == .out) && c.table.allowsArgumentModifier c.target))) := by
  have hmodifier := c.parameterModifierAt_answers false
  refine .polled (.bind hmodifier ?_)
  cases c.table.allowsParameterModifier c.offset c.left false with
  | true => exact .pure _
  | false => exact .pure _

theorem isValid_answers : Answers ((of k).isValid c.offset c) (.ok (c.admits k)) := by
  have hmodifier := parameterModifier_answers k c
  cases k with
  | this => exact this_answers c
  | base => exact .polled (.pure _)
  | ref | out => exact hmodifier
  | params =>
    have hother : (Keyword.params == .ref || Keyword.params == .out) = false := rfl
    rw [hother, Bool.false_and, Bool.or_false] at hmodifier
    exact hmodifier

theorem isPreferred_answers {b : Binding} (hb : c.model = b.model) :
    Answers ((of k).isPreferred c) (.ok (c.prefers b k)) := by
  cases k with
  | this => exact c.expectsEnclosingType_answers hb
  | base | ref | out | params => exact .pure _

variable {k c}

theorem evaluate_answers {r : Recommender} {valid preferred : Bool}
    (hv : Answers (r.isValid c.offset c) (.ok valid))
    (hp : Answers (r.isPreferred c) (.ok preferred)) :
    Answers (r.evaluate c) (.ok ⟨r.keyword, valid, valid && preferred⟩) := by
  refine hv.bind ?_
  cases valid with
  | false => exact .pure _
  | true => exact hp.bind (.pure _)

theorem contained_answers {b : Binding} (hb : c.model = b.model) (k : Keyword) :
    Answers ((of k).contained c) (.ok ⟨k, c.admits k, c.admits k && c.prefers b k⟩) := by
  have h := evaluate_answers (isValid_answers k c) (isPreferred_answers k c hb)
  rw [keyword_of] at h
  exact .bind h (.pure _)

end Recommender

/-! ## All of them -/

/-- The findings about the given keywords. -/
def found (c : Context) (preselect : Keyword → Bool) (ks : List Keyword) : List Finding :=
  ks.map fun k => (k, .ok ⟨k, c.admits k, preselect k⟩)

theorem findings_answers {c : Context} {b : Binding} (hb : c.model = b.model)
    (ks : List Keyword) : Answers (findings c (ks.map Recommender.of))
      (found c (fun k => c.admits k && c.prefers b k) ks) := by
  induction ks with
  | nil => exact .pure _
  | cons k ks ih =>
    simp only [List.map_cons, findings, Recommender.keyword_of]
    exact (Recommender.contained_answers hb k).bind (ih.bind (.pure _))

/-- The suggestions of some keywords. -/
theorem items_found (c : Context) (preselect : Keyword → Bool) (ks : List Keyword) :
    (found c preselect ks).filterMap Finding.item? =
      (ks.filter c.admits).map fun k => .suggest k (preselect k) := by
  induction ks with
  | nil => rfl
  | cons k ks ih =>
    rw [found, List.map_cons, ← found, List.filterMap_cons, ih, List.filter_cons]
    cases c.admits k <;> simp [Finding.item?]

theorem Context.this_of_prefers {c : Context} {b : Binding} {k : Keyword}
    (h : (c.admits k && c.prefers b k) = true) : k = .this := by
  cases k with
  | this => rfl
  | base | ref | out | params => simp [prefers] at h

namespace Registry

theorem recommenders_default : default.recommenders = Keyword.all.map Recommender.of := rfl

theorem keywords_default : default.keywords = Keyword.all := rfl

variable {c : Context} {preselect : Keyword → Bool}

/-- The findings stand in the order of registration already. -/
theorem arrange_found :
    default.arrange (found c preselect Keyword.all) = found c preselect Keyword.all := by
  rw [arrange, keywords_default]
  rfl

/-- What is suggested stands in the order of registration: only the first keyword is ever
preselected. -/
theorem keywords_found (h : ∀ k, preselect k = true → k = .this) :
    (Outcome.ofFindings (found c preselect Keyword.all)).keywords = Keyword.all.filter c.admits := by
  have hrest : ∀ k ∈ [Keyword.base, .ref, .out, .params].filter c.admits, preselect k = false := by
    intro k hk
    refine Bool.eq_false_iff.2 fun hp => ?_
    obtain rfl := h k hp
    simp at hk
  rw [Outcome.keywords, Outcome.ofFindings, items_found, Keyword.all, List.filter_cons]
  generalize [Keyword.base, .ref, .out, .params].filter c.admits = ks at hrest
  have hfirst : (ks.map fun k => Item.suggest k (preselect k)).filter (·.preselect) = [] := by
    simpa [Item.suggest] using hrest
  have hlater : (ks.map fun k => Item.suggest k (preselect k)).filter (!·.preselect) =
      ks.map fun k => .suggest k (preselect k) := by
    simpa [Item.suggest] using hrest
  have hkeywords : (ks.map fun k => Item.suggest k (preselect k)).map (·.keyword) = ks := by
    simp [Function.comp_def, Item.suggest]
  split
  · rw [List.map_cons, List.filter_cons, List.filter_cons, hfirst, hlater]
    cases hp : preselect .this <;> simpa [Item.suggest, hp] using hkeywords
  · simpa only [hfirst, hlater, List.nil_append] using hkeywords

theorem mem_items_ofFindings {i : Item} {fs : List Finding} :
    i ∈ (Outcome.ofFindings fs).items ↔ i ∈ fs.filterMap Finding.item? := by
  rw [Outcome.ofFindings, List.mem_append, List.mem_filter, List.mem_filter]
  cases i.preselect <;> simp

theorem mem_items_found {i : Item} :
    i ∈ (Outcome.ofFindings (found c preselect Keyword.all)).items ↔
      ∃ k, c.admits k ∧ i = .suggest k (preselect k) := by
  rw [mem_items_ofFindings, items_found]
  simp only [List.mem_map, List.mem_filter, Keyword.mem_all, true_and, eq_comm]

/-- The recommenders find what the context admits, and prefer what it prefers. -/
theorem dispatch_answers {b : Binding} (hb : c.model = b.model) (mode : DispatchMode) :
    Answers (default.dispatch c mode)
      (.ofFindings (found c (fun k => c.admits k && c.prefers b k) Keyword.all)) := by
  have h := findings_answers hb Keyword.all
  have hrun : Answers (default.dispatch c mode) (.ofFindings (default.arrange
      (found c (fun k => c.admits k && c.prefers b k) Keyword.all))) :=
    .polled (.bind h (.bind .poll (.pure _)))
  rwa [arrange_found] at hrun

theorem complete_finds (t : NodeTable) (b : Binding) (offset : Nat) (options : Options) :
    ∃ c, c = .gathered t b.model offset
        (Context.toldBehind t b (t.beforeTouchedWord (t.tokenBefore offset) offset)) ∧
      Answers (default.complete t b.model offset options)
        (.ok (.ofFindings (found c (fun k => c.admits k && c.prefers b k) Keyword.all))) :=
  ⟨_, rfl, .polled (.bind (Context.build_gathers t b offset)
    (.bind (dispatch_answers rfl options.dispatch) (.pure _)))⟩

/-- Completion suggests what the context of the place admits. -/
theorem complete_answers (t : NodeTable) (b : Binding) (offset : Nat) (options : Options) :
    ∃ outcome ids, Answers (default.complete t b.model offset options) (.ok outcome) ∧
      outcome.keywords = Keyword.all.filter (Context.gathered t b.model offset ids).admits ∧
      ∀ i ∈ outcome.items, i.preselect = true → i.keyword = .this := by
  obtain ⟨c, hc, hanswers⟩ := complete_finds t b offset options
  have hthis : ∀ k, (c.admits k && c.prefers b k) = true → k = .this :=
    fun k => Context.this_of_prefers
  refine ⟨_, _, hanswers, by rw [keywords_found hthis, hc], fun i hi hp => ?_⟩
  obtain ⟨k, -, rfl⟩ := mem_items_found.1 hi
  exact hthis k hp

end Registry

/-! ## Runs -/

theorem isBoundary_append (s t : List Char) : isBoundary (s ++ t) (byteLength s) := by
  induction s with
  | nil => simp [isBoundary]
  | cons c s ih =>
    have hpos := c.utf8Size_pos
    obtain ⟨n, hn⟩ : ∃ n, byteLength (c :: s) = n + 1 := ⟨byteLength (c :: s) - 1, by simp; omega⟩
    rw [List.cons_append, hn, isBoundary, ← hn]
    simpa using ih

namespace Run

/-- A run at the end of the first part of a text. -/
theorem ofSource_answers (fileName : String) (s t : List Char) (options : Options) :
    ∃ run ids, Answers (ofSource fileName (s ++ t) (some (byteLength s)) options) (.ok run) ∧
      ∀ k, k ∈ run.outcome.keywords ↔ (Context.gathered (.ofText (s ++ t))
        (Binding.ofTable (.ofText (s ++ t))).model (byteLength s) ids).admits k := by
  have hcaret : caretIn (s ++ t) (some (byteLength s)) = .ok (s ++ t, byteLength s) := by
    simp [caretIn, isBoundary_append]
  obtain ⟨outcome, ids, hcomplete, hk, -⟩ := Registry.complete_answers (.ofText (s ++ t))
    (.ofTable (.ofText (s ++ t))) (byteLength s) options
  refine ⟨⟨fileName, byteLength s, outcome, (State.ofText (s ++ t)).diagnostics.reverse⟩, ids, ?_,
    fun k => by rw [hk, List.mem_filter, and_iff_right (Keyword.mem_all k)]⟩
  unfold ofSource
  rw [hcaret]
  exact .bind (Binding.bind_answers _) (.bind hcomplete (.pure _))

end Run

end Caret
