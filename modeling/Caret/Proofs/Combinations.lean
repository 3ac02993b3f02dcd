import Caret.Proofs.Stability
/-!
# Which keywords are suggested together

The rules of the recommenders overlap, but not in all ways: where a modifier of a parameter may
start nothing of an instance may, and behind the colon of a constructor no argument starts. So only
seven lists of keywords are ever suggested (`Registry.complete_combinations`).
-/

namespace Caret

open NodeTable

/-! ## Rules that go together, and rules that do not -/

namespace Frames

variable {fs : List Frame} {k : TokenKind} {onlyFirst : Bool}

theorem allowsParameterModifier_mono (h : allowsParameterModifier k fs true) :
    allowsParameterModifier k fs false := by
  unfold allowsParameterModifier at h ⊢
  split at h <;> simp_all

/-- A modifier of a parameter starts behind one of three tokens. -/
theorem kind_of_allowsParameterModifier (h : allowsParameterModifier k fs onlyFirst) :
    (k = .openParen ∨ k = .comma) ∧ headIs (· == .parameterList) fs ∨ k = .closeBracket := by
  unfold allowsParameterModifier at h
  split at h
  · exact .inl ⟨.inl rfl, (Bool.and_eq_true_iff.1 h).1⟩
  · exact .inl ⟨.inr rfl, (Bool.and_eq_true_iff.1 (Bool.and_eq_true_iff.1 h).2).1⟩
  · exact .inr rfl
  · cases h

/-- What starts in an instance does not start where a parameter does. -/
theorem startsInInstance_of_modifier (h : allowsParameterModifier k fs onlyFirst) :
    startsInInstance k fs = false := by
  have hexpression : allowsExpression k fs = false := by
    rcases kind_of_allowsParameterModifier h with ⟨rfl | rfl, hlist⟩ | rfl
    · exact headIs_eq_false hlist fun n hn => by rw [eq_of_beq hn]; rfl
    · exact headIs_eq_false hlist fun n hn => by rw [eq_of_beq hn]; rfl
    · cases fs <;> rfl
  have hstatement : allowsStatement k fs = false := by
    rcases kind_of_allowsParameterModifier h with ⟨rfl | rfl, -⟩ | rfl <;> rfl
  rw [startsInInstance, hexpression, hstatement, Bool.false_and, Bool.or_false, Bool.and_false]

theorem initializes_of_modifier (h : allowsParameterModifier k fs onlyFirst) :
    initializes k fs = false := by
  rcases kind_of_allowsParameterModifier h with ⟨rfl | rfl, -⟩ | rfl <;> rfl

theorem kind_of_initializes (h : initializes k fs) : k = .colon := by
  simp only [initializes, Bool.and_eq_true, beq_iff_eq] at h
  exact h.1.1.1

theorem allowsArgumentModifier_of_initializes (h : initializes k fs) :
    allowsArgumentModifier k fs = false := by
  rw [kind_of_initializes h]
  rfl

theorem above_ne_nil {p : NodeKind → Bool} {gs : List Frame} (h : headIs p gs) (hs : gs <:+ fs) :
    above p fs ≠ [] := by
  intro he
  cases gs with
  | nil => cases h
  | cons g gs =>
    have hall := List.dropWhile_eq_nil_iff.1 he g (hs.subset (List.mem_cons_self ..))
    rw [show p g.kind = true from h] at hall
    cases hall

/-- The members of an instance stand in a type, and nothing starts behind a brace that closes it. -/
theorem containsType_of_startsInInstance (h : startsInInstance k fs) : containsType k fs := by
  simp only [startsInInstance, inInstance, Bool.and_eq_true] at h
  obtain ⟨⟨hmember, -⟩, hstarts⟩ := h
  have htype := above_ne_nil hmember ((List.tail_suffix _).trans (List.dropWhile_suffix _))
  have hopen : (k == .closeBrace && headIs NodeKind.isTypeDeclaration fs) = false := by
    refine Bool.eq_false_iff.2 fun hclose => ?_
    obtain ⟨hk, hhead⟩ := Bool.and_eq_true_iff.1 hclose
    obtain rfl := eq_of_beq hk
    have hexpression : allowsExpression .closeBrace fs = false := by cases fs <;> rfl
    have hblock : headIs (· == .block) fs = false :=
      headIs_eq_false hhead fun n => by cases n <;> decide
    rw [hexpression, Bool.false_and, Bool.false_or, allowsStatement, hblock, Bool.false_and] at hstarts
    cases hstarts
  simpa [containsType, hopen] using htype

end Frames

namespace Keyword

/-- The lists of keywords that are suggested at some place. -/
def combinations : List (List Keyword) := [
  [], [.this], [.this, .base], [.ref, .out], [.this, .base, .ref, .out], [.ref, .out, .params],
  [.this, .ref, .out, .params]]

/-- What is suggested with what. -/
structure Compatible (f : Keyword → Bool) : Prop where
  out : f .out = f .ref
  base : f .base → f .this
  params : f .params → f .ref
  exclusive : f .params → f .base = false
  mixed : f .this → f .ref → f .params = false → f .base

theorem Compatible.filter_mem {f : Keyword → Bool} (h : Compatible f) :
    all.filter f ∈ combinations := by
  obtain ⟨hout, hbase, hparams, hexclusive, hmixed⟩ := h
  simp only [all, List.filter, hout]
  revert hbase hparams hexclusive hmixed
  generalize f .this = this
  generalize f .base = base
  generalize f .ref = ref
  generalize f .params = params
  revert this base ref params
  decide

end Keyword

/-! ## The keywords of a place -/

namespace Context

variable {c : Context} {fs : List Frame} {k : TokenKind} {receiver : Bool}

/-- The keywords that frames admit go together. Whether `this` starts a receiver is left open, for
the method may be another one than that of the target token. -/
theorem compatible_of_frames
    (hthis : c.admits .this = (Frames.startsInInstance k fs || Frames.initializes k fs ||
      (Frames.allowsParameterModifier k fs true && receiver)))
    (hother : ∀ w, w ≠ .this → c.admits w = Frames.admits w k fs) : Keyword.Compatible c.admits := by
  have hbase := hother .base (by decide)
  have href := hother .ref (by decide)
  have hparams := hother .params (by decide)
  simp only [Frames.admits] at hbase href hparams
  refine ⟨?_, fun h => ?_, fun h => ?_, fun h => ?_, fun ht hr hp => ?_⟩
  · rw [href, hother .out (by decide), Frames.admits]
  · rw [hbase, Bool.and_eq_true, Bool.or_eq_true, Bool.and_eq_true] at h
    rcases h.2 with hs | ⟨hi, -⟩
    · rw [hthis, hs, Bool.true_or, Bool.true_or]
    · rw [hthis, hi, Bool.or_true, Bool.true_or]
  · rw [hparams] at h
    rw [href, h, Bool.true_or]
  · rw [hparams] at h
    rw [hbase, Frames.startsInInstance_of_modifier h, Frames.initializes_of_modifier h,
      Bool.false_and, Bool.or_false, Bool.and_false]
  · rw [hparams] at hp
    rw [href, hp, Bool.false_or] at hr
    have hfirst : Frames.allowsParameterModifier k fs true = false :=
      Bool.eq_false_iff.2 fun h => by
        rw [Frames.allowsParameterModifier_mono h] at hp
        cases hp
    have hinitializes : Frames.initializes k fs = false := Bool.eq_false_iff.2 fun h => by
      rw [Frames.allowsArgumentModifier_of_initializes h] at hr
      cases hr
    rw [hthis, hinitializes, hfirst, Bool.or_false, Bool.false_and, Bool.or_false] at ht
    rw [hbase, ht, Frames.containsType_of_startsInInstance ht, Bool.true_or, Bool.true_and]

theorem compatible_gathered {root : Tree} (hroot : root.WellFormed)
    (hsorted : root.tokens.Pairwise fun t u => t.start < u.start) (hsh : (ofTree root).Shallow)
    (model : Model) (offset : Nat) (ids : List TypeId) :
    Keyword.Compatible (gathered (ofTree root) model offset ids).admits := by
  rcases target_cases hsorted offset with hnone | ⟨init, x, late, htokens, s, hs, hx, htarget, -⟩
  · have hno (w : Keyword) : (gathered (ofTree root) model offset ids).admits w = false :=
      admits_eq_false hnone w
    exact ⟨by rw [hno, hno], by simp [hno], by simp [hno], fun _ => hno _, by simp [hno]⟩
  · obtain ⟨fs, ls, -, -, hstands, hladder⟩ := exists_ladder_of_site hsorted hs hx
    have hthis : (gathered (ofTree root) model offset ids).admits .this = _ :=
      admits_this_gathered hsh hstands hladder hx htarget hroot
    rw [Bool.and_assoc] at hthis
    exact compatible_of_frames hthis fun w hw =>
      admits_gathered hsh hstands hladder hx htarget hroot fun h => absurd h hw

end Context

/-! ## Completion -/

namespace Registry

/-- The default registry suggests one of seven lists of keywords, if nobody cancels the request and
no walk is cut off. The keywords stand in the order of registration, in which `this` comes first, and
`this` is the only one that is ever preselected. -/
theorem complete_combinations (text : List Char) (b : Binding) (offset : Nat) (options : Options)
    (hsh : (NodeTable.ofText text).Shallow) {r : RequestState} (hr : r.Untroubled) :
    ∃ outcome, (default.complete (.ofText text) b.model offset options r).1 = .ok outcome ∧
      outcome.keywords ∈ Keyword.combinations ∧
      ∀ i ∈ outcome.items, i.preselect = true → i.keyword = .this := by
  obtain ⟨outcome, ids, hanswers, hkeywords, hpreselect⟩ :=
    complete_answers (.ofText text) b offset options
  refine ⟨outcome, (hanswers r hr).1, ?_, hpreselect⟩
  have hsorted := scan_sorted text
  rw [← SourceFile.root_tokens text] at hsorted
  rw [NodeTable.ofText_eq] at hsh
  rw [hkeywords, NodeTable.ofText_eq]
  exact (Context.compatible_gathered (SourceFile.root_wellFormed text) hsorted hsh b.model offset
    ids).filter_mem

/-- The parameters of a static method of a static class. -/
theorem complete_combinations_receiver : ∃ outcome,
    (default.complete (.ofText "static class C \x7b static void M(".toList)
      (Binding.ofTable (.ofText "static class C \x7b static void M(".toList)).model 31
      .default .quiet).1 = .ok outcome ∧
    outcome.keywords ∈ Keyword.combinations ∧
    ∀ i ∈ outcome.items, i.preselect = true → i.keyword = .this :=
  complete_combinations _ _ _ _ (NodeTable.shallow_of_size_le (by decide +kernel))
    RequestState.untroubled_quiet

end Registry

end Caret
