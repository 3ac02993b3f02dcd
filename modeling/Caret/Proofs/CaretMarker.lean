import Caret.Proofs.Answers
import Caret.Proofs.FirstPart
import Mathlib.Data.List.Infix
/-!
# A marker in the text, or an offset

A caret may be given by a marker in the text or by an offset. The first marker is taken out
(`split_caret_marker`), so a marker written at an offset is found again if none begins before it; a
dollar sign right before the marker would begin one (`TakesMarker`). Such offsets are those that a
marker can tell, and a request is the same in either form (`Run.ofSource_marked`).
-/

namespace Caret

/-- How a caret is written into a text. -/
def marker : List Char := ['$', '$']

/-- A marker that is written at the offset is the first one: the offset is that of a character or of
the end, a request can name it, and no marker begins before it, not even one that ends in the
marker at the offset. -/
structure TakesMarker (text : List Char) (offset : Nat) : Prop where
  boundary : isBoundary text offset
  nameable : offset < Offset.limit
  first : ¬ marker <:+: firstPart offset text ++ ['$']

variable {c : Char} {before after text source : List Char} {offset : Nat}

/-! ## The first marker -/

theorem firstMarker_cons (h : ¬ marker <+: c :: text) :
    firstMarker (c :: text) =
      (firstMarker text).map fun (text, offset) => (c :: text, c.utf8Size + offset) := by
  refine firstMarker.eq_3 c text fun rest hc htext => h ?_
  rw [hc, htext]
  exact List.prefix_append marker rest

theorem firstMarker_marker (after : List Char) :
    firstMarker (marker ++ after) = some (after, 0) := rfl

/-- No marker begins in what stands before one. -/
theorem not_prefix_of_first (h : ¬ marker <:+: c :: before ++ ['$']) (after : List Char) :
    ¬ marker <+: c :: (before ++ marker ++ after) := by
  intro hprefix
  refine h (List.IsPrefix.isInfix ?_)
  cases before with
  | nil =>
    obtain ⟨rest, hrest⟩ := hprefix
    obtain ⟨hc, -⟩ := List.cons.inj hrest
    rw [← hc]
    exact List.prefix_rfl
  | cons d before =>
    obtain ⟨rest, hrest⟩ := hprefix
    obtain ⟨hc, hrest⟩ := List.cons.inj hrest
    obtain ⟨hd, -⟩ := List.cons.inj hrest
    rw [← hc, ← hd]
    exact List.prefix_append marker (before ++ ['$'])

theorem firstMarker_append (h : ¬ marker <:+: before ++ ['$']) (after : List Char) :
    firstMarker (before ++ marker ++ after) = some (before ++ after, byteLength before) := by
  induction before with
  | nil => exact firstMarker_marker after
  | cons c before ih =>
    have hrest : ¬ marker <:+: before ++ ['$'] := fun hinfix => h (List.infix_cons hinfix)
    rw [List.cons_append, List.cons_append, firstMarker_cons (not_prefix_of_first h after),
      ih hrest]
    rfl

/-- What is found is the first marker of the text. -/
theorem exists_append_of_firstMarker (h : firstMarker source = some (text, offset)) :
    ∃ before after, source = before ++ marker ++ after ∧ text = before ++ after ∧
      offset = byteLength before ∧ ¬ marker <:+: before ++ ['$'] := by
  fun_induction firstMarker source generalizing text offset with
  | case1 => cases h
  | case2 rest =>
    obtain ⟨rfl, rfl⟩ := Prod.mk.inj (Option.some.inj h)
    exact ⟨[], rest, rfl, rfl, rfl, by decide⟩
  | case3 c rest hmarker ih =>
    obtain ⟨⟨text', offset'⟩, hfound, hpair⟩ := Option.map_eq_some_iff.1 h
    obtain ⟨rfl, rfl⟩ := Prod.mk.inj hpair
    obtain ⟨before, after, rfl, rfl, rfl, hfirst⟩ := ih hfound
    refine ⟨c :: before, after, rfl, rfl, rfl, fun hinfix => ?_⟩
    rcases List.infix_cons_iff.1 hinfix with ⟨tail, htail⟩ | hinfix
    · -- a marker that begins at `c` would have been found
      obtain ⟨rfl, hhead⟩ := List.cons.inj htail
      cases before with
      | nil => exact hmarker _ rfl rfl
      | cons d before =>
        obtain ⟨rfl, -⟩ := List.cons.inj hhead
        exact hmarker _ rfl rfl
    · exact hfirst hinfix

/-- A marker is missed only if there is none. -/
theorem firstMarker_eq_none_iff : firstMarker source = none ↔ ¬ marker <:+: source := by
  constructor
  · rintro h ⟨before, after, hsource⟩
    induction before generalizing source with
    | nil =>
      rw [← hsource, List.nil_append, firstMarker_marker] at h
      cases h
    | cons c before ih =>
      rw [← hsource, List.cons_append, List.cons_append] at h
      by_cases hprefix : marker <+: c :: (before ++ marker ++ after)
      · obtain ⟨rest, hrest⟩ := hprefix
        rw [← hrest, firstMarker_marker] at h
        cases h
      · rw [firstMarker_cons hprefix, Option.map_eq_none_iff] at h
        exact ih h rfl
  · intro h
    refine Option.eq_none_iff_forall_not_mem.2 fun found hfound => h ?_
    obtain ⟨before, after, hsource, -⟩ := exists_append_of_firstMarker hfound
    exact ⟨before, after, hsource.symm⟩

/-! ## Markers at offsets -/

theorem insertMarker_append (before after : List Char) :
    insertMarker (before ++ after) (byteLength before) = before ++ marker ++ after := by
  induction before with
  | nil =>
    unfold insertMarker
    cases after <;> rfl
  | cons c before ih =>
    obtain ⟨n, hn⟩ : ∃ n, byteLength (c :: before) = n + 1 :=
      Nat.exists_eq_succ_of_ne_zero (by have := c.utf8Size_pos; simp; omega)
    rw [hn, List.cons_append, insertMarker, ← hn, byteLength_cons, Nat.add_sub_cancel_left, ih]
    rfl

/-- A marker tells the offsets that take one. -/
theorem splitMarker_eq_some_iff :
    splitMarker source = some (text, offset) ↔
      TakesMarker text offset ∧ source = insertMarker text offset := by
  rw [splitMarker, Option.filter_eq_some_iff, decide_eq_true_eq]
  constructor
  · rintro ⟨hfound, hlimit⟩
    obtain ⟨before, after, rfl, rfl, rfl, hfirst⟩ := exists_append_of_firstMarker hfound
    rw [insertMarker_append]
    refine ⟨⟨isBoundary_append before after, hlimit, ?_⟩, rfl⟩
    rwa [firstPart_append]
  · rintro ⟨⟨hboundary, hlimit, hfirst⟩, rfl⟩
    obtain ⟨before, after, rfl, rfl⟩ := exists_append_of_isBoundary hboundary
    rw [firstPart_append] at hfirst
    rw [insertMarker_append]
    exact ⟨firstMarker_append hfirst after, hlimit⟩

theorem le_byteLength_of_isBoundary (h : isBoundary text offset) : offset ≤ byteLength text := by
  obtain ⟨before, after, rfl, rfl⟩ := exists_append_of_isBoundary h
  rw [byteLength_append]
  exact Nat.le_add_right _ _

namespace Run

theorem caretIn_of_isBoundary (h : isBoundary text offset) :
    caretIn text (some offset) = .ok (text, offset) := by
  have hle := le_byteLength_of_isBoundary h
  rw [caretIn, if_neg (Nat.not_lt.2 hle), if_pos h]

theorem caretIn_insertMarker (h : TakesMarker text offset) :
    caretIn (insertMarker text offset) none = .ok (text, offset) := by
  have hsplit := splitMarker_eq_some_iff.2 ⟨h, rfl⟩
  rw [caretIn, hsplit]

/-- A marker is read as the text without it and the offset at which it stood, and completion in the
marked text is completion in that text at the offset, however the request is cancelled. -/
theorem ofSource_marked (text : List Char) (offset : Nat) :
    (∀ source, splitMarker source = some (text, offset) ↔
      TakesMarker text offset ∧ source = insertMarker text offset) ∧
    (TakesMarker text offset → ∀ fileName options (s : RequestState),
      ofSource fileName (insertMarker text offset) none options s =
        ofSource fileName text (some offset) options s) := by
  refine ⟨fun _ => splitMarker_eq_some_iff, fun h fileName options s => ?_⟩
  rw [ofSource, ofSource, caretIn_insertMarker h, caretIn_of_isBoundary h.boundary]

/-- Dollar signs on both sides of the caret: only those behind it may be a marker. -/
theorem ofSource_marked_dollars :
    TakesMarker "é$ $$x".toList 4 ∧
      splitMarker "é$ $$$$x".toList = some ("é$ $$x".toList, 4) ∧
      ofSource "A.cs" "é$ $$$$x".toList none .default .quiet =
        ofSource "A.cs" "é$ $$x".toList (some 4) .default .quiet := by
  have htakes : TakesMarker "é$ $$x".toList 4 :=
    ⟨by decide +kernel, by decide +kernel, by decide +kernel⟩
  obtain ⟨hsplit, hrun⟩ := ofSource_marked "é$ $$x".toList 4
  have hsource : insertMarker "é$ $$x".toList 4 = "é$ $$$$x".toList := by decide +kernel
  rw [← hsource]
  exact ⟨htakes, (hsplit _).2 ⟨htakes, rfl⟩, hrun htakes _ _ _⟩

end Run

end Caret
