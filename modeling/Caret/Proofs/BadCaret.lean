import Caret.Proofs.CaretMarker
/-!
# Requests that fail

A request that nobody cancels fails if its caret is bad, and for no other reason
(`Run.ofSource_fails_iff`). Every text has tokens and a tree, its types are numbered, the type model
answers every question about it and each recommender gives a verdict, so for a caret that is in the
text there is always an outcome, without faults.
-/

namespace Caret

/-- There is no such place: the offset is past the end of the source or inside of a character, or no
offset is given and the source has no marker. -/
def BadCaret (source : List Char) : (position : Option Nat) → Prop
  | some offset => byteLength source < offset ∨ isBoundary source offset = false
  | none => ¬ marker <:+: source

variable {source text : List Char} {position : Option Nat} {offset : Nat}

/-! ## The caret -/

/-- Requests can name every offset of a source that is not too long. -/
theorem splitMarker_eq_none_iff (hlength : byteLength source < Offset.limit) :
    splitMarker source = none ↔ ¬ marker <:+: source := by
  rw [← firstMarker_eq_none_iff, splitMarker, Option.filter_eq_none_iff]
  constructor
  · intro h
    refine Option.eq_none_iff_forall_not_mem.2 fun found hfound => h found hfound ?_
    obtain ⟨before, after, rfl, -, hoffset, -⟩ := exists_append_of_firstMarker hfound
    rw [byteLength_append, byteLength_append] at hlength
    exact decide_eq_true (by omega)
  · rintro h found hfound
    rw [h] at hfound
    cases hfound

namespace Run

theorem caretIn_eq_error_iff (hlength : byteLength source < Offset.limit) :
    (∃ e, caretIn source position = .error e) ↔ BadCaret source position := by
  cases position with
  | none =>
    rw [BadCaret, ← splitMarker_eq_none_iff hlength, caretIn]
    cases splitMarker source with
    | none => exact iff_of_true ⟨_, rfl⟩ rfl
    | some found => exact iff_of_false (by simp) (by simp)
  | some offset =>
    rw [BadCaret, caretIn]
    by_cases hpast : byteLength source < offset
    · rw [if_pos hpast]
      exact iff_of_true ⟨_, rfl⟩ (.inl hpast)
    · rw [if_neg hpast]
      cases hboundary : isBoundary source offset with
      | true => exact iff_of_false (by simp) (by simp [hpast])
      | false => exact iff_of_true ⟨_, rfl⟩ (.inr rfl)

end Run

/-! ## The outcome -/

/-- Recommenders that give a verdict are no fault. -/
theorem faults_found (c : Context) (preselect : Keyword → Bool) (ks : List Keyword) :
    (Outcome.ofFindings (found c preselect ks)).faults = [] := by
  refine List.filterMap_eq_nil_iff.2 fun f hf => ?_
  obtain ⟨k, -, rfl⟩ := List.mem_map.1 hf
  rfl

open Request

/-- The type model of a text answers all that is asked, so there is an outcome without faults. -/
theorem Registry.complete_faultless (t : NodeTable) (b : Binding) (offset : Nat)
    (options : Options) : ∃ outcome, Answers (default.complete t b.model offset options)
      (.ok outcome) ∧ outcome.cancelled = false ∧ outcome.faults = [] := by
  obtain ⟨c, -, hcomplete⟩ := complete_finds t b offset options
  exact ⟨_, hcomplete, rfl, faults_found c _ Keyword.all⟩

namespace Run

theorem ofSource_of_caretIn (fileName : String) (options : Options)
    (h : caretIn source position = .ok (text, offset)) :
    ∃ run, Answers (ofSource fileName source position options) (.ok run) ∧
      run.outcome.cancelled = false ∧ run.outcome.faults = [] := by
  obtain ⟨outcome, hcomplete, hcancelled, hfaults⟩ := Registry.complete_faultless (.ofText text)
    (.ofTable (.ofText text)) offset options
  refine ⟨⟨fileName, offset, outcome, (State.ofText text).diagnostics.reverse⟩, ?_, hcancelled,
    hfaults⟩
  unfold ofSource
  rw [h]
  exact .bind (Binding.bind_answers _) (.bind hcomplete (.pure _))

/-- A request that nobody cancels fails if and only if its caret is bad. Otherwise it has an outcome
that is not cancelled and has no faults, however malformed the source is. -/
theorem ofSource_fails_iff (fileName : String) (position : Option Nat) (options : Options)
    (hlength : byteLength source < Offset.limit) {s : RequestState} (hs : s.Untroubled) :
    ((∃ e, (ofSource fileName source position options s).1 = .error e) ↔
      BadCaret source position) ∧
    (¬ BadCaret source position → ∃ run,
      (ofSource fileName source position options s).1 = .ok run ∧
        run.outcome.cancelled = false ∧ run.outcome.faults = []) := by
  rw [← caretIn_eq_error_iff hlength]
  cases hcaret : caretIn source position with
  | error e =>
    have hrun : ofSource fileName source position options s = (.error e, s) := by
      unfold ofSource
      rw [hcaret]
      rfl
    rw [hrun]
    exact ⟨iff_of_true ⟨e, rfl⟩ ⟨e, rfl⟩, fun h => absurd ⟨e, rfl⟩ h⟩
  | ok caret =>
    obtain ⟨run, hrun, hcancelled, hfaults⟩ := ofSource_of_caretIn fileName options hcaret
    rw [(hrun s hs).1]
    exact ⟨iff_of_false (by simp) (by simp), fun _ => ⟨run, rfl, hcancelled, hfaults⟩⟩

/-- A caret behind an operator, in a text of which nothing is closed. -/
def nothingClosed : List Char := "class C\x7bvoid M(é)\x7bif(x+$$".toList

theorem ofSource_fails_iff_unclosed :
    byteLength nothingClosed < Offset.limit ∧ RequestState.quiet.Untroubled ∧
      ¬ BadCaret nothingClosed none ∧
      ∃ run, (ofSource "A.cs" nothingClosed none .default .quiet).1 = .ok run ∧
        run.outcome.cancelled = false ∧ run.outcome.faults = [] := by
  have hlength : byteLength nothingClosed < Offset.limit := by decide +kernel
  have hcaret : ¬ BadCaret nothingClosed none :=
    not_not_intro ⟨"class C\x7bvoid M(é)\x7bif(x+".toList, [], by decide +kernel⟩
  obtain ⟨-, hrun⟩ :=
    ofSource_fails_iff "A.cs" none .default hlength RequestState.untroubled_quiet
  exact ⟨hlength, RequestState.untroubled_quiet, hcaret, hrun hcaret⟩

end Run

end Caret
