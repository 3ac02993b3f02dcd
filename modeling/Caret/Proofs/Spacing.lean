import Caret.Proofs.Consumption
import Caret.Proofs.Continuation
/-!
# Words with blanks between them

A word stands by itself if its text is read as one token of its kind wherever a blank follows it, or
the end of the text. Words that stand by themselves and have blanks between them are the tokens of
the text (`scan_spaced`). The words that are always written alike are such words
(`TokenKind.stands_word`).
-/

namespace Caret

open Piece

/-- How all tokens of the kind are written. -/
def TokenKind.word (k : TokenKind) : Word := (k, k.spelling)

/-- Before a blank, and at the end of a text, the text of the word is read as one token of its
kind. -/
def Word.Stands (w : Word) : Prop :=
  ∃ c cs, w.2 = c :: cs ∧ ∀ next : Option Char, (∀ d ∈ next, isBlank d) →
    first c (cs ++ next.toList) = ⟨some w.1, cs.length⟩

/-- The text consists of the words and of blanks, which separate the words. -/
inductive Spaced : List Word → List Char → Prop
  | nil {gap} : (∀ c ∈ gap, isBlank c) → Spaced [] gap
  | cons {gap w words rest} : (∀ c ∈ gap, isBlank c) → Spaced words rest →
      (∀ c ∈ rest.head?, isBlank c) → Spaced (w :: words) (gap ++ (w.2 ++ rest))

/-- A blank behind each word is enough. -/
theorem spaced_flatMap (words : List Word) :
    Spaced words (words.flatMap fun w => w.2 ++ [' ']) := by
  have hblank : ∀ c ∈ [' '], isBlank c := by simp [isBlank]
  suffices h : ∀ gap, (∀ c ∈ gap, isBlank c) →
      Spaced words (gap ++ words.flatMap fun w => w.2 ++ [' ']) from h [] (by simp)
  induction words with
  | nil => exact fun gap h => by simpa using Spaced.nil h
  | cons w words ih =>
    intro gap hgap
    have h := Spaced.cons (w := w) hgap (ih [' '] hblank) fun c hc =>
      hblank c (by simpa using hc.symm)
    simpa using h

/-! ## Their tokens -/

/-- Whatever follows the blank. -/
theorem Word.Stands.first {w : Word} (h : w.Stands) : ∃ c cs, w.2 = c :: cs ∧
    ∀ rest : List Char, (∀ d ∈ rest.head?, isBlank d) →
      Piece.first c (cs ++ rest) = ⟨some w.1, cs.length⟩ := by
  obtain ⟨c, cs, hw, hfirst⟩ := h
  refine ⟨c, cs, hw, fun rest hrest => ?_⟩
  cases rest with
  | nil => exact hfirst none (by simp)
  | cons d ds =>
    have hd : Piece.first c (cs ++ [d]) = ⟨some w.1, cs.length⟩ :=
      hfirst (some d) fun e he => hrest e he
    obtain ⟨e, es, hes⟩ : ∃ e es, cs ++ [d] = e :: es :=
      List.exists_cons_of_ne_nil (by simp)
    rw [List.append_cons, hes]
    rw [hes] at hd
    rw [first_append_of_ne (fun hc => ?_) (fun _ => ?_) ds, hd]
    · constructor
      · rintro rfl
        rw [hc, first_line] at hd
        cases hd
      · rintro rfl
        rw [hc, first_block] at hd
        cases hd
    · rw [hd, ← hes]
      simp

theorem scanFrom_blanks {gap : List Char} (h : ∀ c ∈ gap, isBlank c) (offset : Nat)
    (rest : List Char) :
    scanFrom offset 0 (gap ++ rest) = scanFrom (offset + byteLength gap) 0 rest := by
  induction gap generalizing offset with
  | nil => rfl
  | cons c gap ih =>
    obtain ⟨hc, hgap⟩ := List.forall_mem_cons.1 h
    have hslash : c ≠ '/' := by rintro rfl; cases hc
    have hfirst : Piece.first c (gap ++ rest) = ⟨none, 0⟩ := by
      rw [Piece.first, Piece.gap.eq_3 _ _ (fun _ e => absurd e hslash) (fun _ e => absurd e hslash),
        if_pos hc]
      rfl
    rw [List.cons_append, scanFrom_cons, hfirst, byteLength_cons, ← Nat.add_assoc, ← ih hgap]
    rfl

theorem scanFrom_stands {w : Word} (h : w.Stands) {rest : List Char}
    (hrest : ∀ c ∈ rest.head?, isBlank c) (offset : Nat) : scanFrom offset 0 (w.2 ++ rest) =
      ⟨w.1, offset, w.2⟩ :: scanFrom (offset + byteLength w.2) 0 rest := by
  obtain ⟨c, cs, hw, hfirst⟩ := h.first
  have hskip := scanFrom_skip (offset + c.utf8Size) 0 cs rest
  rw [hw, List.cons_append, scanFrom_cons, hfirst rest hrest, List.take_left, byteLength_cons,
    ← Nat.add_assoc, ← hskip]
  rfl

/-- The tokens of the text are the words. -/
theorem scan_spaced {words : List Word} {text : List Char} (h : Spaced words text)
    (hw : ∀ w ∈ words, w.Stands) : (scan text).dropLast.map Token.word = words := by
  suffices hscan : ∀ offset, ∃ ts stop, scanFrom offset 0 text = ts ++ [.endOfFile stop] ∧
      ts.map Token.word = words by
    obtain ⟨ts, stop, hts, rfl⟩ := hscan 0
    rw [scan, hts, List.dropLast_concat]
  induction h with
  | @nil gap hgap =>
    intro offset
    have hblanks := scanFrom_blanks hgap offset []
    rw [List.append_nil] at hblanks
    exact ⟨[], _, hblanks, rfl⟩
  | @cons gap w words rest hgap _ hrest ih =>
    obtain ⟨hstands, hwords⟩ := List.forall_mem_cons.1 hw
    intro offset
    obtain ⟨ts, stop, hts, hmap⟩ := ih hwords (offset + byteLength gap + byteLength w.2)
    refine ⟨⟨w.1, offset + byteLength gap, w.2⟩ :: ts, stop, ?_, ?_⟩
    · rw [scanFrom_blanks hgap, scanFrom_stands hstands hrest, hts]
      rfl
    · rw [List.map_cons, hmap]
      rfl

/-! ## Words that stand by themselves -/

theorem not_continuesName_of_isBlank {c : Char} (h : isBlank c) : continuesName c = false := by
  simp only [isBlank, Bool.or_eq_true, beq_iff_eq] at h
  rcases h with ((rfl | rfl) | rfl) | rfl <;> rfl

/-- What is read alike before every blank. -/
theorem stands_of_blanks {k : TokenKind} {c : Char} {cs : List Char}
    (h : ∀ next ∈ [none, some ' ', some '\t', some '\r', some '\n'],
      Piece.first c (cs ++ next.toList) = ⟨some k, cs.length⟩) : Word.Stands (k, c :: cs) := by
  refine ⟨c, cs, rfl, fun next hnext => h next ?_⟩
  cases next with
  | none => simp
  | some d =>
    have hd := hnext d rfl
    simp only [isBlank, Bool.or_eq_true, beq_iff_eq] at hd
    rcases hd with ((rfl | rfl) | rfl) | rfl <;> simp

theorem stands_of_letters {c : Char} {cs : List Char} (h : ∀ d ∈ c :: cs, d.isAlpha) :
    Word.Stands (wordKind (c :: cs), c :: cs) := by
  refine ⟨c, cs, rfl, fun next hnext => first_word h fun d hd => ?_⟩
  rw [Option.head?_toList] at hd
  exact not_continuesName_of_isBlank (hnext d hd)

/-- What is always written alike stands by itself. -/
theorem TokenKind.stands_word {k : TokenKind} (h : k.spelling ≠ []) : k.word.Stands := by
  by_cases hk : k.isKeyword = true
  · obtain ⟨c, cs, hcs⟩ := List.exists_cons_of_ne_nil h
    have hletters : ∀ d ∈ k.spelling, d.isAlpha := by
      rw [← List.all_eq_true]
      revert hk
      cases k <;> decide
    have hkind : wordKind k.spelling = k := by rw [wordKind, ofWord?_spelling hk]; rfl
    rw [hcs] at hletters hkind
    have hstands := stands_of_letters hletters
    rwa [hkind, ← hcs] at hstands
  · revert h hk
    cases k <;> intro h hk <;>
      first
      | exact absurd rfl h
      | exact absurd rfl hk
      | exact stands_of_blanks (by decide +kernel)

end Caret
