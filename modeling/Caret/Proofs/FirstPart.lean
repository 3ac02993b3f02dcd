import Caret.Proofs.Continuation
/-!
# Tokens before a cut

A text may be cut anywhere: inside of a word, an escape, an operator or the mark that opens or
closes a comment. The piece at the cut then changes, but both before and after the cut is made it
reaches to the cut at least (`Piece.first_reaches`). So the tokens that end short of the cut are the
same in the whole text and in its first part (`scan_firstPart`).
-/

namespace Caret

/-! ## The first part of a text -/

/-- The first characters of a text, as many as the bytes hold. -/
def firstPart : Nat → List Char → List Char
  | 0, _ | _, [] => []
  | bytes + 1, c :: cs => c :: firstPart (bytes + 1 - c.utf8Size) cs

theorem firstPart_append (before after : List Char) :
    firstPart (byteLength before) (before ++ after) = before := by
  induction before with
  | nil => simp [firstPart]
  | cons c before ih =>
    obtain ⟨bytes, hbytes⟩ : ∃ bytes, byteLength (c :: before) = bytes + 1 :=
      Nat.exists_eq_succ_of_ne_zero (by have := c.utf8Size_pos; simp; omega)
    rw [hbytes, List.cons_append, firstPart, ← hbytes, byteLength_cons, Nat.add_sub_cancel_left, ih]

/-- An offset between characters parts the text. -/
theorem exists_append_of_isBoundary {text : List Char} {offset : Nat}
    (h : isBoundary text offset) :
    ∃ before after, text = before ++ after ∧ byteLength before = offset := by
  induction text generalizing offset with
  | nil =>
    cases offset with
    | zero => exact ⟨[], [], rfl, rfl⟩
    | succ => simp [isBoundary] at h
  | cons c text ih =>
    cases offset with
    | zero => exact ⟨[], c :: text, rfl, rfl⟩
    | succ offset =>
      simp only [isBoundary, Bool.and_eq_true, decide_eq_true_eq] at h
      obtain ⟨before, after, rfl, hbefore⟩ := ih h.2
      exact ⟨c :: before, after, rfl, by rw [byteLength_cons, hbefore]; omega⟩

/-! ## The piece at the cut -/

namespace Piece

variable {p : Char → Bool} {c : Char} {cs : List Char}

theorem run_reaches (h : cs.length ≤ run p cs) (u : List Char) : cs.length ≤ run p (cs ++ u) := by
  rw [run_append_of_all (all_of_run h)]
  exact Nat.le_add_right _ _

theorem stringRest_reaches (u : List Char) :
    ∀ {cs : List Char}, cs.length ≤ stringRest cs → cs.length ≤ stringRest (cs ++ u) := by
  intro cs
  fun_induction stringRest cs with
  | case1 => exact fun _ => Nat.zero_le _
  | case2 cs =>
    intro h
    exact h
  | case3 => intro h; cases h
  | case4 =>
    intro _
    cases u with
    | nil => exact Nat.le_refl 1
    | cons d u => exact Nat.le_add_left 1 _
  | case5 d cs ih =>
    intro h
    simp only [List.length_cons] at h
    exact Nat.add_le_add_right (ih (by omega)) 2
  | case6 c cs hquote hline hlast hescape ih =>
    intro h
    have hc : c ≠ '\\' := by
      rintro rfl
      cases cs with
      | nil => exact hlast rfl rfl
      | cons d ds => exact hescape d ds rfl rfl
    rw [List.length_cons] at h ⊢
    rw [List.cons_append, stringRest.eq_6 _ _ hquote hline (fun e => absurd e hc)
      (fun _ _ e => absurd e hc)]
    exact Nat.succ_le_succ (ih (Nat.le_of_succ_le_succ h))

theorem lexeme_reaches (h : cs.length ≤ (lexeme c cs).more) (u : List Char) :
    cs.length ≤ (lexeme c (cs ++ u)).more := by
  unfold lexeme at h ⊢
  split
  · rename_i hc
    rw [if_pos hc] at h
    exact stringRest_reaches u h
  · rename_i hc
    rw [if_neg hc] at h
    split
    · rename_i hd
      rw [if_pos hd] at h
      exact run_reaches h u
    · rename_i hd
      rw [if_neg hd] at h
      split
      · rename_i hn
        rw [if_pos hn] at h
        exact run_reaches h u
      · rename_i hn
        rw [if_neg hn] at h
        exact h

/-- The first piece of a text is that of every longer text, or it reaches to the end of the text
with and without what follows. -/
theorem first_reaches (c : Char) (cs u : List Char) :
    (first c (cs ++ u) = first c cs ∧ (first c cs).more ≤ cs.length) ∨
      (cs.length ≤ (first c cs).more ∧ cs.length ≤ (first c (cs ++ u)).more) := by
  by_cases hshort : (first c cs).kind ≠ none → (first c cs).more < cs.length
  · have happend := first_append (w := []) (by simp) u hshort
    rw [List.nil_append, List.length_nil, Nat.add_zero] at happend
    exact happend.imp_right fun ⟨_, hle, _, hle'⟩ => ⟨hle, hle'⟩
  · obtain ⟨hkind, hlong⟩ := Classical.not_imp.1 hshort
    have hlong := Nat.not_lt.1 hlong
    cases cs with
    | nil => exact .inr ⟨Nat.zero_le _, Nat.zero_le _⟩
    | cons d ds =>
      have hcomment : c = '/' → d ≠ '/' ∧ d ≠ '*' := by
        rintro rfl
        constructor
        · rintro rfl
          exact hkind (by rw [first_line])
        · rintro rfl
          exact hkind (by rw [first_block])
      have hgap (ds : List Char) : gap c (d :: ds) = none := by
        rw [gap_cons hcomment, if_neg]
        intro hblank
        exact hkind (by rw [first, gap_cons hcomment, if_pos hblank]; rfl)
      have hfirst (ds : List Char) :
          first c (d :: ds) = (punctuation c (some d)).getD (lexeme c (d :: ds)) := by
        rw [first, hgap]
        rfl
      rw [List.cons_append, hfirst]
      rw [hfirst] at hlong ⊢
      cases hp : punctuation c (some d) with
      | some piece =>
        rw [hp] at hlong
        exact .inr ⟨hlong, hlong⟩
      | none =>
        rw [hp] at hlong
        exact .inr ⟨hlong, lexeme_reaches hlong u⟩

end Piece

/-! ## The tokens -/

variable {cs : List Char}

/-- No token that starts at the limit or behind it ends before the limit. -/
theorem filter_stop_eq_nil {limit : Nat} {ts : List Token} (h : ∀ t ∈ ts, limit ≤ t.start) :
    ts.filter (·.stop < limit) = [] := by
  rw [List.filter_eq_nil_iff]
  intro t ht
  rw [decide_eq_true_eq, Nat.not_lt]
  exact Nat.le_trans (h t ht) (Nat.le_add_right _ _)

/-- What a piece that reaches to the limit leaves of the tokens. -/
theorem filter_stop_reaching (offset : Nat) (u : List Char) {skip : Nat} (h : cs.length ≤ skip) :
    (scanFrom offset skip (cs ++ u)).filter (·.stop < offset + byteLength cs) = [] := by
  refine filter_stop_eq_nil fun t ht => ?_
  have hstart := scanFrom_start _ _ _ t ht
  rw [List.take_append, List.take_of_length_le h, byteLength_append] at hstart
  omega

/-- Whatever follows a text, the tokens that end before its end are its own. -/
theorem scanFrom_filter_append (u : List Char) : ∀ (cs : List Char) (offset skip : Nat),
    skip ≤ cs.length →
    (scanFrom offset skip (cs ++ u)).filter (·.stop < offset + byteLength cs) =
      (scanFrom offset skip cs).filter (·.stop < offset + byteLength cs)
  | [], offset, skip, _ => by
    have hskip : ([] : List Char).length ≤ skip := Nat.zero_le skip
    rw [filter_stop_reaching _ u hskip, ← filter_stop_reaching _ [] hskip, List.append_nil]
  | c :: cs, offset, skip + 1, hskip => by
    rw [byteLength_cons, ← Nat.add_assoc]
    exact scanFrom_filter_append u cs _ skip (Nat.le_of_succ_le_succ hskip)
  | c :: cs, offset, 0, _ => by
    rw [List.cons_append, scanFrom_cons, scanFrom_cons, List.filter_append, List.filter_append,
      byteLength_cons, ← Nat.add_assoc]
    rcases Piece.first_reaches c cs u with ⟨hfirst, hle⟩ | ⟨hlong, hlong'⟩
    · rw [hfirst, List.take_append_of_le_length hle, scanFrom_filter_append u cs _ _ hle]
    · -- the piece reaches to the cut, so neither its token nor any behind it ends before
      have hpiece (v : List Char) (hv : cs.length ≤ (Piece.first c (cs ++ v)).more) :
          (((Piece.first c (cs ++ v)).kind.map fun k =>
            (⟨k, offset, c :: (cs ++ v).take (Piece.first c (cs ++ v)).more⟩ : Token)).toList.filter
              (·.stop < offset + c.utf8Size + byteLength cs)) = [] := by
        rw [List.filter_eq_nil_iff]
        intro t ht
        obtain ⟨k, -, rfl⟩ := Option.map_eq_some_iff.1 (Option.mem_toList.1 ht)
        rw [List.take_append, List.take_of_length_le hv]
        simp only [Token.stop, byteLength_cons, byteLength_append, decide_eq_true_eq]
        omega
      have hnil := hpiece [] (by rwa [List.append_nil])
      have hrest := filter_stop_reaching (offset + c.utf8Size) [] hlong
      rw [List.append_nil] at hnil hrest
      rw [hpiece u hlong', filter_stop_reaching _ u hlong', hnil, hrest]

/-- What stands behind an offset does not change the tokens that end before it. -/
theorem scan_firstPart {text : List Char} {offset : Nat} (h : isBoundary text offset) :
    (scan text).filter (·.stop < offset) =
      (scan (firstPart offset text)).filter (·.stop < offset) := by
  obtain ⟨before, after, rfl, rfl⟩ := exists_append_of_isBoundary h
  have happend := scanFrom_filter_append after before 0 0 (Nat.zero_le _)
  rw [Nat.zero_add] at happend
  rw [firstPart_append]
  exact happend

/-- A cut between the two characters that close a comment: the comment is open in the first part. -/
theorem scan_firstPart_comment :
    isBoundary "x/* é */=y".toList 8 ∧
      (scan "x/* é */=y".toList).filter (·.stop < 8) =
        (scan (firstPart 8 "x/* é */=y".toList)).filter (·.stop < 8) :=
  ⟨by decide +kernel, scan_firstPart (by decide +kernel)⟩

end Caret
