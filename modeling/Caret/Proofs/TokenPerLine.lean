import Caret.Proofs.Spacing
import Caret.Proofs.Tiling
/-!
# A token a line

The text of a token that is cut out of its text is read as the same token again, before the end of a
line and at the end of a text (`Piece.first_alone`): no token needs more than its own characters and
one behind them. Only what a backslash at the end of a text leaves open would take a line feed with
it, and no token follows that one. So if the tokens of a text are written each on a line of its own
then they are the tokens of what is written (`scan_linewise`).
-/

namespace Caret

/-! ## Tokens on their own -/

namespace Piece

variable {p : Char → Bool} {c : Char} {cs u : List Char} {more : Nat}

/-- What may stand behind a piece that is cut out: a line feed, if something followed the piece
before, or nothing. -/
def EndsLine (more : Nat) (cs u : List Char) : Prop := ∀ d ∈ u.head?, d = '\n' ∧ more < cs.length

theorem EndsLine.head? (h : EndsLine more cs u) : u.head? = none ∨ u.head? = some '\n' := by
  cases u with
  | nil => exact .inl rfl
  | cons d u => exact .inr (congrArg some (h d rfl).1)

/-- Behind the first character stands what stood there before, or the end of the line. -/
theorem EndsLine.head?_take (h : EndsLine more cs u) :
    (cs.take more ++ u).head? = cs.head? ∨
      (cs.take more ++ u).head? = none ∨ (cs.take more ++ u).head? = some '\n' := by
  cases more with
  | zero => exact .inr h.head?
  | succ more =>
    cases cs with
    | nil => exact .inr h.head?
    | cons d ds => exact .inl rfl

theorem run_le_length (p : Char → Bool) (cs : List Char) : run p cs ≤ cs.length := by
  fun_induction run p cs with
  | case1 => exact Nat.le_refl 0
  | case2 c cs _ ih => exact Nat.succ_le_succ ih
  | case3 => exact Nat.zero_le _

theorem run_eq_zero (h : ∀ d ∈ cs.head?, p d = false) : run p cs = 0 := by
  cases cs with
  | nil => rfl
  | cons d ds => rw [run, h d rfl]; rfl

theorem run_alone (hp : p '\n' = false) (hu : EndsLine (run p cs) cs u) :
    run p (cs.take (run p cs) ++ u) = run p cs := by
  have hall : ∀ d ∈ cs.take (run p cs), p d := by
    rw [take_run]
    exact List.all_eq_true.1 List.all_takeWhile
  have hend : run p u = 0 := run_eq_zero fun d hd => (hu d hd).1 ▸ hp
  rw [run_append_of_all hall, hend, List.length_take_of_le (run_le_length p cs), Nat.add_zero]

theorem stringRest_le_length (cs : List Char) : stringRest cs ≤ cs.length := by
  fun_induction stringRest cs with
  | case1 | case3 => exact Nat.zero_le _
  | case2 => exact Nat.succ_le_succ (Nat.zero_le _)
  | case4 => exact Nat.le_refl 1
  | case5 d cs ih => exact Nat.add_le_add_right ih 2
  | case6 c cs _ _ _ _ ih => exact Nat.succ_le_succ ih

theorem stringRest_alone : ∀ {cs : List Char}, EndsLine (stringRest cs) cs u →
    stringRest (cs.take (stringRest cs) ++ u) = stringRest cs := by
  intro cs
  fun_induction stringRest cs with
  | case1 | case3 =>
    intro hu
    cases u with
    | nil => rfl
    | cons d u =>
      obtain ⟨rfl, -⟩ := hu d rfl
      rfl
  | case2 => exact fun _ => rfl
  | case4 =>
    intro hu
    cases u with
    | nil => rfl
    | cons d u => exact absurd (hu d rfl).2 (Nat.lt_irrefl 1)
  | case5 d cs ih =>
    intro hu
    have hrest := ih fun e he => (hu e he).imp_right fun h => by simpa using h
    rw [List.take_succ_cons, List.take_succ_cons]
    exact congrArg (· + 2) hrest
  | case6 c cs hquote hline hlast hescape ih =>
    intro hu
    have hc : c ≠ '\\' := by
      rintro rfl
      cases cs with
      | nil => exact hlast rfl rfl
      | cons d ds => exact hescape d ds rfl rfl
    have hrest := ih fun e he => (hu e he).imp_right fun h => by simpa using h
    rw [List.take_succ_cons, List.cons_append, stringRest.eq_6 _ _ hquote hline
      (fun e => absurd e hc) (fun _ _ e => absurd e hc), hrest]

theorem lexeme_more_le_length (c : Char) (cs : List Char) : (lexeme c cs).more ≤ cs.length := by
  unfold lexeme
  split
  · exact stringRest_le_length cs
  · split
    · exact run_le_length _ cs
    · split
      · exact run_le_length _ cs
      · exact Nat.zero_le _

theorem lexeme_alone (hu : EndsLine (lexeme c cs).more cs u) :
    lexeme c (cs.take (lexeme c cs).more ++ u) = lexeme c cs := by
  unfold lexeme at hu ⊢
  split
  · rename_i hc
    rw [if_pos hc] at hu
    rw [stringRest_alone hu]
  · rename_i hc
    rw [if_neg hc] at hu
    split
    · rename_i hd
      rw [if_pos hd] at hu
      rw [run_alone rfl hu]
    · rename_i hd
      rw [if_neg hd] at hu
      split
      · rename_i hn
        rw [if_pos hn] at hu
        have hlength := List.length_take_of_le (run_le_length continuesName cs)
        dsimp only
        rw [run_alone rfl hu, List.take_append_of_le_length (Nat.le_of_eq hlength.symm),
          List.take_take, Nat.min_self]
      · rfl

/-- An operator of two characters has both in it; one of a single character is also one before the
end of a line. -/
theorem punctuation_alone {d : Option Char} {piece : Piece} (h : punctuation c d = some piece) :
    (piece.more = 1 ∧ d.isSome) ∨
      (piece.more = 0 ∧ ∀ e ∈ [none, some '\n'], punctuation c e = some piece) := by
  unfold punctuation at h
  split at h <;>
    first
    | (obtain rfl := Option.some.inj h
       first
       | exact .inl ⟨rfl, rfl⟩
       | exact .inr ⟨rfl, by decide⟩)
    | cases h

/-- What starts no operator starts none before the end of a line. -/
theorem punctuation_eq_none {d e : Option Char} (h : punctuation c d = none)
    (he : e = none ∨ e = some '\n') : punctuation c e = none := by
  unfold punctuation at h ⊢
  split at h <;> cases h
  rcases he with rfl | rfl
  · split <;> first | rfl | simp_all
  · split <;> first | rfl | simp_all

/-- What is neither a blank nor the beginning of a comment starts no gap. -/
theorem gap_eq_none (hc : ¬isBlank c) (hcs : c = '/' → cs.head? = none ∨ cs.head? = some '\n') :
    gap c cs = none := by
  have hcomment : ∀ d ds, c = '/' → cs = d :: ds → d = '\n' := by
    rintro d ds hslash rfl
    simpa using hcs hslash
  rw [gap.eq_3 _ _ (fun ds e he => ?_) (fun ds e he => ?_), if_neg hc]
  · exact absurd (hcomment _ _ e he) (by decide)
  · exact absurd (hcomment _ _ e he) (by decide)

theorem gap_of_isBlank (hc : isBlank c) (cs : List Char) : gap c cs = some ⟨none, 0⟩ := by
  have hslash : c ≠ '/' := by rintro rfl; cases hc
  rw [gap.eq_3 _ _ (fun _ e => absurd e hslash) (fun _ e => absurd e hslash), if_pos hc]

theorem gap_of_isToken (hk : (first c cs).kind ≠ none) : gap c cs = none := by
  rw [← Option.not_isSome_iff_eq_none]
  intro hsome
  obtain ⟨piece, hpiece⟩ := Option.isSome_iff_exists.1 hsome
  exact hk (by rw [first, hpiece]; exact gap_kind hpiece)

theorem first_of_isToken (hk : (first c cs).kind ≠ none) :
    first c cs = (punctuation c cs.head?).getD (lexeme c cs) := by
  rw [first, gap_of_isToken hk]
  rfl

/-- A token is not longer than the text. -/
theorem more_le_length (hk : (first c cs).kind ≠ none) : (first c cs).more ≤ cs.length := by
  rw [first_of_isToken hk]
  cases hp : punctuation c cs.head? with
  | none => exact lexeme_more_le_length c cs
  | some piece =>
    rcases punctuation_alone hp with ⟨hmore, hsome⟩ | ⟨hmore, -⟩
    · rw [Option.getD_some, hmore]
      exact List.length_pos_iff.2 (List.isSome_head?.1 hsome)
    · rw [Option.getD_some, hmore]
      exact Nat.zero_le _

/-- A token is read alike if nothing, or only the end of the line, is left behind it. -/
theorem first_alone (hk : (first c cs).kind ≠ none) (hu : EndsLine (first c cs).more cs u) :
    first c (cs.take (first c cs).more ++ u) = first c cs := by
  have hfirst := first_of_isToken hk
  have hblank : ¬isBlank c := fun hb => by
    have hgap := gap_of_isToken hk
    rw [gap_of_isBlank hb] at hgap
    cases hgap
  have hslash : c = '/' → (first c cs).more = 0 := by
    rintro rfl
    rw [hfirst]
    rfl
  have hgap' : gap c (cs.take (first c cs).more ++ u) = none := by
    refine gap_eq_none hblank fun hc => ?_
    rw [hslash hc]
    exact hu.head?
  rw [first, hgap', Option.getD_none]
  have hhead := hu.head?_take
  rw [hfirst] at hu hhead ⊢
  cases hp : punctuation c cs.head? with
  | some piece =>
    rw [hp, Option.getD_some] at hu hhead
    rw [Option.getD_some]
    have hsame : punctuation c (cs.take piece.more ++ u).head? = some piece := by
      rcases punctuation_alone hp with ⟨hmore, hsome⟩ | ⟨-, halone⟩
      · obtain ⟨d, ds, rfl⟩ : ∃ d ds, cs = d :: ds := by
          cases cs with
          | nil => cases hsome
          | cons d ds => exact ⟨d, ds, rfl⟩
        rw [hmore]
        exact hp
      · rcases hhead with hhead | hhead
        · rw [hhead, hp]
        · rw [halone _ (by simpa using hhead)]
    rw [hsame, Option.getD_some]
  | none =>
    rw [hp, Option.getD_none] at hu hhead
    rw [Option.getD_none]
    have hsame : punctuation c (cs.take (lexeme c cs).more ++ u).head? = none := by
      rcases hhead with hhead | hhead
      · rw [hhead, hp]
      · exact punctuation_eq_none hp hhead
    rw [hsame, Option.getD_none, lexeme_alone hu]

end Piece

/-! ## Tokens on lines of their own -/

/-- The texts of the tokens of a text, each on a line of its own. -/
def linewise (text : List Char) : List Char :=
  ['\n'].intercalate ((scan text).dropLast.map Token.text)

/-- A token that is cut out is the first token before the end of its line, or of the text. -/
theorem scanFrom_alone {c : Char} {cs u : List Char} {k : TokenKind}
    (hk : (Piece.first c cs).kind = some k) (hu : Piece.EndsLine (Piece.first c cs).more cs u)
    (offset : Nat) :
    scanFrom offset 0 ((c :: cs.take (Piece.first c cs).more) ++ u) =
      ⟨k, offset, c :: cs.take (Piece.first c cs).more⟩ ::
        scanFrom (offset + byteLength (c :: cs.take (Piece.first c cs).more)) 0 u := by
  have htoken : (Piece.first c cs).kind ≠ none := by rw [hk]; exact Option.some_ne_none k
  have hlength := List.length_take_of_le (Piece.more_le_length htoken)
  have hskip := scanFrom_skip (offset + c.utf8Size) 0 (cs.take (Piece.first c cs).more) u
  rw [List.cons_append, scanFrom_cons, Piece.first_alone htoken hu, hk, byteLength_cons,
    ← Nat.add_assoc, ← hskip, hlength, List.take_left' hlength]
  rfl

/-- The words of a text, written each on a line of its own, are the words of the lines, wherever
both start. -/
theorem map_word_scanFrom_lines : ∀ (cs : List Char) (offset offset' skip : Nat),
    (scanFrom offset' 0
      (['\n'].intercalate ((scanFrom offset skip cs).dropLast.map Token.text))).map Token.word =
      (scanFrom offset skip cs).map Token.word
  | [], _, _, _ => rfl
  | c :: cs, offset, offset', skip + 1 => map_word_scanFrom_lines cs _ offset' skip
  | c :: cs, offset, offset', 0 => by
    have hne := scanFrom_ne_nil (offset + c.utf8Size) (Piece.first c cs).more cs
    have ih (start : Nat) :=
      map_word_scanFrom_lines cs (offset + c.utf8Size) start (Piece.first c cs).more
    rw [scanFrom_cons]
    cases hk : (Piece.first c cs).kind with
    | none => exact ih offset'
    | some k =>
      rw [Option.map_some, Option.toList_some, List.singleton_append,
        List.dropLast_cons_of_ne_nil hne, List.map_cons, List.map_cons]
      by_cases hlast : (scanFrom (offset + c.utf8Size) (Piece.first c cs).more cs).dropLast = []
      · have hend : Piece.EndsLine (Piece.first c cs).more cs [] := fun d hd => by cases hd
        have halone := scanFrom_alone hk hend offset'
        rw [List.append_nil] at halone
        rw [hlast] at ih ⊢
        rw [List.map_nil, List.intercalate_singleton, halone, List.map_cons, ← ih]
        rfl
      · -- another token follows, so this one ends short of the text
        have hmore : (Piece.first c cs).more < cs.length := by
          refine Nat.lt_of_not_le fun hle => hlast ?_
          rw [scanFrom_beyond hle]
          rfl
        have hend (lines : List Char) :
            Piece.EndsLine (Piece.first c cs).more cs (['\n'] ++ lines) := by
          rintro d hd
          exact ⟨(Option.some.inj hd).symm, hmore⟩
        have hblank : ∀ d ∈ ['\n'], Piece.isBlank d := by simp [Piece.isBlank]
        rw [List.intercalate_cons_of_ne_nil (fun h => hlast (List.map_eq_nil_iff.1 h)),
          List.append_assoc, scanFrom_alone hk (hend _), scanFrom_blanks hblank, List.map_cons, ih]
        rfl

/-- The tokens of a text, written each on a line of its own, are read as the same words again. -/
theorem scan_linewise (text : List Char) :
    (scan (linewise text)).map Token.word = (scan text).map Token.word :=
  map_word_scanFrom_lines text 0 0 0

end Caret
