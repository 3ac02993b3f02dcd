import Caret.Proofs.Scanning
/-!
# Texts that go on

Tokens that end before the end of a text stay as they are whatever follows the text, for only a
comment may go on behind it. So a text with more behind it has the tokens of the text, and then those
of what follows from some place on (`scanFrom_append`). If letters follow then they are a word, unless
they stand in a comment (`scan_append`).
-/

namespace Caret

namespace Piece

variable {p : Char → Bool} {c : Char} {cs w t : List Char}

/-! ## Pieces that do not reach the end -/

theorem run_append (h : run p cs < cs.length) (u : List Char) : run p (cs ++ u) = run p cs := by
  induction cs with
  | nil => cases h
  | cons c cs ih =>
    rw [List.cons_append, run, run]
    by_cases hc : p c = true
    · rw [run, if_pos hc, List.length_cons] at h
      rw [if_pos hc, if_pos hc, ih (by omega)]
    · rw [if_neg hc, if_neg hc]

theorem run_append_of_all (h : ∀ c ∈ cs, p c) (u : List Char) :
    run p (cs ++ u) = cs.length + run p u := by
  induction cs with
  | nil => simp
  | cons c cs ih =>
    obtain ⟨hc, hcs⟩ := List.forall_mem_cons.1 h
    rw [List.cons_append, run, if_pos hc, ih hcs, List.length_cons]
    omega

theorem all_of_run (h : cs.length ≤ run p cs) : ∀ c ∈ cs, p c := by
  induction cs with
  | nil => simp
  | cons c cs ih =>
    rw [run] at h
    by_cases hc : p c = true
    · rw [if_pos hc, List.length_cons] at h
      exact List.forall_mem_cons.2 ⟨hc, ih (by omega)⟩
    · rw [if_neg hc] at h
      cases h

theorem stringRest_append (u : List Char) :
    ∀ {cs : List Char}, stringRest cs < cs.length → stringRest (cs ++ u) = stringRest cs := by
  intro cs
  fun_induction stringRest cs with
  | case1 => intro h; cases h
  | case2 => intro _; rfl
  | case3 => intro _; rfl
  | case4 => intro h; simp at h
  | case5 c cs ih =>
    intro h
    rw [List.length_cons, List.length_cons] at h
    show stringRest ('\\' :: c :: (cs ++ u)) = _
    rw [stringRest, ih (by omega)]
  | case6 c cs hquote hline hlast hescape ih =>
    intro h
    have hc : c ≠ '\\' := by
      rintro rfl
      cases cs with
      | nil => exact hlast rfl rfl
      | cons d ds => exact hescape d ds rfl rfl
    rw [List.length_cons] at h
    rw [List.cons_append, stringRest.eq_6 _ _ hquote hline (fun e => absurd e hc)
      (fun _ _ e => absurd e hc), ih (by omega)]

/-- Letters do not close a comment. -/
theorem length_le_blockRest (hw : ∀ c ∈ w, c.isAlpha) (t : List Char) :
    w.length ≤ blockRest (w ++ t) := by
  induction w with
  | nil => exact Nat.zero_le _
  | cons c w ih =>
    obtain ⟨hc, hw⟩ := List.forall_mem_cons.1 hw
    have hstar : c ≠ '*' := by rintro rfl; cases hc
    rw [List.cons_append, blockRest.eq_3 _ _ fun _ e => absurd e hstar, List.length_cons]
    exact Nat.succ_le_succ (ih hw)

/-- A comment is closed in the text, or goes on behind it. -/
theorem blockRest_append (hw : ∀ c ∈ w, c.isAlpha) (t cs : List Char) :
    (blockRest (cs ++ (w ++ t)) = blockRest cs ∧ blockRest cs ≤ cs.length) ∨
      (cs.length ≤ blockRest cs ∧ cs.length + w.length ≤ blockRest (cs ++ (w ++ t))) := by
  fun_induction blockRest cs with
  | case1 => exact .inr ⟨Nat.le_refl _, by simpa using length_le_blockRest hw t⟩
  | case2 cs => exact .inl ⟨rfl, by simp⟩
  | case3 c cs hclose ih =>
    rw [List.length_cons, List.cons_append]
    by_cases hclosed : ∃ tail, c = '*' ∧ cs ++ (w ++ t) = '/' :: tail
    · -- the closing stands across the end of the text, so no letters follow
      obtain ⟨tail, rfl, htail⟩ := hclosed
      have hcs : cs = [] := by
        cases cs with
        | nil => rfl
        | cons d ds =>
          obtain ⟨rfl, -⟩ := List.cons.inj htail
          exact (hclose ds rfl rfl).elim
      subst hcs
      have hnil : w = [] := by
        cases w with
        | nil => rfl
        | cons d ds =>
          obtain ⟨rfl, -⟩ := List.cons.inj htail
          cases hw '/' (List.mem_cons_self ..)
      subst hnil
      refine .inr ⟨by simp [blockRest], ?_⟩
      rw [htail, blockRest.eq_2]
      decide
    · have hopen : ∀ tail, c = '*' → cs ++ (w ++ t) = '/' :: tail → False :=
        fun tail hc htail => hclosed ⟨tail, hc, htail⟩
      rw [blockRest.eq_3 _ _ hopen]
      rcases ih with ⟨he, hle⟩ | ⟨hle, hle'⟩
      · exact .inl ⟨by rw [he], by omega⟩
      · exact .inr ⟨by omega, by omega⟩

/-! ## The first piece -/

theorem lexeme_append (h : (lexeme c cs).more < cs.length) (u : List Char) :
    lexeme c (cs ++ u) = lexeme c cs := by
  unfold lexeme at h ⊢
  split
  · rename_i hc
    rw [if_pos hc] at h
    rw [stringRest_append u h]
  · rename_i hc
    rw [if_neg hc] at h
    split
    · rename_i hd
      rw [if_pos hd] at h
      rw [run_append h]
    · rename_i hd
      rw [if_neg hd] at h
      split
      · rename_i hn
        rw [if_pos hn] at h
        have hle : run continuesName cs ≤ cs.length := Nat.le_of_lt h
        simp only [run_append h, List.take_append_of_le_length hle]
      · rfl

theorem punctuation_isToken {d : Option Char} {piece : Piece} (h : punctuation c d = some piece) :
    piece.kind ≠ none := by
  unfold punctuation at h
  split at h <;> first | (obtain rfl := Option.some.inj h; simp) | cases h

theorem lexeme_isToken (c : Char) (cs : List Char) : (lexeme c cs).kind ≠ none := by
  unfold lexeme
  split
  · simp
  · split
    · simp
    · split <;> simp

theorem isToken_of_gap (h : gap c cs = none) : (first c cs).kind ≠ none := by
  unfold first
  rw [h]
  cases hp : punctuation c cs.head? with
  | none => exact lexeme_isToken c cs
  | some piece => exact punctuation_isToken hp

/-- A gap that is no comment is a blank. -/
theorem gap_cons {d : Char} (hc : c = '/' → d ≠ '/' ∧ d ≠ '*') (ds : List Char) :
    gap c (d :: ds) = if isBlank c then some ⟨none, 0⟩ else none := by
  refine gap.eq_3 _ _ (fun _ e e' => ?_) (fun _ e e' => ?_)
  · exact (hc e).1 (List.cons.inj e').1
  · exact (hc e).2 (List.cons.inj e').1

/-- A token that ends before the end of the text is the same whatever follows, and so is a blank. -/
theorem first_append_of_ne {d : Char} {ds : List Char} (hc : c = '/' → d ≠ '/' ∧ d ≠ '*')
    (h : (first c (d :: ds)).kind ≠ none → (first c (d :: ds)).more < (d :: ds).length)
    (u : List Char) : first c (d :: ds ++ u) = first c (d :: ds) := by
  unfold first at h ⊢
  rw [List.cons_append, gap_cons hc, gap_cons hc]
  rw [gap_cons hc] at h
  split
  · rfl
  · rename_i hb
    rw [if_neg hb] at h
    show (punctuation c (some d)).getD _ = (punctuation c (some d)).getD _
    cases hp : punctuation c (some d) with
    | some piece => rfl
    | none =>
      have hpunctuation : punctuation c (d :: ds).head? = none := hp
      rw [hpunctuation] at h
      exact lexeme_append (h (lexeme_isToken c _)) u

theorem more_le {d : Char} {ds : List Char} (hc : c = '/' → d ≠ '/' ∧ d ≠ '*')
    (h : (first c (d :: ds)).kind ≠ none → (first c (d :: ds)).more < (d :: ds).length) :
    (first c (d :: ds)).more ≤ (d :: ds).length := by
  by_cases hb : isBlank c = true
  · have hgap : gap c (d :: ds) = some ⟨none, 0⟩ := by rw [gap_cons hc, if_pos hb]
    rw [first, hgap]
    exact Nat.zero_le _
  · have hgap : gap c (d :: ds) = none := by rw [gap_cons hc, if_neg hb]
    exact Nat.le_of_lt (h (isToken_of_gap hgap))

theorem first_line (cs : List Char) : first '/' ('/' :: cs) = ⟨none, run (· != '\n') cs + 1⟩ := rfl

theorem first_block (cs : List Char) : first '/' ('*' :: cs) = ⟨none, blockRest cs + 1⟩ := rfl

/-- The first piece of a text stays as it is, or is a comment that goes on behind the text. -/
theorem first_append (hw : ∀ c ∈ w, c.isAlpha) (t : List Char)
    (h : (first c cs).kind ≠ none → (first c cs).more < cs.length) :
    (first c (cs ++ (w ++ t)) = first c cs ∧ (first c cs).more ≤ cs.length) ∨
      ((first c cs).kind = none ∧ cs.length ≤ (first c cs).more ∧
        (first c (cs ++ (w ++ t))).kind = none ∧
        cs.length + w.length ≤ (first c (cs ++ (w ++ t))).more) := by
  cases cs with
  | nil =>
    by_cases hb : isBlank c = true
    · have hc : c ≠ '/' := by rintro rfl; cases hb
      have hblank (u : List Char) : first c u = ⟨none, 0⟩ := by
        rw [first, gap.eq_3 _ _ (fun _ e => absurd e hc) (fun _ e => absurd e hc), if_pos hb]
        rfl
      rw [hblank, hblank]
      exact .inl ⟨rfl, Nat.le_refl _⟩
    · have hgap : gap c [] = none := by
        rw [gap.eq_3 _ _ (fun _ _ e => by cases e) (fun _ _ e => by cases e), if_neg hb]
      exact absurd (h (isToken_of_gap hgap)) (Nat.not_lt_zero _)
  | cons d ds =>
    by_cases hc : c = '/' ∧ (d = '/' ∨ d = '*')
    · obtain ⟨rfl, rfl | rfl⟩ := hc
      · rw [List.cons_append, first_line, first_line, List.length_cons]
        by_cases hrun : run (· != '\n') ds < ds.length
        · left
          rw [run_append hrun]
          exact ⟨rfl, by dsimp only; omega⟩
        · right
          have hletters : ∀ c ∈ w, (c != '\n') = true := fun c hc => by
            rw [bne_iff_ne]
            rintro rfl
            cases hw _ hc
          rw [run_append_of_all (all_of_run (Nat.not_lt.1 hrun)), run_append_of_all hletters]
          exact ⟨rfl, by dsimp only; omega, rfl, by dsimp only; omega⟩
      · rw [List.cons_append, first_block, first_block, List.length_cons]
        rcases blockRest_append hw t ds with ⟨he, hle⟩ | ⟨hle, hle'⟩
        · left
          rw [he]
          exact ⟨rfl, by dsimp only; omega⟩
        · exact .inr ⟨rfl, by dsimp only; omega, rfl, by dsimp only; omega⟩
    · have hne : c = '/' → d ≠ '/' ∧ d ≠ '*' := fun e => not_or.1 fun hd => hc ⟨e, hd⟩
      exact .inl ⟨first_append_of_ne hne h _, more_le hne h⟩

end Piece

/-! ## The tokens -/

theorem scanFrom_skip (offset skip : Nat) (cs u : List Char) :
    scanFrom offset (cs.length + skip) (cs ++ u) = scanFrom (offset + byteLength cs) skip u := by
  induction cs generalizing offset with
  | nil => simp
  | cons c cs ih =>
    rw [List.length_cons, Nat.add_right_comm, List.cons_append, scanFrom, ih, byteLength_cons,
      Nat.add_assoc]

theorem scanFrom_cons (offset : Nat) (c : Char) (cs : List Char) :
    scanFrom offset 0 (c :: cs) =
      ((Piece.first c cs).kind.map fun k => ⟨k, offset, c :: cs.take (Piece.first c cs).more⟩).toList ++
        scanFrom (offset + c.utf8Size) (Piece.first c cs).more cs := by
  rw [scanFrom]
  cases (Piece.first c cs).kind <;> rfl

/-- A piece that goes on to the end of a text or beyond it ends the tokens. -/
theorem scanFrom_beyond {offset skip : Nat} {cs : List Char} (h : cs.length ≤ skip) :
    scanFrom offset skip cs = [.endOfFile (offset + byteLength cs)] := by
  have hskip := scanFrom_skip offset (skip - cs.length) cs []
  rw [List.append_nil, Nat.add_sub_cancel' h] at hskip
  rw [hskip, scanFrom]

/-- If the tokens of a text end before its end then they stay as they are whatever follows. -/
theorem scanFrom_append {w : List Char} (hw : ∀ c ∈ w, c.isAlpha) (t : List Char) :
    ∀ {cs : List Char} {offset skip : Nat}, skip ≤ cs.length →
      (∀ x ∈ (scanFrom offset skip cs).dropLast, x.stop < offset + byteLength cs) →
      ∃ n, (n = 0 ∨ w.length ≤ n) ∧ scanFrom offset skip (cs ++ (w ++ t)) =
        (scanFrom offset skip cs).dropLast ++ scanFrom (offset + byteLength cs) n (w ++ t)
  | [], offset, skip, hs, _ => by
    obtain rfl : skip = 0 := Nat.le_zero.1 hs
    exact ⟨0, .inl rfl, rfl⟩
  | c :: cs, offset, skip + 1, hs, h => by
    rw [byteLength_cons, ← Nat.add_assoc] at h ⊢
    exact scanFrom_append hw t (Nat.le_of_succ_le_succ hs) h
  | c :: cs, offset, 0, _, h => by
    have hne := scanFrom_ne_nil (offset + c.utf8Size) (Piece.first c cs).more cs
    rw [scanFrom_cons, List.dropLast_append_of_ne_nil hne, byteLength_cons, ← Nat.add_assoc] at h
    rw [List.cons_append, scanFrom_cons, scanFrom_cons offset c cs,
      List.dropLast_append_of_ne_nil hne, byteLength_cons, ← Nat.add_assoc]
    have hmore : (Piece.first c cs).kind ≠ none → (Piece.first c cs).more < cs.length := by
      intro hk
      obtain ⟨k, hk⟩ := Option.ne_none_iff_exists'.1 hk
      refine Nat.lt_of_not_le fun hle => ?_
      have hlt := h ⟨k, offset, c :: cs.take (Piece.first c cs).more⟩ (by simp [hk])
      rw [List.take_of_length_le hle] at hlt
      simp only [Token.stop, byteLength_cons] at hlt
      omega
    rcases Piece.first_append hw t hmore with ⟨he, hle⟩ | ⟨hk, hle, hk', hle'⟩
    · obtain ⟨n, hn, hrest⟩ := scanFrom_append hw t hle fun x hx => h x (List.mem_append_right _ hx)
      refine ⟨n, hn, ?_⟩
      rw [he, List.take_append_of_le_length hle, hrest, List.append_assoc]
    · -- a comment goes on behind the text
      refine ⟨(Piece.first c (cs ++ (w ++ t))).more - cs.length, .inr (by omega), ?_⟩
      rw [hk, hk', scanFrom_beyond hle, ← scanFrom_skip, Nat.add_sub_cancel' (by omega)]
      rfl

/-- The kind of token that a word is. -/
def wordKind (w : List Char) : TokenKind := (TokenKind.ofWord? w).getD .identifier

theorem isWord_wordKind (w : List Char) : (wordKind w).isWord := by
  unfold wordKind
  cases h : TokenKind.ofWord? w with
  | none => rfl
  | some k => simp [TokenKind.isWord, (TokenKind.isKeyword_of_ofWord? h).1]

theorem not_isDigit_of_isAlpha {c : Char} (h : c.isAlpha) : c.isDigit = false := by
  rw [← Bool.not_eq_true]
  intro hd
  have hletter : ('A'.val ≤ c.val ∧ c.val ≤ 'Z'.val) ∨ ('a'.val ≤ c.val ∧ c.val ≤ 'z'.val) :=
    ((Bool.or_eq_true _ _).mp h).imp of_decide_eq_true fun hl =>
      ((Bool.and_eq_true _ _).mp hl).imp of_decide_eq_true of_decide_eq_true
  have hdigit : c.val ≤ '9'.val := of_decide_eq_true ((Bool.and_eq_true _ _).mp hd).2
  simp only [UInt32.le_iff_toNat_le] at hletter hdigit
  have hnine : ('9' : Char).val.toNat = 57 := rfl
  have hupper : ('A' : Char).val.toNat = 65 := rfl
  have hlower : ('a' : Char).val.toNat = 97 := rfl
  omega

namespace Piece

theorem gap_of_isAlpha {c : Char} (hc : c.isAlpha) (cs : List Char) : gap c cs = none := by
  have hslash : c ≠ '/' := by rintro rfl; cases hc
  have hblank : ¬isBlank c = true := by
    intro hb
    simp only [isBlank, Bool.or_eq_true, beq_iff_eq] at hb
    rcases hb with ((rfl | rfl) | rfl) | rfl <;> cases hc
  rw [gap.eq_3 _ _ (fun _ e => absurd e hslash) (fun _ e => absurd e hslash), if_neg hblank]

theorem punctuation_of_isAlpha {c : Char} (hc : c.isAlpha) (d : Option Char) :
    punctuation c d = none := by
  unfold punctuation
  split <;> first | rfl | cases hc

/-- Letters that are followed by no part of a name are a word. -/
theorem first_word {c : Char} {cs t : List Char} (hw : ∀ d ∈ c :: cs, d.isAlpha)
    (ht : ∀ d ∈ t.head?, continuesName d = false) :
    first c (cs ++ t) = ⟨some (wordKind (c :: cs)), cs.length⟩ := by
  obtain ⟨hc, hcs⟩ := List.forall_mem_cons.1 hw
  have hrun : run continuesName (cs ++ t) = cs.length := by
    have hnames : ∀ d ∈ cs, continuesName d = true := fun d hd => by
      simp [continuesName, Char.isAlphanum, hcs d hd]
    rw [run_append_of_all hnames]
    cases t with
    | nil => rfl
    | cons d t => rw [run, ht d rfl]; rfl
  have hquote : c ≠ '"' := by rintro rfl; cases hc
  have hname : startsName c = true := by simp [startsName, hc]
  rw [first, gap_of_isAlpha hc, punctuation_of_isAlpha hc, lexeme, if_neg (by simpa using hquote),
    not_isDigit_of_isAlpha hc, if_neg Bool.false_ne_true, if_pos hname, hrun]
  simp only [List.take_left]
  rfl

end Piece

theorem scanFrom_word {w t : List Char} (hw : ∀ c ∈ w, c.isAlpha) (hne : w ≠ [])
    (ht : ∀ c ∈ t.head?, Piece.continuesName c = false) (offset : Nat) :
    scanFrom offset 0 (w ++ t) =
      ⟨wordKind w, offset, w⟩ :: scanFrom (offset + byteLength w) 0 t := by
  cases w with
  | nil => exact absurd rfl hne
  | cons c cs =>
    have hskip := scanFrom_skip (offset + c.utf8Size) 0 cs t
    rw [List.cons_append, scanFrom_cons, Piece.first_word hw ht, List.take_left, byteLength_cons,
      ← Nat.add_assoc, ← hskip]
    rfl

/-- If the tokens of a text end before its end, then in a longer text its tokens come first. The
letters that follow it are a token, or no other token starts before they end. -/
theorem scan_append {s w t : List Char} (hs : ∀ x ∈ (scan s).dropLast, x.stop < byteLength s)
    (hw : ∀ c ∈ w, c.isAlpha) (ht : w ≠ [] → ∀ c ∈ t.head?, Piece.continuesName c = false) :
    ∃ late, (∀ y ∈ late, byteLength s + byteLength w ≤ y.start) ∧
      (scan (s ++ (w ++ t)) = (scan s).dropLast ++ late ∨
        w ≠ [] ∧ scan (s ++ (w ++ t)) =
          (scan s).dropLast ++ ⟨wordKind w, byteLength s, w⟩ :: late) := by
  have hbefore : ∀ x ∈ (scanFrom 0 0 s).dropLast, x.stop < 0 + byteLength s := by
    rw [Nat.zero_add]
    exact hs
  obtain ⟨n, hn, he⟩ := scanFrom_append hw t (Nat.zero_le _) hbefore
  rw [Nat.zero_add] at he
  by_cases hlong : w.length ≤ n
  · refine ⟨_, fun y hy => ?_, .inl he⟩
    have hstart := scanFrom_start _ _ _ y hy
    rw [List.take_append, List.take_of_length_le hlong, byteLength_append] at hstart
    omega
  · obtain rfl : n = 0 := hn.resolve_right hlong
    have hne : w ≠ [] := by rintro rfl; simp at hlong
    rw [scanFrom_word hw hne (ht hne)] at he
    refine ⟨_, fun y hy => ?_, .inr ⟨hne, he⟩⟩
    exact scanFrom_start _ _ _ y hy

/-- A longer text has the tokens of the text, and others behind them. -/
theorem exists_dropLast_scan {s w t : List Char}
    (hs : ∀ x ∈ (scan s).dropLast, x.stop < byteLength s) (hw : ∀ c ∈ w, c.isAlpha)
    (ht : w ≠ [] → ∀ c ∈ t.head?, Piece.continuesName c = false) :
    ∃ r, (scan (s ++ (w ++ t))).dropLast = (scan s).dropLast ++ r := by
  obtain ⟨us, hus⟩ : ∃ us, scan (s ++ (w ++ t)) = (scan s).dropLast ++ us := by
    obtain ⟨late, -, h | ⟨-, h⟩⟩ := scan_append hs hw ht
    · exact ⟨_, h⟩
    · exact ⟨_, h⟩
  have hne : us ≠ [] := by
    rintro rfl
    have hlast := scan_eq_concat (s ++ (w ++ t))
    rw [List.append_nil] at hus
    refine scan_dropLast_kind s (.endOfFile (byteLength (s ++ (w ++ t)))) ?_ rfl
    rw [← hus, hlast]
    exact List.mem_append_right _ (List.mem_singleton_self _)
  exact ⟨us.dropLast, by rw [hus, List.dropLast_append_of_ne_nil hne]⟩

end Caret
