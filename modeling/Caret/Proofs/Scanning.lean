import Caret.Token.Scan
/-!
# The tokens of a text

Every token stands in the text where it says (`scan_slice`), the tokens do not overlap and have
characters (`scan_ascending`, `scan_start_lt_stop`), and the end of the file is the last of them and
no other (`scan_eq_concat`, `scan_dropLast_kind`).
-/

namespace Caret

namespace Piece

theorem punctuation_kind {c : Char} {d : Option Char} {piece : Piece}
    (h : punctuation c d = some piece) : piece.kind ≠ some .endOfFile := by
  unfold punctuation at h
  split at h <;> first | (obtain rfl := Option.some.inj h; simp) | cases h

theorem lexeme_kind (c : Char) (cs : List Char) : (lexeme c cs).kind ≠ some .endOfFile := by
  unfold lexeme
  split
  · simp
  · split
    · simp
    · split
      · simp only [ne_eq, Option.some.injEq]
        cases h : TokenKind.ofWord? (c :: cs.take (run continuesName cs)) with
        | none => simp
        | some k =>
          rintro rfl
          exact absurd (TokenKind.isKeyword_of_ofWord? h).1 (by decide)
      · simp

theorem gap_kind {c : Char} {cs : List Char} {piece : Piece} (h : gap c cs = some piece) :
    piece.kind = none := by
  unfold gap at h
  split at h
  · obtain rfl := Option.some.inj h; rfl
  · obtain rfl := Option.some.inj h; rfl
  · split at h
    · obtain rfl := Option.some.inj h; rfl
    · cases h

/-- No character starts the end of the file. -/
theorem first_kind (c : Char) (cs : List Char) : (first c cs).kind ≠ some .endOfFile := by
  unfold first
  cases hg : gap c cs with
  | some piece => simp [gap_kind hg]
  | none =>
    cases hp : punctuation c cs.head? with
    | some piece => exact punctuation_kind hp
    | none => exact lexeme_kind c cs

end Piece

/-- What holds of the end of the file and of every token that a piece makes holds of all tokens. -/
theorem scanFrom_induction {P : Nat → Nat → List Char → List Token → Prop}
    (nil : ∀ offset skip, P offset skip [] [.endOfFile offset])
    (skip : ∀ offset n c cs, P (offset + c.utf8Size) n cs (scanFrom (offset + c.utf8Size) n cs) →
      P offset (n + 1) (c :: cs) (scanFrom (offset + c.utf8Size) n cs))
    (gap : ∀ offset c cs n, P (offset + c.utf8Size) n cs (scanFrom (offset + c.utf8Size) n cs) →
      P offset 0 (c :: cs) (scanFrom (offset + c.utf8Size) n cs))
    (token : ∀ offset c cs n kind, kind ≠ .endOfFile →
      P (offset + c.utf8Size) n cs (scanFrom (offset + c.utf8Size) n cs) →
      P offset 0 (c :: cs)
        (⟨kind, offset, c :: cs.take n⟩ :: scanFrom (offset + c.utf8Size) n cs)) :
    ∀ offset n cs, P offset n cs (scanFrom offset n cs) := by
  intro offset n cs
  induction cs generalizing offset n with
  | nil => exact nil offset n
  | cons c cs ih =>
    cases n with
    | succ n => exact skip offset n c cs (ih _ _)
    | zero =>
      simp only [scanFrom]
      cases hk : (Piece.first c cs).kind with
      | none => exact gap offset c cs _ (ih _ _)
      | some kind =>
        refine token offset c cs _ kind ?_ (ih _ _)
        rintro rfl
        exact Piece.first_kind c cs hk

/-- Every token stands in the text where it says. -/
theorem scanFrom_slice (offset skip : Nat) (cs : List Char) :
    ∀ t ∈ scanFrom offset skip cs, ∃ before after, cs = before ++ t.text ++ after ∧
      offset + byteLength before = t.start := by
  refine scanFrom_induction (P := fun offset _ cs ts => ∀ t ∈ ts, ∃ before after,
    cs = before ++ t.text ++ after ∧ offset + byteLength before = t.start) ?_ ?_ ?_ ?_ offset skip cs
  · intro offset _ t ht
    obtain rfl := List.mem_singleton.1 ht
    exact ⟨[], [], rfl, rfl⟩
  · intro offset _ c cs ih t ht
    obtain ⟨before, after, hcs, hs⟩ := ih t ht
    exact ⟨c :: before, after, by simp [hcs], by simp [← hs, Nat.add_assoc]⟩
  · intro offset c cs _ ih t ht
    obtain ⟨before, after, hcs, hs⟩ := ih t ht
    exact ⟨c :: before, after, by simp [hcs], by simp [← hs, Nat.add_assoc]⟩
  · intro offset c cs n kind _ ih t ht
    rcases List.mem_cons.1 ht with rfl | ht
    · exact ⟨[], cs.drop n, by simp, rfl⟩
    · obtain ⟨before, after, hcs, hs⟩ := ih t ht
      exact ⟨c :: before, after, by simp [hcs], by simp [← hs, Nat.add_assoc]⟩

theorem scan_slice (text : List Char) : ∀ t ∈ scan text, ∃ before after,
    text = before ++ t.text ++ after ∧ byteLength before = t.start := by
  simpa [scan] using scanFrom_slice 0 0 text

/-- The end of the file is the last token and no other. -/
theorem scanFrom_last (offset skip : Nat) (cs : List Char) :
    ∃ ts, scanFrom offset skip cs = ts ++ [.endOfFile (offset + byteLength cs)] ∧
      ∀ t ∈ ts, t.kind ≠ .endOfFile := by
  refine scanFrom_induction (P := fun offset _ cs us => ∃ ts,
    us = ts ++ [.endOfFile (offset + byteLength cs)] ∧ ∀ t ∈ ts, t.kind ≠ .endOfFile)
    ?_ ?_ ?_ ?_ offset skip cs
  · intro offset _
    exact ⟨[], rfl, by simp⟩
  · intro offset _ c cs ih
    simpa [Nat.add_assoc] using ih
  · intro offset c cs _ ih
    simpa [Nat.add_assoc] using ih
  · intro offset c cs n kind hk ih
    obtain ⟨ts, hts, hall⟩ := ih
    refine ⟨⟨kind, offset, c :: cs.take n⟩ :: ts, by simp [hts, Nat.add_assoc], ?_⟩
    intro t ht
    rcases List.mem_cons.1 ht with rfl | ht
    · exact hk
    · exact hall t ht

theorem scan_eq_concat (text : List Char) :
    scan text = (scan text).dropLast ++ [.endOfFile (byteLength text)] := by
  obtain ⟨ts, hts, -⟩ := scanFrom_last 0 0 text
  simp [scan, hts]

theorem scan_dropLast_kind (text : List Char) : ∀ t ∈ (scan text).dropLast, t.kind ≠ .endOfFile := by
  obtain ⟨ts, hts, hall⟩ := scanFrom_last 0 0 text
  simpa [scan, hts] using hall

/-! ## The order of the tokens -/

theorem scanFrom_start (offset skip : Nat) (cs : List Char) :
    ∀ t ∈ scanFrom offset skip cs, offset + byteLength (cs.take skip) ≤ t.start := by
  refine scanFrom_induction (P := fun offset skip cs ts => ∀ t ∈ ts,
    offset + byteLength (cs.take skip) ≤ t.start) ?_ ?_ ?_ ?_ offset skip cs
  · intro offset _ t ht
    obtain rfl := List.mem_singleton.1 ht
    simp [Token.endOfFile]
  · intro offset n c cs ih t ht
    have := ih t ht
    simp only [List.take_succ_cons, byteLength_cons]
    omega
  · intro offset c cs n ih t ht
    have := ih t ht
    simp only [List.take_zero, byteLength_nil]
    omega
  · intro offset c cs n kind _ ih t ht
    rcases List.mem_cons.1 ht with rfl | ht
    · simp
    · have := ih t ht
      simp only [List.take_zero, byteLength_nil]
      omega

/-- Every token ends before the next one starts. -/
theorem scanFrom_ascending (offset skip : Nat) (cs : List Char) :
    (scanFrom offset skip cs).Pairwise fun t u => t.stop ≤ u.start := by
  refine scanFrom_induction (P := fun _ _ _ ts => ts.Pairwise fun t u => t.stop ≤ u.start)
    ?_ ?_ ?_ ?_ offset skip cs
  · simp
  · exact fun _ _ _ _ ih => ih
  · exact fun _ _ _ _ ih => ih
  · intro offset c cs n kind _ ih
    refine List.pairwise_cons.2 ⟨fun u hu => ?_, ih⟩
    have := scanFrom_start _ _ _ u hu
    simpa [Token.stop, Nat.add_assoc] using this

theorem scan_ascending (text : List Char) :
    (scan text).Pairwise fun t u => t.stop ≤ u.start := scanFrom_ascending 0 0 text

/-- Every token has characters, but for the end of the file. -/
theorem scanFrom_start_lt_stop (offset skip : Nat) (cs : List Char) :
    ∀ t ∈ scanFrom offset skip cs, t.kind ≠ .endOfFile → t.start < t.stop := by
  refine scanFrom_induction (P := fun _ _ _ ts => ∀ t ∈ ts, t.kind ≠ .endOfFile →
    t.start < t.stop) ?_ ?_ ?_ ?_ offset skip cs
  · intro offset _ t ht hk
    obtain rfl := List.mem_singleton.1 ht
    exact absurd rfl hk
  · exact fun _ _ _ _ ih => ih
  · exact fun _ _ _ _ ih => ih
  · intro offset c cs n kind _ ih t ht hk
    rcases List.mem_cons.1 ht with rfl | ht
    · have := c.utf8Size_pos
      simp only [Token.stop, byteLength_cons]
      omega
    · exact ih t ht hk

theorem scan_start_lt_stop (text : List Char) :
    ∀ t ∈ scan text, t.kind ≠ .endOfFile → t.start < t.stop := scanFrom_start_lt_stop 0 0 text

end Caret
