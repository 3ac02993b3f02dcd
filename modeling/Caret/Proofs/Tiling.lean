import Caret.Proofs.Answers
import Caret.Proofs.Continuation
/-!
# Tokens and gaps tile the text

`Gap` is the grammar of what stands between two tokens: blanks and comments, where only a comment
that runs into the end of the text may be open. A text is a gap, a token, a gap and so on up to the
end of the file (`Tiled`), and `scan` (`scan_all`) finds such a tiling of every text
(`scanFrom_tiled`). So the spans of the tokens ascend, they begin and end between characters, and
every byte outside of them stands in a gap from one token to the next (`scan_tiles`).
-/

namespace Caret

/-- No block comment ends among the characters. -/
def Unclosed (body : List Char) : Prop := ¬ ['*', '/'] <:+: body

/-- Blanks and comments, when `after` follows them. -/
inductive Gap (after : List Char) : List Char → Prop
  | nil : Gap after []
  | blank {c cs} : Piece.isBlank c → Gap after cs → Gap after (c :: cs)
  /-- A comment goes on to the end of its line, or of the text. -/
  | line {body cs} : '\n' ∉ body → (∀ c ∈ (cs ++ after).head?, c = '\n') → Gap after cs →
      Gap after ('/' :: '/' :: (body ++ cs))
  | block {body cs} : Unclosed body → Gap after cs →
      Gap after ('/' :: '*' :: (body ++ '*' :: '/' :: cs))
  | unterminated {body} : Unclosed body → after = [] → Gap after ('/' :: '*' :: body)

/-- The characters from `offset` on are gaps and tokens in turn, the end of the file at the end. -/
inductive Tiled : Nat → List Char → List Token → Prop
  | last {offset gap} : Gap [] gap → Tiled offset gap [.endOfFile (offset + byteLength gap)]
  | token {offset gap rest} {t : Token} {tokens} : Gap (t.text ++ rest) gap →
      t.start = offset + byteLength gap → t.text ≠ [] → t.kind ≠ .endOfFile →
      Tiled t.stop rest tokens → Tiled offset (gap ++ (t.text ++ rest)) (t :: tokens)

/-! ## The characters of comments -/

namespace Piece

variable {p : Char → Bool} {c : Char} {cs : List Char}

theorem take_run (p : Char → Bool) (cs : List Char) : cs.take (run p cs) = cs.takeWhile p := by
  induction cs with
  | nil => rfl
  | cons c cs ih =>
    by_cases hc : p c = true
    · rw [run, if_pos hc, List.take_succ_cons, List.takeWhile_cons_of_pos hc, ih]
    · rw [run, if_neg hc, List.take_zero, List.takeWhile_cons_of_neg hc]

theorem drop_run (p : Char → Bool) (cs : List Char) : cs.drop (run p cs) = cs.dropWhile p := by
  induction cs with
  | nil => rfl
  | cons c cs ih =>
    by_cases hc : p c = true
    · rw [run, if_pos hc, List.drop_succ_cons, List.dropWhile_cons_of_pos hc, ih]
    · rw [run, if_neg hc, List.drop_zero, List.dropWhile_cons_of_neg hc]

/-- A block comment is closed by the first closing behind its opening, or by none. -/
theorem blockRest_spec (cs : List Char) :
    (∃ body rest, Unclosed body ∧ cs = body ++ '*' :: '/' :: rest ∧
      blockRest cs = body.length + 2) ∨ (Unclosed cs ∧ blockRest cs = cs.length) := by
  have unclosed_cons : ∀ {c : Char} {cs : List Char}, Unclosed cs →
      (∀ tail, c = '*' → cs = '/' :: tail → False) → Unclosed (c :: cs) := by
    intro c cs hcs hc hinfix
    rcases List.infix_cons_iff.1 hinfix with ⟨tail, htail⟩ | hinfix
    · obtain ⟨hstar, htail⟩ := List.cons.inj htail
      exact hc tail hstar.symm htail.symm
    · exact hcs hinfix
  fun_induction blockRest cs with
  | case1 => exact .inr ⟨by simp [Unclosed], rfl⟩
  | case2 rest => exact .inl ⟨[], rest, by simp [Unclosed], rfl, rfl⟩
  | case3 c cs hclose ih =>
    rcases ih with ⟨body, rest, hbody, rfl, hlength⟩ | ⟨hcs, hlength⟩
    · refine .inl ⟨c :: body, rest, unclosed_cons hbody fun tail hc htail => ?_, rfl, ?_⟩
      · exact hclose _ hc (by rw [htail]; rfl)
      · rw [hlength, List.length_cons, Nat.add_right_comm]
    · exact .inr ⟨unclosed_cons hcs hclose, by rw [hlength, List.length_cons]⟩

/-- What starts without a kind is a gap. -/
theorem gap_of_first (h : (first c cs).kind = none) : gap c cs = some (first c cs) := by
  unfold first at h ⊢
  cases hg : gap c cs with
  | some piece => rfl
  | none =>
    rw [hg, Option.getD_none] at h
    cases hp : punctuation c cs.head? with
    | some piece =>
      rw [hp, Option.getD_some] at h
      unfold punctuation at hp
      split at hp <;> first | (obtain rfl := Option.some.inj hp; cases h) | cases hp
    | none =>
      rw [hp, Option.getD_none] at h
      unfold lexeme at h
      repeat' (split at h; · cases h)
      cases h

/-- A piece between tokens and the gap behind it are a gap. -/
theorem gap_extends {piece : Piece} (h : gap c cs = some piece) {rest after : List Char}
    (hrest : cs.drop piece.more = rest ++ after) (hgap : Gap after rest) :
    Gap after (c :: cs.take piece.more ++ rest) := by
  unfold gap at h
  split at h
  · next cs =>
    obtain rfl := Option.some.inj h
    rw [List.drop_succ_cons, drop_run] at hrest
    rw [List.take_succ_cons, take_run]
    refine .line (fun hmem => ?_) (fun d hd => ?_) hgap
    · simpa using List.all_eq_true.1 (List.all_takeWhile (p := (· != '\n'))) _ hmem
    · have hhead := List.head?_dropWhile_not (· != '\n') cs
      rw [hrest, Option.mem_def.1 hd] at hhead
      simpa using hhead
  · next cs =>
    obtain rfl := Option.some.inj h
    rw [List.drop_succ_cons] at hrest
    rw [List.take_succ_cons]
    rcases blockRest_spec cs with ⟨body, tail, hbody, rfl, hlength⟩ | ⟨hcs, hlength⟩
    · have htake : (body ++ '*' :: '/' :: tail).take (body.length + 2) = body ++ ['*', '/'] := by
        rw [List.take_length_add_append]; rfl
      rw [hlength, htake]
      simpa using Gap.block hbody hgap
    · rw [hlength, List.drop_length] at hrest
      obtain ⟨rfl, rfl⟩ := List.append_eq_nil_iff.1 hrest.symm
      rw [hlength, List.take_length, List.append_nil]
      exact .unterminated hcs rfl
  · split at h
    · next hblank =>
      obtain rfl := Option.some.inj h
      exact .blank hblank hgap
    · cases h

end Piece

/-! ## A tiling of every text -/

namespace Tiled

variable {offset : Nat} {cs : List Char} {tokens : List Token}

/-- What makes every gap behind it longer may stand before a tiling. -/
theorem extend {before : List Char} (h : Tiled (offset + byteLength before) cs tokens)
    (hgap : ∀ gap after, cs = gap ++ after → Gap after gap → Gap after (before ++ gap)) :
    Tiled offset (before ++ cs) tokens := by
  cases h with
  | @last _ gap hlast =>
    have hlonger := @Tiled.last offset _ (hgap cs [] (List.append_nil _).symm hlast)
    rwa [byteLength_append, ← Nat.add_assoc] at hlonger
  | token hfirst hstart hne hkind hrest =>
    rw [← List.append_assoc]
    refine .token (hgap _ _ rfl hfirst) ?_ hne hkind hrest
    rw [hstart, byteLength_append, Nat.add_assoc]

theorem offset_le (h : Tiled offset cs tokens) : ∀ t ∈ tokens, offset ≤ t.start := by
  induction h with
  | last =>
    intro t ht
    obtain rfl := List.mem_singleton.1 ht
    exact Nat.le_add_right ..
  | token _ hstart _ _ _ ih =>
    intro t ht
    rcases List.mem_cons.1 ht with rfl | ht
    · omega
    · have := ih t ht
      simp only [Token.stop] at this
      omega

end Tiled

theorem scanFrom_drop (offset skip : Nat) (cs : List Char) :
    scanFrom offset skip cs = scanFrom (offset + byteLength (cs.take skip)) 0 (cs.drop skip) := by
  by_cases h : skip ≤ cs.length
  · have hskip := scanFrom_skip offset 0 (cs.take skip) (cs.drop skip)
    rwa [List.take_append_drop, List.length_take_of_le h, Nat.add_zero] at hskip
  · have h : cs.length ≤ skip := by omega
    rw [scanFrom_beyond h, List.take_of_length_le h, List.drop_of_length_le h, scanFrom]

theorem scanFrom_tiled (offset : Nat) (cs : List Char) : Tiled offset cs (scanFrom offset 0 cs) := by
  match cs with
  | [] => exact .last .nil
  | c :: cs =>
    have hrest := scanFrom_tiled (offset + c.utf8Size +
      byteLength (cs.take (Piece.first c cs).more)) (cs.drop (Piece.first c cs).more)
    have htext : c :: cs = (c :: cs.take (Piece.first c cs).more) ++
        cs.drop (Piece.first c cs).more := by simp
    rw [scanFrom_cons, scanFrom_drop]
    cases hk : (Piece.first c cs).kind with
    | none =>
      have hpiece := Piece.gap_of_first hk
      conv => arg 2; rw [htext]
      refine .extend (by simpa [Nat.add_assoc] using hrest) fun gap after hcs hgap => ?_
      exact Piece.gap_extends hpiece hcs hgap
    | some kind =>
      conv => arg 2; rw [htext]
      refine @Tiled.token offset [] _ ⟨kind, offset, c :: cs.take (Piece.first c cs).more⟩ _
        .nil rfl (List.cons_ne_nil _ _) ?_ ?_
      · rintro rfl
        exact Piece.first_kind c cs hk
      · simpa [Token.stop, Nat.add_assoc] using hrest
termination_by cs.length

theorem scan_tiled (text : List Char) : Tiled 0 text (scan text) := scanFrom_tiled 0 text

/-! ## What a tiling says of its bytes -/

/-- Between `before` and `after` stands what no token covers, from the token before it, or from the
beginning, to the token behind it. -/
structure IsMaximalGap (tokens : List Token) (before gap after : List Char) : Prop where
  blank : Gap after gap
  opens : before = [] ∨ ∃ t ∈ tokens, t.stop = byteLength before
  closes : ∃ t ∈ tokens, t.start = byteLength (before ++ gap)
  uncovered : ∀ t ∈ tokens, t.stop ≤ byteLength before ∨ byteLength (before ++ gap) ≤ t.start

section Bytes

variable {read gap after cs : List Char} {seen tokens : List Token} {offset p : Nat}

/-- The gap between the tokens seen so far and the next one. -/
theorem IsMaximalGap.of_next {t : Token} (hgap : Gap after gap)
    (hseen : ∀ u ∈ seen, u.stop ≤ byteLength read)
    (hread : read = [] ∨ ∃ u ∈ seen, u.stop = byteLength read)
    (hstart : t.start = byteLength (read ++ gap)) (hrest : ∀ u ∈ tokens, t.start ≤ u.start) :
    IsMaximalGap (seen ++ t :: tokens) read gap after where
  blank := hgap
  opens := hread.imp_right fun ⟨u, hu, hstop⟩ => ⟨u, List.mem_append_left _ hu, hstop⟩
  closes := ⟨t, by simp, hstart⟩
  uncovered := by
    intro u hu
    rcases List.mem_append.1 hu with hu | hu
    · exact .inl (hseen u hu)
    · rcases List.mem_cons.1 hu with rfl | hu
      · exact .inr (Nat.le_of_eq hstart.symm)
      · exact .inr (hstart ▸ hrest u hu)

/-- A byte outside of the tokens of a tiling stands in a gap. -/
theorem Tiled.exists_gap (h : Tiled offset cs tokens) : ∀ {read : List Char} {seen : List Token},
    offset = byteLength read → (∀ t ∈ seen, t.stop ≤ byteLength read) →
    (read = [] ∨ ∃ t ∈ seen, t.stop = byteLength read) →
    offset ≤ p → p < offset + byteLength cs → (∀ t ∈ tokens, ¬ t.span.contains p) →
    ∃ before gap after, read ++ cs = before ++ (gap ++ after) ∧ byteLength before ≤ p ∧
      p < byteLength (before ++ gap) ∧ IsMaximalGap (seen ++ tokens) before gap after := by
  induction h with
  | @last offset gap hgap =>
    rintro read seen rfl hseen hread hle hlt -
    refine ⟨read, gap, [], by simp, hle, by simpa using hlt, .of_next hgap hseen hread ?_ (by simp)⟩
    simp [Token.endOfFile]
  | @token offset gap rest t tokens hgap hstart _ _ htail ih =>
    rintro read seen rfl hseen hread hle hlt huncovered
    by_cases hp : p < t.start
    · refine ⟨read, gap, t.text ++ rest, rfl, hle, by simpa [← hstart] using hp,
        .of_next hgap hseen hread (by simp [hstart]) fun u hu => ?_⟩
      exact Nat.le_trans (Nat.le_add_right ..) (htail.offset_le u hu)
    · have hstop : t.stop = byteLength (read ++ (gap ++ t.text)) := by
        simp [Token.stop, hstart, Nat.add_assoc]
      have hp : t.stop ≤ p := by
        have htoken := huncovered t (List.mem_cons_self ..)
        rw [Span.contains_iff] at htoken
        exact Nat.le_of_not_lt fun hlt => htoken ⟨Nat.le_of_not_lt hp, hlt⟩
      obtain ⟨before, gap', after, htext, hle', hlt', hmax⟩ :=
        @ih (read ++ (gap ++ t.text)) (seen ++ [t]) hstop
          (fun u hu => by
            rcases List.mem_append.1 hu with hu | hu
            · have := hseen u hu
              simp only [byteLength_append]
              omega
            · obtain rfl := List.mem_singleton.1 hu
              exact Nat.le_of_eq hstop)
          (.inr ⟨t, by simp, hstop⟩) hp
          (by simp only [byteLength_append] at hlt hstop; omega)
          fun u hu => huncovered u (List.mem_cons_of_mem _ hu)
      refine ⟨before, gap', after, ?_, hle', hlt', ?_⟩
      · rw [← htext]
        simp
      · rwa [List.append_assoc] at hmax

end Bytes

/-- The tokens of a text and the gaps between them are all of the text. -/
structure Tiles (text : List Char) (tokens : List Token) : Prop where
  ascending : tokens.Pairwise fun t u => t.start ≤ u.start ∧ t.stop ≤ u.start
  within : ∀ t ∈ tokens, isBoundary text t.start ∧ isBoundary text t.stop ∧
    t.start ≤ t.stop ∧ t.stop ≤ byteLength text
  ends : ∃ words, tokens = words ++ [.endOfFile (byteLength text)] ∧
    ∀ t ∈ words, t.kind ≠ .endOfFile ∧ t.start < t.stop
  gaps : ∀ p < byteLength text, (∀ t ∈ tokens, ¬ t.span.contains p) →
    ∃ before gap after, text = before ++ (gap ++ after) ∧
      byteLength before ≤ p ∧ p < byteLength (before ++ gap) ∧
      IsMaximalGap tokens before gap after

/-- The tokens of every text tile it. -/
theorem scan_tiles (text : List Char) : Tiles text (scan text) where
  ascending := (scan_ascending text).imp fun h => ⟨Nat.le_trans (Nat.le_add_right ..) h, h⟩
  within := by
    intro t ht
    obtain ⟨before, after, htext, hstart⟩ := scan_slice text t ht
    have hstop : t.stop = byteLength (before ++ t.text) := by simp [Token.stop, ← hstart]
    refine ⟨?_, ?_, Nat.le_add_right .., ?_⟩
    · rw [htext, List.append_assoc, ← hstart]
      exact isBoundary_append _ _
    · rw [hstop, htext]
      exact isBoundary_append _ _
    · rw [hstop, htext]
      simp only [byteLength_append]
      omega
  ends := by
    refine ⟨_, scan_eq_concat text, fun t ht => ?_⟩
    have hkind := scan_dropLast_kind text t ht
    exact ⟨hkind, scan_start_lt_stop text t (List.dropLast_subset _ ht) hkind⟩
  gaps := by
    intro p hp huncovered
    exact (scan_tiled text).exists_gap rfl (List.forall_mem_nil _) (.inl rfl) (Nat.zero_le p)
      (by simpa using hp) huncovered

end Caret
