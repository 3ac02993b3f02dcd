import Caret.Context.Syntax
import Caret.Proofs.TokenOrder
import Mathlib.Data.List.Nodup
/-!
# The token before an offset

`NodeTable.tokenBefore` finds its place by halving. Where the tokens that start before an offset are
followed by those that do not, it finds the last of the former: in any table that lists them so
(`tokenBefore_of_places`), and in the table of a tree (`tokenBefore_eq`).
-/

namespace Caret

/-- Every token starts before the next one. -/
theorem scan_sorted (text : List Char) : (scan text).Pairwise fun t u => t.start < u.start := by
  have hascending := scan_ascending text
  have hpos := scan_start_lt_stop text
  have hkind := scan_dropLast_kind text
  rw [scan_eq_concat, List.pairwise_append] at hascending ⊢
  obtain ⟨htokens, -, hend⟩ := hascending
  have hlt {t : Token} (ht : t ∈ (scan text).dropLast) : t.start < t.stop :=
    hpos t (List.dropLast_subset _ ht) (hkind t ht)
  refine ⟨htokens.imp_of_mem fun ht _ h => Nat.lt_of_lt_of_le (hlt ht) h,
    List.pairwise_singleton _ _, fun t ht u hu => ?_⟩
  exact Nat.lt_of_lt_of_le (hlt ht) (hend t ht u hu)

theorem SourceFile.root_sorted (text : List Char) :
    (SourceFile.ofText text).root.tokens.Pairwise fun t u => t.start < u.start := by
  rw [root_tokens]
  exact scan_sorted text

/-- The tokens that start before an offset come first. -/
theorem exists_early_late {tokens : List Token}
    (hsorted : tokens.Pairwise fun t u => t.start < u.start) (offset : Nat) :
    ∃ early late, tokens = early ++ late ∧ (∀ t ∈ early, t.start < offset) ∧
      ∀ t ∈ late, offset ≤ t.start := by
  refine ⟨_, _, (List.takeWhile_append_dropWhile (p := (·.start < offset))).symm, fun t ht =>
    of_decide_eq_true (List.all_eq_true.1 (List.all_takeWhile (p := (·.start < offset))) t ht), ?_⟩
  have hdrop := hsorted.sublist (List.dropWhile_sublist (·.start < offset))
  have hhead := List.head?_dropWhile_not (·.start < offset) tokens
  cases hd : tokens.dropWhile (·.start < offset) with
  | nil => simp
  | cons u us =>
    rw [hd] at hdrop hhead
    have hu : offset ≤ u.start := by simpa using hhead
    refine List.forall_mem_cons.2 ⟨hu, fun t ht => ?_⟩
    exact Nat.le_of_lt (Nat.lt_of_le_of_lt hu ((List.pairwise_cons.1 hdrop).1 t ht))

namespace NodeTable

/-- Halving finds the place where the predicate stops holding. -/
theorem bisect_eq {p : Nat → Bool} {m : Nat} (hp : ∀ i < m, p i) :
    ∀ {steps base size : Nat}, 1 ≤ size → size ≤ steps → base ≤ m → m ≤ base + size →
      (∀ i, m ≤ i → i < base + size → p i = false) → bisect p steps base size = m
  | 0, _, _, h, hs, _, _, _ => by omega
  | n + 1, base, size, h, hs, hb, hm, hq => by
    unfold bisect
    split
    · rename_i hsize
      by_cases hlt : base < m
      · rw [if_pos (hp base hlt)]
        omega
      · rw [hq base (by omega) (by omega)]
        simp
        omega
    · rename_i hsize
      have hhalf : size / 2 < size := by omega
      have hother : size - size / 2 ≤ n := by omega
      by_cases hlt : base + size / 2 < m
      · simp only [hp _ hlt, if_true]
        exact bisect_eq hp (by omega) hother (by omega) (by omega)
          fun i hi hi' => hq i hi (by omega)
      · simp only [hq (base + size / 2) (by omega) (by omega), Bool.false_eq_true, if_false]
        exact bisect_eq hp (by omega) hother hb (by omega)
          fun i hi hi' => hq i hi (by omega)

/-- Where the tokens that start before an offset are listed before those that do not, the last of the
former is found. -/
theorem tokenBefore_of_places {t : NodeTable} {offset m : Nat} (hm : m ≤ t.tokens.size)
    (hearly : ∀ n < m, (t.get? t.tokens[n]?).any (·.span.start < offset) = true)
    (hlate : ∀ n, m ≤ n → n < t.tokens.size →
      (t.get? t.tokens[n]?).any (·.span.start < offset) = false) :
    t.tokenBefore offset = match m with | 0 => none | n + 1 => t.tokens[n]? := by
  unfold tokenBefore
  split
  · rename_i hzero
    rw [show m = 0 by omega]
  · rename_i hpos
    have hp : 1 ≤ t.tokens.size := Nat.one_le_iff_ne_zero.2 hpos
    have hplace := bisect_eq hearly hp (Nat.le_refl _) (Nat.zero_le _) (by omega)
      fun n hn hn' => hlate n hn (by omega)
    exact congrArg (fun m => match m with | 0 => none | n + 1 => t.tokens[n]?) hplace

variable {root : Tree} {offset : Nat} {early late : List Token}

theorem size_tokens (root : Tree) : (ofTree root).tokens.size = root.tokens.length := by
  have hlength := congrArg List.length root.map_token_leafSites
  rw [List.length_map, List.length_map] at hlength
  rw [← Array.length_toList, tokens_ofTree, List.length_map, hlength]

/-- The entry at a place among the tokens starts where the token starts. -/
theorem start_tokens {n : Nat} {token : Token} (h : root.tokens[n]? = some token) :
    ((ofTree root).get? (ofTree root).tokens[n]?).any (·.span.start < offset) =
      decide (token.start < offset) := by
  obtain ⟨s, hs, ht, hn⟩ := exists_leafSite h
  rw [hn, get?_ofTree hs, Site.entry_of_token ht]
  rfl

/-- The last token that starts before an offset. -/
theorem tokenBefore_eq (h : root.tokens = early ++ late) (he : ∀ t ∈ early, t.start < offset)
    (hl : ∀ t ∈ late, offset ≤ t.start) : (ofTree root).tokenBefore offset =
      match early.length with
      | 0 => none
      | n + 1 => (ofTree root).tokens[n]? := by
  have hsize : (ofTree root).tokens.size = early.length + late.length := by
    rw [size_tokens, h, List.length_append]
  have hearly (n : Nat) (hn : n < early.length) :
      ((ofTree root).get? (ofTree root).tokens[n]?).any (·.span.start < offset) = true := by
    have ht : root.tokens[n]? = some early[n] := by
      rw [h, List.getElem?_append_left hn, List.getElem?_eq_getElem hn]
    rw [start_tokens ht, decide_eq_true_eq]
    exact he _ (List.getElem_mem hn)
  have hlate (n : Nat) (hn : early.length ≤ n) (hn' : n < (ofTree root).tokens.size) :
      ((ofTree root).get? (ofTree root).tokens[n]?).any (·.span.start < offset) = false := by
    have hlt : n - early.length < late.length := by omega
    have ht : root.tokens[n]? = some late[n - early.length] := by
      rw [h, List.getElem?_append_right hn, List.getElem?_eq_getElem hlt]
    rw [start_tokens ht, decide_eq_false_iff_not, Nat.not_lt]
    exact hl _ (List.getElem_mem hlt)
  exact tokenBefore_of_places (by omega) hearly hlate

/-! ## Sorted tokens -/

section Sorted

variable {s : Site} {x y : Token} {init : List Token}
  (hsorted : root.tokens.Pairwise fun t u => t.start < u.start)

include hsorted

/-- A token stands at one place only. -/
theorem site_eq {s' : Site} (hs : s ∈ root.sites none 0) (hs' : s' ∈ root.sites none 0)
    (ht : s.token? = some x) (ht' : s'.token? = some x) : s = s' := by
  have hnodup : (root.leafSites.map Site.token?).Nodup := by
    rw [Tree.map_token_leafSites]
    refine List.Nodup.map (fun _ _ => Option.some.inj) (hsorted.imp fun h => ?_)
    rintro rfl
    exact Nat.lt_irrefl _ h
  have hleaf {s : Site} (hs : s ∈ root.sites none 0) (ht : s.token? = some x) :
      s ∈ root.leafSites := List.mem_filter.2 ⟨hs, by rw [ht]; rfl⟩
  exact List.inj_on_of_nodup_map hnodup (hleaf hs ht) (hleaf hs' ht') (ht.trans ht'.symm)

theorem tokenBefore_of_token (h : root.tokens = init ++ x :: late) (hx : x.start < offset)
    (hl : ∀ t ∈ late, offset ≤ t.start) (hs : s ∈ root.sites none 0) (ht : s.token? = some x) :
    (ofTree root).tokenBefore offset = some s.index := by
  have hget : root.tokens[init.length]? = some x := by simp [h]
  obtain ⟨s', hs', ht', hn⟩ := exists_leafSite hget
  have hinit : ∀ t ∈ init, t.start < x.start := by
    rw [h, List.pairwise_append] at hsorted
    exact fun t ht => hsorted.2.2 t ht x (List.mem_cons_self ..)
  have hearly : ∀ t ∈ init ++ [x], t.start < offset := by
    intro t ht
    rcases List.mem_append.1 ht with ht | ht
    · exact Nat.lt_trans (hinit t ht) hx
    · rw [List.mem_singleton.1 ht]
      exact hx
  rw [tokenBefore_eq (by simpa using h) hearly hl, List.length_append, List.length_singleton,
    site_eq hsorted hs hs' ht ht']
  exact hn

omit hsorted in
theorem tokenBefore_eq_none (h : ∀ t ∈ root.tokens, offset ≤ t.start) :
    (ofTree root).tokenBefore offset = none :=
  tokenBefore_eq (List.nil_append _).symm (by simp) h

omit hsorted in
theorem previousToken_of_token (hs : s ∈ root.sites none 0) (ht : s.token? = some x) :
    (ofTree root).previousToken (some s.index) = (ofTree root).tokenBefore x.start := by
  rw [previousToken, get?_ofTree hs, Site.entry_of_token ht]
  rfl

/-! ## Words at the offset -/

omit hsorted in
/-- Only a word that goes up to the offset is passed over. -/
theorem beforeTouchedWord_of_not (hs : s ∈ root.sites none 0) (ht : s.token? = some x)
    (hx : ¬(offset ≤ x.stop ∧ x.kind.isWord)) :
    (ofTree root).beforeTouchedWord (some s.index) offset = some s.index := by
  have htouched : ¬(decide (offset ≤ s.entry.span.stop) &&
      s.entry.kind.token?.any TokenKind.isWord) = true := by
    rw [Site.entry_of_token ht, Bool.and_eq_true, decide_eq_true_eq]
    exact hx
  rw [beforeTouchedWord, get?_ofTree hs]
  exact if_neg htouched

omit hsorted in
/-- A token that ends before the offset is not touched. -/
theorem beforeTouchedWord_of_lt (hs : s ∈ root.sites none 0) (ht : s.token? = some x)
    (hx : x.stop < offset) :
    (ofTree root).beforeTouchedWord (some s.index) offset = some s.index :=
  beforeTouchedWord_of_not hs ht fun h => Nat.not_le.2 hx h.1

omit hsorted in
/-- A word that goes up to the offset is passed over. -/
theorem beforeTouchedWord_of_word (hs : s ∈ root.sites none 0) (ht : s.token? = some x)
    (hx : offset ≤ x.stop) (hw : x.kind.isWord) :
    (ofTree root).beforeTouchedWord (some s.index) offset =
      (ofTree root).tokenBefore x.start := by
  have hentry := Site.entry_of_token ht
  have hstop : offset ≤ s.entry.span.stop := by
    rw [hentry]
    exact hx
  have hword : s.entry.kind.token?.any TokenKind.isWord = true := by
    rw [hentry]
    exact hw
  rw [← previousToken_of_token hs ht, beforeTouchedWord, get?_ofTree hs]
  simp only [hstop, hword, decide_true, Bool.and_true, if_true]

/-! ## Any offset -/

/-- The place of the token before an offset, if there is one: up to there the tokens start before the
offset. -/
theorem tokenBefore_places (offset : Nat) :
    ((ofTree root).tokenBefore offset = none ∧ ∀ x ∈ root.tokens, offset ≤ x.start) ∨
      ∃ n i, (ofTree root).tokens[n]? = some i ∧ (ofTree root).tokenBefore offset = some i ∧
        ∀ (m : Nat) (x : Token), root.tokens[m]? = some x → (x.start < offset ↔ m ≤ n) := by
  obtain ⟨early, late, h, he, hl⟩ := exists_early_late hsorted offset
  have hfound := tokenBefore_eq h he hl
  cases hn : early.length with
  | zero =>
    rw [List.length_eq_zero_iff.1 hn, List.nil_append] at h
    exact .inl ⟨by rw [hfound, hn], by rw [h]; exact hl⟩
  | succ n =>
    have hlt : n < (ofTree root).tokens.size := by
      rw [size_tokens, h, List.length_append]
      omega
    refine .inr ⟨n, _, Array.getElem?_eq_getElem hlt, ?_, fun m x hx => ?_⟩
    · rw [hfound, hn]
      exact Array.getElem?_eq_getElem hlt
    · rw [h, List.getElem?_append] at hx
      split at hx
      · exact iff_of_true (he x (List.mem_of_getElem? hx)) (by omega)
      · exact iff_of_false (Nat.not_lt.2 (hl x (List.mem_of_getElem? hx))) (by omega)

/-- The token before an offset, if there is one, stands in the tree. -/
theorem tokenBefore_cases (offset : Nat) : (ofTree root).tokenBefore offset = none ∨
    ∃ init x late, root.tokens = init ++ x :: late ∧ ∃ s ∈ root.sites none 0, s.token? = some x ∧
      (ofTree root).tokenBefore offset = some s.index := by
  obtain ⟨early, late, hsplit, hearly, hlate⟩ := exists_early_late hsorted offset
  rcases List.eq_nil_or_concat' early with rfl | ⟨init, x, rfl⟩
  · exact .inl (tokenBefore_eq_none (by rw [hsplit]; exact hlate))
  · have hget : root.tokens[init.length]? = some x := by
      rw [hsplit]
      simp
    obtain ⟨s, hs, ht, -⟩ := exists_leafSite hget
    rw [List.append_assoc, List.singleton_append] at hsplit
    exact .inr ⟨init, x, _, hsplit, s, hs, ht,
      tokenBefore_of_token hsorted hsplit (hearly x (by simp)) hlate hs ht⟩

/-- The token that decides about an offset, if there is one, stands in the tree, and the last token
before the offset is the same or the next one. -/
theorem target_cases (offset : Nat) :
    (ofTree root).beforeTouchedWord ((ofTree root).tokenBefore offset) offset = none ∨
    ∃ init x late, root.tokens = init ++ x :: late ∧ ∃ s ∈ root.sites none 0, s.token? = some x ∧
      (ofTree root).beforeTouchedWord ((ofTree root).tokenBefore offset) offset = some s.index ∧
      ((ofTree root).tokenBefore offset = some s.index ∨ ∃ y rest, late = y :: rest ∧
        ∃ v ∈ root.sites none 0, v.token? = some y ∧
          (ofTree root).tokenBefore offset = some v.index) := by
  rcases tokenBefore_cases hsorted offset with hleft | ⟨init, x, late, h, s, hs, ht, hleft⟩
  · rw [hleft]
    exact .inl rfl
  · rw [hleft]
    by_cases hx : offset ≤ x.stop ∧ x.kind.isWord
    · rw [beforeTouchedWord_of_word hs ht hx.1 hx.2]
      rcases List.eq_nil_or_concat' init with rfl | ⟨init, w, rfl⟩
      · refine .inl (tokenBefore_eq_none fun t ht => ?_)
        rw [h, List.nil_append] at ht hsorted
        rcases List.mem_cons.1 ht with rfl | ht
        · exact Nat.le_refl _
        · exact Nat.le_of_lt ((List.pairwise_cons.1 hsorted).1 t ht)
      · rw [List.append_assoc, List.singleton_append] at h
        have hget : root.tokens[init.length]? = some w := by simp [h]
        obtain ⟨u, hu, hw, -⟩ := exists_leafSite hget
        have hpairs := h ▸ hsorted
        rw [List.pairwise_append, List.pairwise_cons, List.pairwise_cons] at hpairs
        obtain ⟨-, ⟨hlt, hlate, -⟩, -⟩ := hpairs
        have hbefore := tokenBefore_of_token hsorted h (hlt x (List.mem_cons_self ..))
          (List.forall_mem_cons.2 ⟨Nat.le_refl _, fun t ht => Nat.le_of_lt (hlate t ht)⟩) hu hw
        exact .inr ⟨init, w, _, h, u, hu, hw, hbefore, .inr ⟨x, late, rfl, s, hs, ht, rfl⟩⟩
    · exact .inr ⟨init, x, late, h, s, hs, ht, beforeTouchedWord_of_not hs ht hx, .inl rfl⟩

end Sorted

end NodeTable

end Caret
