import Caret.Proofs.Enclosing
/-!
# From token to token

The token before an offset is found by halving (`token_before`), and the one before a token is the
one before the offset where the token starts (`previous_token`). Both are right as soon as the table
lists the tokens of a text and no others (`NodeTable.ListsTokens.navigable`), since each token of a
text starts before the next one, the end of the file too. The table of a text does so however often
it is read (`NodeTable.listsTokens_reread`).
-/

namespace Caret

namespace NodeTable

/-- The table of a text that is read once, and then as often again as told. -/
def reread (text : List Char) : (again : Nat) → NodeTable
  | 0 => ofText text
  | n + 1 => (reread text n).readOn (byteLength text)

/-- The listed tokens are those of a text in their order, and no token is left out. -/
structure ListsTokens (text : List Char) (t : NodeTable) : Prop where
  source : t.tokens.toList.map (fun i => (t.token? (some i), t.start i)) =
    (scan text).map fun x => (some x.kind, x.start)
  listed : ∀ i, (t.token? (some i)).isSome → ∃ n : Nat, t.tokens[n]? = some i

/-- The tokens before offsets and before tokens are the ones that the list of the tokens says. -/
structure Navigable (t : NodeTable) : Prop where
  /-- The token before an offset is the last one that starts before it. -/
  before : ∀ offset i, t.tokenBefore offset = some i ↔ ∃ n : Nat, t.tokens[n]? = some i ∧
    t.start i < offset ∧ ∀ (m j : Nat), t.tokens[m]? = some j → t.start j < offset → m ≤ n
  /-- There is none only if no token starts before the offset. -/
  noneBefore : ∀ offset, t.tokenBefore offset = none ↔
    ∀ i, (t.token? (some i)).isSome → offset ≤ t.start i
  /-- Nothing stands before the first token. -/
  first : t.previousToken t.tokens[0]? = none
  /-- Before every other token stands the one that is listed before it. -/
  next : ∀ (n i : Nat), t.tokens[n + 1]? = some i → t.previousToken (some i) = t.tokens[n]?
  /-- The last of these is the end of the file. -/
  last : ∃ n i : Nat, t.tokens[n]? = some i ∧ n + 1 = t.tokens.size ∧
    t.token? (some i) = some .endOfFile
  /-- Nothing stands before what is no token. -/
  others : ∀ i : Ref, t.token? i = none → t.previousToken i = none

section Tokens

variable {t : NodeTable} {i : Ref} {n : Nat} {k : TokenKind}

/-- A token starts where its entry does. -/
theorem exists_entry_of_token (h : t.token? (some n) = some k) :
    ∃ e, t.get? (some n) = some e ∧ e.isToken ∧ e.span.start = t.start n := by
  obtain ⟨kind, hkind, hk⟩ := Option.bind_eq_some_iff.1 h
  obtain ⟨e, he, rfl⟩ := Option.map_eq_some_iff.1 hkind
  refine ⟨e, he, ?_, ?_⟩
  · rw [Entry.isToken, hk]
    rfl
  · rw [start, he]
    rfl

theorem previousToken_of_isSome (h : t.token? (some n) = some k) :
    t.previousToken (some n) = t.tokenBefore (t.start n) := by
  obtain ⟨e, he, htoken, hstart⟩ := exists_entry_of_token h
  rw [previousToken, he, ← hstart]
  simp [htoken]

theorem previousToken_eq_none (h : t.token? i = none) : t.previousToken i = none := by
  unfold previousToken
  unfold token? kind? at h
  cases he : t.get? i with
  | none => rfl
  | some e =>
    rw [he, Option.map_some, Option.bind_some] at h
    simp [Entry.isToken, h]

end Tokens

/-! ## Tables that list the tokens of a text -/

namespace ListsTokens

variable {text : List Char} {t : NodeTable} {m n i j : Nat} (h : t.ListsTokens text)

include h

theorem size_tokens : t.tokens.size = (scan text).length := by
  have hlength := congrArg List.length h.source
  simpa using hlength

/-- The token at a place of the list is the one at that place of the text. -/
theorem exists_token (hi : t.tokens[n]? = some i) : ∃ x, (scan text)[n]? = some x ∧
    t.token? (some i) = some x.kind ∧ t.start i = x.start := by
  have hplace := congrArg (·[n]?) h.source
  simp only [List.getElem?_map, Array.getElem?_toList, hi, Option.map_some] at hplace
  obtain ⟨x, hx, heq⟩ := Option.map_eq_some_iff.1 hplace.symm
  obtain ⟨hkind, hstart⟩ := Prod.mk.inj heq
  exact ⟨x, hx, hkind.symm, hstart.symm⟩

/-- Tokens start in the order in which they are listed. -/
theorem start_lt_iff (hi : t.tokens[m]? = some i) (hj : t.tokens[n]? = some j) :
    t.start i < t.start j ↔ m < n := by
  have hascending {m n i j : Nat} (hi : t.tokens[m]? = some i) (hj : t.tokens[n]? = some j)
      (hlt : m < n) : t.start i < t.start j := by
    obtain ⟨x, hx, -, hxi⟩ := h.exists_token hi
    obtain ⟨y, hy, -, hyj⟩ := h.exists_token hj
    obtain ⟨hm, rfl⟩ := List.getElem?_eq_some_iff.1 hx
    obtain ⟨hn, rfl⟩ := List.getElem?_eq_some_iff.1 hy
    rw [hxi, hyj]
    exact List.pairwise_iff_getElem.1 (scan_sorted text) m n hm hn hlt
  constructor
  · intro hstart
    by_contra hle
    rcases Nat.lt_or_eq_of_le (Nat.le_of_not_lt hle) with hlt | rfl
    · have := hascending hj hi hlt
      omega
    · rw [hi, Option.some.injEq] at hj
      subst hj
      omega
  · exact hascending hi hj

/-- How many tokens start before an offset tells which of them is found. -/
theorem exists_count (offset : Nat) : ∃ m ≤ t.tokens.size,
    (∀ n i : Nat, t.tokens[n]? = some i → (t.start i < offset ↔ n < m)) ∧
      t.tokenBefore offset = match m with | 0 => none | n + 1 => t.tokens[n]? := by
  obtain ⟨early, late, hsplit, hearly, hlate⟩ := exists_early_late (scan_sorted text) offset
  have hsize := h.size_tokens
  rw [hsplit, List.length_append] at hsize
  have hcount : ∀ n i : Nat, t.tokens[n]? = some i → (t.start i < offset ↔ n < early.length) := by
    intro n i hi
    obtain ⟨x, hx, -, hstart⟩ := h.exists_token hi
    rw [hsplit, List.getElem?_append] at hx
    rw [hstart]
    split at hx
    · exact iff_of_true (hearly x (List.mem_of_getElem? hx)) (by assumption)
    · exact iff_of_false (Nat.not_lt.2 (hlate x (List.mem_of_getElem? hx))) (by assumption)
  have hany : ∀ n, n < t.tokens.size →
      (t.get? t.tokens[n]?).any (·.span.start < offset) = decide (n < early.length) := by
    intro n hn
    have hi : t.tokens[n]? = some t.tokens[n] := Array.getElem?_eq_getElem hn
    obtain ⟨x, -, hkind, -⟩ := h.exists_token hi
    obtain ⟨e, he, -, hstart⟩ := exists_entry_of_token hkind
    rw [hi, he, Option.any_some, hstart, decide_eq_decide]
    exact hcount n _ hi
  refine ⟨early.length, by omega, hcount, tokenBefore_of_places (by omega) ?_ ?_⟩
  · intro n hn
    rw [hany n (by omega), decide_eq_true_eq]
    exact hn
  · intro n hn hsize'
    rw [hany n hsize', decide_eq_false_iff_not]
    omega

theorem tokenBefore_eq_some {offset : Nat} : t.tokenBefore offset = some i ↔
    ∃ n : Nat, t.tokens[n]? = some i ∧ t.start i < offset ∧
      ∀ (m j : Nat), t.tokens[m]? = some j → t.start j < offset → m ≤ n := by
  obtain ⟨count, hle, hcount, hfound⟩ := h.exists_count offset
  rw [hfound]
  cases count with
  | zero =>
    constructor
    · intro hnone
      cases hnone
    · rintro ⟨n, hi, hstart, -⟩
      have := (hcount n i hi).1 hstart
      omega
  | succ count =>
    constructor
    · intro hi
      refine ⟨count, hi, (hcount count i hi).2 (Nat.lt_succ_self _), fun m j hj hstart => ?_⟩
      exact Nat.le_of_lt_succ ((hcount m j hj).1 hstart)
    · rintro ⟨n, hi, hstart, hlast⟩
      have hn := (hcount n i hi).1 hstart
      have hj : t.tokens[count]? = some t.tokens[count] := Array.getElem?_eq_getElem hle
      have hcn := hlast count _ hj ((hcount count _ hj).2 (Nat.lt_succ_self _))
      rw [show count = n by omega]
      exact hi

theorem tokenBefore_eq_none {offset : Nat} : t.tokenBefore offset = none ↔
    ∀ i, (t.token? (some i)).isSome → offset ≤ t.start i := by
  obtain ⟨count, hle, hcount, hfound⟩ := h.exists_count offset
  rw [hfound]
  cases count with
  | zero =>
    refine iff_of_true rfl fun i hi => ?_
    obtain ⟨n, hn⟩ := h.listed i hi
    have := hcount n i hn
    omega
  | succ count =>
    have hj : t.tokens[count]? = some t.tokens[count] := Array.getElem?_eq_getElem hle
    obtain ⟨x, -, hkind, -⟩ := h.exists_token hj
    have hstart := (hcount count _ hj).2 (Nat.lt_succ_self _)
    refine iff_of_false (by simp [hj]) fun hall => ?_
    have := hall t.tokens[count] (by rw [hkind]; rfl)
    omega

theorem previousToken_first : t.previousToken t.tokens[0]? = none := by
  cases hi : t.tokens[0]? with
  | none => rfl
  | some i =>
    obtain ⟨x, -, hkind, -⟩ := h.exists_token hi
    obtain ⟨count, -, hcount, hfound⟩ := h.exists_count (t.start i)
    have hzero := hcount 0 i hi
    rw [previousToken_of_isSome hkind, hfound, show count = 0 by omega]

theorem previousToken_next (hi : t.tokens[n + 1]? = some i) :
    t.previousToken (some i) = t.tokens[n]? := by
  have hn : n + 1 < t.tokens.size := (Array.getElem?_eq_some_iff.1 hi).1
  have hj : t.tokens[n]? = some t.tokens[n] := Array.getElem?_eq_getElem (by omega)
  obtain ⟨x, -, hkind, -⟩ := h.exists_token hi
  obtain ⟨count, -, hcount, hfound⟩ := h.exists_count (t.start i)
  -- all tokens up to the one before start before it, and it does not
  have hself := hcount (n + 1) i hi
  have hbefore := (hcount n _ hj).1 ((h.start_lt_iff hj hi).2 (Nat.lt_succ_self n))
  rw [previousToken_of_isSome hkind, hfound, show count = n + 1 by omega]

theorem exists_last : ∃ n i : Nat, t.tokens[n]? = some i ∧ n + 1 = t.tokens.size ∧
    t.token? (some i) = some .endOfFile := by
  have hsize := h.size_tokens
  rw [scan_eq_concat, List.length_append, List.length_singleton] at hsize
  have hlt : (scan text).dropLast.length < t.tokens.size := by omega
  have hi := Array.getElem?_eq_getElem hlt
  obtain ⟨x, hx, hkind, -⟩ := h.exists_token hi
  rw [scan_eq_concat, List.getElem?_append_right (by simp)] at hx
  have hend : x.kind = .endOfFile := by
    rw [List.mem_singleton.1 (List.mem_of_getElem? hx)]
    rfl
  exact ⟨_, _, hi, hsize.symm, by rw [hkind, hend]⟩

/-- Where the tokens of a text are listed, all steps from token to token are right. -/
theorem navigable : t.Navigable where
  before _ _ := h.tokenBefore_eq_some
  noneBefore _ := h.tokenBefore_eq_none
  first := h.previousToken_first
  next _ _ := h.previousToken_next
  last := h.exists_last
  others _ := previousToken_eq_none

end ListsTokens

/-! ## Tables of texts -/

theorem listsTokens_ofText (text : List Char) : (ofText text).ListsTokens text := by
  constructor
  case source =>
    rw [← SourceFile.root_tokens text, ofText_eq]
    apply List.ext_getElem?
    intro n
    simp only [List.getElem?_map, Array.getElem?_toList]
    cases hx : (SourceFile.ofText text).root.tokens[n]? with
    | none =>
      rw [List.getElem?_eq_none_iff, ← size_tokens] at hx
      rw [Array.getElem?_eq_none hx]
      rfl
    | some x =>
      obtain ⟨s, hs, ht, hn⟩ := exists_leafSite hx
      obtain ⟨y, hy, hstart, hkind⟩ := exists_token_of_place hn
      obtain rfl := Option.some.inj (hx.symm.trans hy)
      rw [hn, Option.map_some, Option.map_some, hstart, hkind]
  case listed =>
    intro i hi
    obtain ⟨k, hk⟩ := Option.isSome_iff_exists.1 hi
    rw [ofText_eq] at hk ⊢
    exact exists_place_of_token hk

section ReadOn

variable {t : NodeTable} {i length : Nat}

/-- What is read on stands behind all other entries. -/
theorem get?_readOn (h : i ≠ t.size) : (t.readOn length).get? (some i) = t.get? (some i) := by
  simp only [readOn, get?, Option.bind_some, Array.getElem?_push]
  exact if_neg h

/-- Reading on adds no token. -/
theorem token?_readOn : (t.readOn length).token? (some i) = t.token? (some i) := by
  by_cases h : i = t.size
  · subst h
    have hnone : t.get? (some t.size) = none := Array.getElem?_eq_none (Nat.le_refl _)
    have hunit : (t.readOn length).kind? (some t.size) = some (.node .compilationUnit) := by
      simp [readOn, kind?, get?, size]
    rw [token?, hunit, token?, kind?, hnone]
    rfl
  · rw [token?, kind?, get?_readOn h]
    rfl

theorem start_readOn (h : i ≠ t.size) : (t.readOn length).start i = t.start i := by
  rw [start, start, get?_readOn h]

theorem ListsTokens.readOn {text : List Char} (h : t.ListsTokens text) :
    (t.readOn length).ListsTokens text := by
  constructor
  case source =>
    rw [← h.source]
    apply List.map_congr_left
    intro i hi
    obtain ⟨n, hn⟩ := List.mem_iff_getElem?.1 hi
    rw [Array.getElem?_toList] at hn
    obtain ⟨x, -, hkind, -⟩ := h.exists_token hn
    obtain ⟨e, he, -⟩ := exists_entry_of_token hkind
    have hlt : i < t.size := (Array.getElem?_eq_some_iff.1 he).1
    rw [token?_readOn, start_readOn (by omega)]
  case listed =>
    intro i hi
    rw [token?_readOn] at hi
    exact h.listed i hi

end ReadOn

/-- What `reread` adds is what the parser does if it is run again on the arena it has filled. -/
theorem reread_eq (text : List Char) (again : Nat) : reread text again =
    ((fun s => (Builder.sourceFile s).2)^[again] (State.ofText text)).arena.table := by
  suffices hagain : ((fun s => (Builder.sourceFile s).2)^[again] (State.ofText text)).Finished
      (byteLength text) ∧ reread text again =
        ((fun s => (Builder.sourceFile s).2)^[again] (State.ofText text)).arena.table from hagain.2
  induction again with
  | zero => exact ⟨State.finished_ofText text, rfl⟩
  | succ n ih =>
    obtain ⟨hfinished, htable⟩ := State.table_again ih.1
    rw [Function.iterate_succ_apply']
    exact ⟨hfinished, by rw [htable, ← ih.2]; rfl⟩

/-- Reading a text again leaves its tokens as they are. -/
theorem listsTokens_reread (text : List Char) (again : Nat) :
    (reread text again).ListsTokens text := by
  induction again with
  | zero => exact listsTokens_ofText text
  | succ n ih => exact ih.readOn

/-- In the table of a text, however often it is read, all steps from token to token are right. -/
theorem reread_navigable (text : List Char) (again : Nat) :
    (reread text again).ListsTokens text ∧ (reread text again).Navigable :=
  ⟨listsTokens_reread text again, (listsTokens_reread text again).navigable⟩

end NodeTable

end Caret
