import Caret.Proofs.CleanReading
import Caret.Proofs.ExpressionPatterns
/-!
# Reading the same kinds of token again

Two runs of a parser start before tokens of the same kinds, up to a semicolon in each run. An
expression never reads a semicolon, and it looks behind the next token only where that is none. So
if the first run reports nothing, the second run reports nothing either, ends before the token that
corresponds to the one where the first run ends, and yields as many trees (`Rereads`). What stands
behind the semicolons, what was reported before, and how many tokens are left may differ, and the
second run may have more levels at its disposal than the first (`rereads_expression`): that one
level is too deep is only ever reported.
-/

namespace Caret

/-- Before `r` and before `r'`, which begin with a semicolon, stand tokens of the given kinds. -/
structure Facing (r r' : List Token) (ks : List TokenKind) (c c' : Cursor) : Prop where
  stop : r.head?.map Token.kind = some .semicolon
  stop' : r'.head?.map Token.kind = some .semicolon
  rest : ∃ ts, ts.map Token.kind = ks ∧ c.rest = ts ++ r
  rest' : ∃ ts, ts.map Token.kind = ks ∧ c'.rest = ts ++ r'

open Caret.Parser

variable {r r' : List Token} {ks : List TokenKind} {c c' : Cursor} {p p' q q' : Parser}
  {P Q : Cursor → Prop} {test : TokenKind → Bool} {n m l k : Nat}

namespace Facing

theorem symm (h : Facing r r' ks c c') : Facing r' r ks c' c := ⟨h.stop', h.stop, h.rest', h.rest⟩

theorem length_lt (h : Facing r r' ks c c') : ks.length < c.rest.length := by
  obtain ⟨ts, rfl, hrest⟩ := h.rest
  have hstop := h.stop
  cases r with
  | nil => cases hstop
  | cons x r => rw [hrest]; simp

/-- The kinds of the unread tokens, the semicolon included. -/
theorem peek_eq (h : Facing r r' ks c c') {count : Nat} (hc : count ≤ ks.length) :
    c.peek count = ((ks ++ [.semicolon])[count]?).getD .endOfFile := by
  obtain ⟨ts, rfl, hrest⟩ := h.rest
  have hstop := h.stop
  cases r with
  | nil => cases hstop
  | cons x r =>
    rw [List.head?_cons, Option.map_some] at hstop
    obtain hx : x.kind = .semicolon := Option.some.inj hstop
    unfold Cursor.peek
    rw [hrest, List.append_cons, List.getElem?_append_left (by simp at hc ⊢; omega), ← hx,
      ← List.getElem?_map]
    simp

theorem peek (h : Facing r r' ks c c') {count : Nat} (hc : count ≤ ks.length) :
    c.peek count = c'.peek count := (h.peek_eq hc).trans (h.symm.peek_eq hc).symm

theorem kind (h : Facing r r' ks c c') : c.kind = c'.kind := by
  rw [← peek_zero, ← peek_zero, h.peek (Nat.zero_le _)]

theorem kind_nil (h : Facing r r' [] c c') : c.kind = .semicolon := by
  rw [← peek_zero, h.peek_eq (Nat.zero_le _)]
  rfl

theorem take {k : TokenKind} (h : Facing r r' (k :: ks) c c') :
    Facing r r' ks (Parser.take c).2 (Parser.take c').2 := by
  have hrest {r c} (h : ∃ ts : List Token, ts.map Token.kind = k :: ks ∧ c.rest = ts ++ r) :
      ∃ ts, ts.map Token.kind = ks ∧ (Parser.take c).2.rest = ts ++ r := by
    obtain ⟨ts, hts, hc⟩ := h
    obtain ⟨t, us, rfl, -, hus⟩ := List.map_eq_cons_iff.1 hts
    exact ⟨us, hus, by simp [Parser.take, hc]⟩
  exact ⟨h.stop, h.stop', hrest h.rest, hrest h.rest'⟩

theorem length_take {k : TokenKind} (h : Facing r r' (k :: ks) c c') :
    (Parser.take c).1.length = 1 := by
  obtain ⟨ts, hts, hc⟩ := h.rest
  obtain ⟨t, us, rfl, -, -⟩ := List.map_eq_cons_iff.1 hts
  simp [Parser.take, hc]

end Facing

/-- The second run made as many trees as the first and no report, and both stand before tokens of
the same kinds, of which `n` or more were read out of `m`. -/
structure Again (r r' : List Token) (n m : Nat) (c' : Cursor) (a b : List Tree × Cursor) :
    Prop where
  length : a.1.length = b.1.length
  quiet : b.2.diagnostics = c'.diagnostics
  facing : ∃ ks, ks.length + n ≤ m ∧ Facing r r' ks a.2 b.2

namespace Parser

/-- What is reported stays reported. -/
def Grows (p : Parser) : Prop := ∀ c, (p c).2.diagnostics = [] → c.diagnostics = []

theorem length_into (p : Parser) (slot : Slot) (c : Cursor) :
    (p.into slot c).1.length = (p c).1.length := by
  have hlength := congrArg List.length (Tree.map_bare_lastInto slot (p c).1)
  rw [List.length_map, List.length_map] at hlength
  exact hlength

namespace Grows

theorem of_yields {a : Pattern} (h : Yields Any p a) : Grows p :=
  fun c hc => (h c trivial).1.diagnostics_eq_nil hc

theorem emit (ts : List Tree) : Grows (Parser.emit ts) := fun _ hc => hc

theorem take : Grows Parser.take := fun c hc => (diagnostics_take c).symm.trans hc

theorem append (hp : Grows p) (hq : Grows q) : Grows (p ++ q) := fun c hc => hp c (hq _ hc)

theorem ifNext (hp : Grows p) (hq : Grows q) : Grows (Parser.ifNext test p q) := by
  intro c hc
  by_cases ht : test c.kind = true
  · rw [ifNext_pos ht] at hc
    exact hp c hc
  · rw [Bool.not_eq_true] at ht
    rw [ifNext_neg ht] at hc
    exact hq c hc

theorem separatedAtMost (hp : Grows p) (unread : List Token) :
    Grows (Parser.separatedAtMost test p unread) := by
  induction unread with
  | nil => exact emit []
  | cons t unread ih => exact (hp.append ((take.append ih).ifNext (emit []))).ifNext (emit [])

theorem extend {rule : Cursor → Option Extension}
    (hrule : ∀ d ext, rule d = some ext → Grows ext.rest) (start : Nat) (unread : List Token)
    (left : List Tree) : Grows (Parser.extend rule start unread left) := by
  induction unread generalizing left with
  | nil => exact emit left
  | cons t unread ih =>
    intro c hc
    simp only [Parser.extend, look] at hc
    cases he : rule c with
    | none =>
      rw [he] at hc
      exact hc
    | some ext =>
      rw [he] at hc
      exact hrule c ext he c (ih _ _ hc)

end Grows

end Parser

/-- If `p` reports nothing and reads no semicolon, `q` reads what `p` read; that are `n` tokens or
more. -/
structure Rereads (n : Nat) (P : Cursor → Prop) (p q : Parser) : Prop where
  grows : p.Grows
  again : ∀ {r r' ks c c'}, P c → Facing r r' ks c c' → (p c).2.diagnostics = [] →
    Again r r' n ks.length c' (p c) (q c')

theorem Again.append (h : Again r r' n m c' (p c) (p' c'))
    (hq : ∀ ks, ks.length + n ≤ m → Facing r r' ks (p c).2 (p' c').2 →
      Again r r' l ks.length (p' c').2 (q (p c).2) (q' (p' c').2)) (hk : k ≤ n + l) :
    Again r r' k m c' ((p ++ q) c) ((p' ++ q') c') := by
  obtain ⟨ks, hks, hfacing⟩ := h.facing
  have hagain := hq ks hks hfacing
  obtain ⟨ks', hks', hfacing'⟩ := hagain.facing
  constructor
  · rw [append_apply, append_apply, List.length_append, List.length_append, h.length,
      hagain.length]
  · exact hagain.quiet.trans h.quiet
  · exact ⟨ks', by omega, hfacing'⟩

namespace Rereads

theorem mono (h : Rereads n P p q) (hQ : ∀ c, Q c → P c) : Rereads n Q p q :=
  ⟨h.grows, fun hc => h.again (hQ _ hc)⟩

theorem whenever (h : Rereads n Any p q) : Rereads n P p q := h.mono fun _ _ => trivial

theorem weaken (h : Rereads n P p q) (hm : m ≤ n) : Rereads m P p q := by
  refine ⟨h.grows, fun hc hfacing hclean => ?_⟩
  obtain ⟨hlength, hquiet, ks, hks, hnext⟩ := h.again hc hfacing hclean
  exact ⟨hlength, hquiet, ks, by omega, hnext⟩

theorem emit {ts us : List Tree} (h : ts.length = us.length) :
    Rereads 0 P (Parser.emit ts) (Parser.emit us) :=
  ⟨fun _ hc => hc, fun _ hfacing _ => ⟨h, rfl, _, Nat.le_refl _, hfacing⟩⟩

theorem nothing : Rereads 0 P Parser.nothing Parser.nothing := emit rfl

/-- A report is not left out. -/
theorem report (problem : Problem) (q : Parser) : Rereads n P (Parser.report problem) q :=
  ⟨fun c hc => absurd hc (c.report_diagnostics problem),
    fun _ _ hc => absurd hc (Cursor.report_diagnostics _ problem)⟩

theorem take (hP : ∀ c, P c → c.kind ≠ .semicolon) : Rereads 1 P Parser.take Parser.take := by
  refine ⟨fun c hc => (diagnostics_take c).symm.trans hc, fun {r r' ks c c'} hc hfacing _ => ?_⟩
  cases ks with
  | nil => exact absurd hfacing.kind_nil (hP c hc)
  | cons k ks =>
    exact ⟨hfacing.length_take.trans hfacing.symm.length_take.symm, diagnostics_take c', ks,
      by simp, hfacing.take⟩

/-- A token that the parser has looked at. -/
theorem takeAt (hs : test .semicolon = false) : Rereads 1 (At test) Parser.take Parser.take :=
  take fun c hc he => by rw [At, he, hs] at hc; cases hc

theorem append (hp : Rereads n P p p') (hq : Rereads m Any q q') :
    Rereads (n + m) P (p ++ q) (p' ++ q') :=
  ⟨fun c hc => hp.grows c (hq.grows _ hc), fun hc hfacing hclean =>
    (hp.again hc hfacing (hq.grows _ hclean)).append (fun _ _ h => hq.again trivial h hclean)
      (Nat.le_refl _)⟩

/-- A choice by the kind of the next token. -/
theorem look {choose choose' : Cursor → Parser} (h : ∀ c c', c.kind = c'.kind →
    Rereads n (fun d => d.kind = c.kind) (choose c) (choose' c')) :
    Rereads n P (Parser.look choose) (Parser.look choose') :=
  ⟨fun c hc => (h c c rfl).grows c hc,
    fun {_ _ _ c c'} _ hfacing hclean => (h c c' hfacing.kind).again rfl hfacing hclean⟩

theorem ifNext (hp : Rereads n (At test) p p') (hq : Rereads n Any q q') :
    Rereads n P (Parser.ifNext test p q) (Parser.ifNext test p' q') := by
  refine look fun c c' hk => ?_
  rw [← hk]
  split
  · rename_i ht
    exact hp.mono fun d hd => by rw [At, hd, ht]
  · exact hq.whenever

theorem optional (hp : Rereads n (At test) p p') :
    Rereads 0 P (Parser.ifNext test p Parser.nothing) (Parser.ifNext test p' Parser.nothing) :=
  (hp.weaken (Nat.zero_le _)).ifNext nothing

theorem orReport (hp : Rereads n (At test) p p') (problem : Problem) :
    Rereads n P (Parser.ifNext test p (Parser.report problem))
      (Parser.ifNext test p' (Parser.report problem)) := hp.ifNext (report problem _)

theorem expect {k : TokenKind} (hk : (TokenKind.semicolon == k) = false) :
    Rereads 1 P (Parser.expect k) (Parser.expect k) := (takeAt hk).orReport _

/-! ## Nodes and slots -/

theorem close (h : Rereads n P p q) (k k' : NodeKind) (start start' : Nat) :
    Rereads n P (Parser.close k start p) (Parser.close k' start' q) :=
  ⟨h.grows, fun hc hfacing hclean => { h.again hc hfacing hclean with length := rfl }⟩

theorem node (h : Rereads n P p q) (k : NodeKind) :
    Rereads n P (Parser.node k p) (Parser.node k q) :=
  ⟨h.grows, fun hc hfacing hclean => { h.again hc hfacing hclean with length := rfl }⟩

theorem into (h : Rereads n P p q) (slot : Slot) : Rereads n P (p.into slot) (q.into slot) := by
  refine ⟨h.grows, fun hc hfacing hclean => ?_⟩
  have hagain := h.again hc hfacing hclean
  exact { hagain with length := by rw [length_into, length_into, hagain.length] }

theorem read {next next' : Nat → List Tree → Parser} (hp : Rereads n P p q)
    (h : ∀ start start' ts us, ts.length = us.length →
      Rereads m Any (next start ts) (next' start' us)) :
    Rereads (n + m) P (p.read next) (q.read next') := by
  refine ⟨fun c hc => hp.grows c ((h _ 0 _ _ rfl).grows _ hc),
    fun {r r' ks c c'} hc hfacing hclean => ?_⟩
  have hagain := hp.again hc hfacing ((h _ 0 _ _ rfl).grows _ hclean)
  obtain ⟨ls, hls, hnext⟩ := hagain.facing
  obtain ⟨hlength, hquiet, ks', hks', hlast⟩ :=
    (h c.next.start c'.next.start _ _ hagain.length).again trivial hnext hclean
  exact ⟨hlength, hquiet.trans hagain.quiet, ks', by omega, hlast⟩

/-! ## Repetition -/

/-- A comma that is read is one token less to be read. -/
theorem separated (hp : Rereads n (At test) p p') :
    Rereads 0 P (Parser.separated test p) (Parser.separated test p') := by
  have hgrows (unread : List Token) : Grows (separatedAtMost test p unread) :=
    hp.grows.separatedAtMost unread
  suffices h : ∀ {r r' ks c c'} (unread unread' : List Token), ks.length < unread.length →
      ks.length < unread'.length → Facing r r' ks c c' →
        (separatedAtMost test p unread c).2.diagnostics = [] → Again r r' 0 ks.length c'
          (separatedAtMost test p unread c) (separatedAtMost test p' unread' c') by
    refine ⟨fun c hc => hgrows _ c hc, fun {r r' ks c c'} _ hfacing hclean => ?_⟩
    have hlt := hfacing.length_lt
    have hlt' := hfacing.symm.length_lt
    exact h _ _ (by simp; omega) (by simp; omega) hfacing hclean
  intro r r' ks c c' unread
  induction unread generalizing ks c c' with
  | nil => exact fun _ hu => absurd hu (Nat.not_lt_zero _)
  | cons t unread ih =>
    intro unread' hu hu' hfacing hclean
    obtain ⟨t', unread', rfl⟩ := List.exists_cons_of_length_pos (Nat.zero_lt_of_lt hu')
    rw [List.length_cons] at hu hu'
    rw [separatedAtMost] at hclean ⊢
    rw [separatedAtMost]
    by_cases ht : test c.kind = true
    · rw [ifNext_pos ht] at hclean ⊢
      rw [ifNext_pos (hfacing.kind ▸ ht)]
      have hrest : Grows (Parser.ifNext (· == .comma)
          (Parser.take ++ separatedAtMost test p unread) Parser.nothing) :=
        (Grows.take.append (hgrows unread)).ifNext (.emit [])
      refine (hp.again ht hfacing (hrest _ hclean)).append (l := 0) (fun ks' hks' hfacing' => ?_)
        (Nat.zero_le _)
      rw [append_apply] at hclean
      by_cases hcomma : ((p c).2.kind == .comma) = true
      · rw [ifNext_pos hcomma] at hclean ⊢
        rw [ifNext_pos (hfacing'.kind ▸ hcomma)]
        have htake : Rereads 1 (At (· == .comma)) Parser.take Parser.take := takeAt rfl
        refine (htake.again hcomma hfacing' (hgrows unread _ hclean)).append (l := 0)
          (fun ls hls hfacing'' => ?_) (Nat.zero_le _)
        exact ih unread' (by omega) (by omega) hfacing'' hclean
      · rw [Bool.not_eq_true] at hcomma
        rw [ifNext_neg hcomma, ifNext_neg (hfacing'.kind ▸ hcomma)]
        exact ⟨rfl, rfl, ks', Nat.le_refl _, hfacing'⟩
    · rw [Bool.not_eq_true] at ht
      rw [ifNext_neg ht, ifNext_neg (hfacing.kind ▸ ht)]
      exact ⟨rfl, rfl, ks, Nat.le_refl _, hfacing⟩

/-- One rule says that a tree goes on where the other does; what follows takes a token. -/
structure Rules (rule rule' : Cursor → Option Extension) : Prop where
  none : ∀ {c c'}, c.kind = c'.kind → rule c = none → rule' c' = none
  some : ∀ {c c' ext}, c.kind = c'.kind → rule c = some ext → ∃ ext', rule' c' = some ext' ∧
    Rereads 1 (fun d => d.kind = c.kind) ext.rest ext'.rest

theorem enlarge {ext ext' : Extension} (h : Rereads n P ext.rest ext'.rest)
    (start start' : Nat) (left left' : List Tree) :
    Rereads n P (Parser.enlarge ext start left) (Parser.enlarge ext' start' left') :=
  ⟨h.grows, fun hc hfacing hclean => { h.again hc hfacing hclean with length := rfl }⟩

/-- What is read first, and all that it is enlarged by. -/
theorem extend {rule rule' : Cursor → Option Extension} (hrule : Rules rule rule')
    (start start' : Nat) {left left' : List Tree} (hl : left.length = left'.length) :
    Rereads 0 P (Parser.look fun c => Parser.extend rule start c.rest left)
      (Parser.look fun c => Parser.extend rule' start' c.rest left') := by
  have hgrows : ∀ (start : Nat) unread left, Grows (Parser.extend rule start unread left) :=
    Grows.extend fun d ext he => by
      obtain ⟨ext', -, hext⟩ := hrule.some (Eq.refl d.kind) he
      exact hext.grows
  suffices h : ∀ {r r' ks c c'} (unread unread' : List Token) {left left' : List Tree},
      left.length = left'.length → ks.length < unread.length → ks.length < unread'.length →
        Facing r r' ks c c' → (Parser.extend rule start unread left c).2.diagnostics = [] →
          Again r r' 0 ks.length c' (Parser.extend rule start unread left c)
            (Parser.extend rule' start' unread' left' c') from
    ⟨fun c hc => hgrows _ _ _ c hc, fun {r r' ks c c'} _ hfacing hclean =>
      h _ _ hl hfacing.length_lt hfacing.symm.length_lt hfacing hclean⟩
  intro r r' ks c c' unread
  induction unread generalizing ks c c' with
  | nil => exact fun _ _ _ _ hu => absurd hu (Nat.not_lt_zero _)
  | cons t unread ih =>
    intro unread' left left' hl hu hu' hfacing hclean
    obtain ⟨t', unread', rfl⟩ := List.exists_cons_of_length_pos (Nat.zero_lt_of_lt hu')
    rw [List.length_cons] at hu hu'
    simp only [Parser.extend, Parser.look] at hclean ⊢
    cases he : rule c with
    | none =>
      rw [hrule.none hfacing.kind he]
      exact ⟨hl, rfl, ks, Nat.le_refl _, hfacing⟩
    | some ext =>
      obtain ⟨ext', he', hext⟩ := hrule.some hfacing.kind he
      rw [he] at hclean
      rw [he']
      simp only [Parser.read] at hclean ⊢
      have hagain := (hext.enlarge start start' left left').again rfl hfacing (hgrows _ _ _ _ hclean)
      obtain ⟨ls, hls, hnext⟩ := hagain.facing
      obtain ⟨hlength, hquiet, ks', hks', hlast⟩ :=
        ih unread' hagain.length (by omega) (by omega) hnext hclean
      exact ⟨hlength, hquiet.trans hagain.quiet, ks', by omega, hlast⟩

theorem extended {rule rule' : Cursor → Option Extension} (hp : Rereads n P p q)
    (hrule : Rules rule rule') : Rereads n P (p.extended rule) (q.extended rule') :=
  hp.read fun start start' _ _ hl => extend hrule start start' hl

end Rereads

namespace Grammar

variable {e e' : Parser}

/-! ## Names -/

theorem dotNameAt_facing (h : Facing r r' ks c c') : dotNameAt c 0 = dotNameAt c' 0 := by
  unfold dotNameAt
  cases ks with
  | nil => rw [← h.peek (Nat.zero_le _), peek_zero, h.kind_nil]; rfl
  | cons k ks => rw [h.peek (Nat.zero_le _), h.peek (by simp)]

theorem rereads_takeTwo : Rereads 2 (fun d => d.peek 0 ≠ .semicolon ∧ d.peek 1 ≠ .semicolon)
    (take ++ take) (take ++ take) := by
  refine ⟨Grows.take.append Grows.take, fun {r r' ks c c'} hc hfacing hclean => ?_⟩
  have hfirst : Rereads 1 (fun d => d.kind ≠ .semicolon) take take := .take fun _ h => h
  refine (hfirst.again (peek_zero c ▸ hc.1) hfacing (Grows.take _ hclean)).append (l := 1)
    (fun ls hls hnext => ?_) (Nat.le_refl _)
  exact hfirst.again (kind_take c ▸ hc.2) hnext hclean

theorem grows_dottedAtMost (unread : List Token) : Grows (dottedAtMost unread) := by
  induction unread with
  | nil => exact .emit []
  | cons t unread ih =>
    intro c hc
    simp only [dottedAtMost, look] at hc
    split at hc
    · exact (Grows.take.append .take).append ih c hc
    · exact hc

theorem rereads_dotted : Rereads 0 P dotted dotted := by
  suffices h : ∀ {r r' ks c c'} (unread unread' : List Token), ks.length < unread.length →
      ks.length < unread'.length → Facing r r' ks c c' →
        (dottedAtMost unread c).2.diagnostics = [] →
          Again r r' 0 ks.length c' (dottedAtMost unread c) (dottedAtMost unread' c') from
    ⟨fun c hc => grows_dottedAtMost c.rest c hc, fun _ hfacing hclean =>
      h _ _ hfacing.length_lt hfacing.symm.length_lt hfacing hclean⟩
  intro r r' ks c c' unread
  induction unread generalizing ks c c' with
  | nil => exact fun _ hu => absurd hu (Nat.not_lt_zero _)
  | cons t unread ih =>
    intro unread' hu hu' hfacing hclean
    obtain ⟨t', unread', rfl⟩ := List.exists_cons_of_length_pos (Nat.zero_lt_of_lt hu')
    rw [List.length_cons] at hu hu'
    simp only [dottedAtMost, look] at hclean ⊢
    rw [← dotNameAt_facing hfacing]
    split
    · rename_i hdot
      rw [if_pos hdot] at hclean
      unfold dotNameAt at hdot
      rw [Bool.and_eq_true, beq_iff_eq, beq_iff_eq] at hdot
      refine (rereads_takeTwo.again (by simp [hdot]) hfacing
        (grows_dottedAtMost unread _ hclean)).append (l := 0) (fun ls hls hnext => ?_)
        (Nat.zero_le _)
      exact ih unread' (by omega) (by omega) hnext hclean
    · exact ⟨rfl, rfl, ks, Nat.le_refl _, hfacing⟩

theorem rereads_arrayBrackets : Rereads 0 P arrayBrackets arrayBrackets := by
  refine ⟨.of_yields yields_arrayBrackets, fun {r r' ks c c'} _ hfacing hclean => ?_⟩
  have hpeek : (c.peek 0 == .openBracket && c.peek 1 == .closeBracket) =
      (c'.peek 0 == .openBracket && c'.peek 1 == .closeBracket) := by
    cases ks with
    | nil => rw [← hfacing.peek (Nat.zero_le _), peek_zero, hfacing.kind_nil]; rfl
    | cons k ks => rw [hfacing.peek (Nat.zero_le _), hfacing.peek (by simp)]
  simp only [arrayBrackets, look] at hclean ⊢
  rw [← hpeek]
  split
  · rename_i hbrackets
    rw [if_pos hbrackets] at hclean
    rw [Bool.and_eq_true, beq_iff_eq, beq_iff_eq] at hbrackets
    obtain ⟨hlength, hquiet, ls, hls, hnext⟩ := rereads_takeTwo.again
      (by simp [hbrackets]) hfacing hclean
    exact ⟨hlength, hquiet, ls, by omega, hnext⟩
  · exact ⟨rfl, rfl, ks, Nat.le_refl _, hfacing⟩

theorem rereads_typeReference : Rereads 0 P typeReference typeReference := by
  refine .look fun c c' hk => ?_
  rw [← hk]
  split
  · rename_i hpredefined
    have htake : Rereads 1 (At TokenKind.isPredefinedType) take take := .takeAt rfl
    exact ((((htake.mono fun d hd => by rw [At, hd, hpredefined]).into _).append
      rereads_arrayBrackets).node _).weaken (Nat.zero_le _)
  · split
    · rename_i hidentifier
      have htake : Rereads 1 (At (· == .identifier)) take take := .takeAt rfl
      exact (((((htake.mono fun d hd => by rw [At, hd, hidentifier]).append
        rereads_dotted).into _).append rereads_arrayBrackets).node _).weaken (Nat.zero_le _)
    · exact .report _ _

/-! ## Parts of expressions -/

theorem rereads_identifierName (hP : ∀ c, P c → c.kind ≠ .semicolon) :
    Rereads 1 P identifierName identifierName := (Rereads.take hP).node _

theorem rereads_argumentList (he : Rereads 0 Any e e') :
    Rereads 1 P (argumentList e) (argumentList e') := by
  have hmodifier : Rereads 0 Any (ifNext isArgumentModifier take nothing)
      (ifNext isArgumentModifier take nothing) := .optional (.takeAt rfl)
  exact ((((Rereads.expect rfl).append (.separated (hmodifier.append (he.into _)).whenever)).append
    (Rereads.expect rfl)).node _).weaken (by omega)

theorem rereads_optionalArguments (he : Rereads 0 Any e e') :
    Rereads 0 P (optionalArguments e) (optionalArguments e') :=
  .optional ((rereads_argumentList he).into _)

theorem rereads_objectCreation (he : Rereads 0 Any e e') :
    Rereads 0 P (objectCreation e) (objectCreation e') :=
  ((((Rereads.expect rfl).append (.orReport (rereads_typeReference.into _) _)).append
    (rereads_optionalArguments he)).node _).weaken (Nat.zero_le _)

theorem rereads_parenthesized (he : Rereads 0 Any e e') :
    Rereads 0 (At (· == .openParen)) (parenthesized e) (parenthesized e') :=
  ((((Rereads.takeAt rfl).append (he.into _)).append (Rereads.expect rfl)).node _).weaken
    (Nat.zero_le _)

theorem rereads_primary (he : Rereads 0 Any e e') : Rereads 0 P (primary e) (primary e') := by
  refine .look fun c c' hk => ?_
  rw [← hk]
  generalize c.kind = k
  have htake {k : TokenKind} (hs : k ≠ .semicolon) (n : NodeKind) :
      Rereads 0 (fun d => d.kind = k) (node n take) (node n take) :=
    ((Rereads.take (fun d (hd : d.kind = k) => hd ▸ hs)).node n).weaken (Nat.zero_le _)
  cases k <;> first
    | exact .report _ _
    | exact htake (by decide) _
    | exact (rereads_parenthesized he).mono fun d hd => by rw [At, hd]; rfl
    | exact rereads_objectCreation he

/-! ## Operators -/

theorem rules_suffix (he : Rereads 0 Any e e') : Rereads.Rules (suffix e) (suffix e') := by
  constructor
  case none =>
    intro c c' hk hnone
    unfold suffix at hnone ⊢
    rw [hk] at hnone
    split at hnone <;> first | rfl | cases hnone
  case some =>
    intro c c' ext hk hsome
    unfold suffix at hsome ⊢
    rw [← hk]
    split at hsome <;> rename_i hc <;> cases hsome
    · have hname : Rereads 0 Any
          (ifNext (· == .identifier) (identifierName.into .right) (report .expectedMemberName))
          (ifNext (· == .identifier) (identifierName.into .right) (report .expectedMemberName)) :=
        .ifNext (((rereads_identifierName fun d hd he => by
          simp [At, he] at hd).into _).weaken (Nat.zero_le _)) (.report _ _)
      exact ⟨_, rfl, ((Rereads.take fun d hd => by simp [hd, hc]).into _).append hname⟩
    · exact ⟨_, rfl, (rereads_argumentList he).into _⟩

theorem rereads_suffixed (he : Rereads 0 Any e e') : Rereads 0 P (suffixed e) (suffixed e') := by
  refine (rereads_primary he).read (m := 0) fun start start' ts us hl => ?_
  have hextend := Rereads.extend (P := Any) (rules_suffix he) start start' hl
  cases ts with
  | nil =>
    rw [List.length_eq_zero_iff.1 hl.symm]
    exact .nothing
  | cons t ts =>
    cases us with
    | nil => cases hl
    | cons u us => exact hextend

theorem rules_operation (precedence : Nat) (he : Rereads 0 Any e e') :
    Rereads.Rules (operation precedence e) (operation precedence e') := by
  constructor
  case none =>
    intro c c' hk hnone
    unfold operation at hnone ⊢
    rw [hk] at hnone
    split at hnone
    · cases hnone
    · rw [if_neg (by assumption)]
  case some =>
    intro c c' ext hk hsome
    unfold operation at hsome ⊢
    rw [← hk]
    split at hsome
    · rename_i hprecedence
      cases hsome
      refine ⟨_, if_pos hprecedence, ((Rereads.take fun d hd he => ?_).into _).append (he.into _)⟩
      rw [← hd, he] at hprecedence
      cases hprecedence
    · cases hsome

theorem rereads_binary (he : Rereads 0 Any e e') : Rereads 0 P (binary e) (binary e') := by
  have hlevel {e e' : Parser} (precedence : Nat) (he : Rereads 0 Any e e') :
      Rereads 0 Any (level precedence e) (level precedence e') :=
    he.extended (rules_operation precedence he)
  exact (hlevel 1 (hlevel 2 (hlevel 3 (hlevel 4 (hlevel 5 (hlevel 6 he)))))).whenever

theorem rereads_assignment {v v' : Parser} (he : Rereads 0 Any e e') (hv : Rereads 0 Any v v') :
    Rereads 0 P (assignment e v) (assignment e' v') := by
  refine (rereads_binary he).read (m := 0) fun start start' ts us hl => ?_
  have hvalue : Rereads 1 (At TokenKind.isAssignment) (take.into .operator ++ v.into .right)
      (take.into .operator ++ v'.into .right) := ((Rereads.takeAt rfl).into _).append (hv.into _)
  refine Rereads.ifNext ?_ (.emit hl)
  exact Rereads.weaken (Rereads.enlarge hvalue start start' ts us) (Nat.zero_le _)

theorem rereads_signed (he : Rereads 0 Any e e') :
    Rereads 0 (At TokenKind.isSign) (signed e) (signed e') :=
  ((((Rereads.takeAt rfl).into _).append (he.into _)).node _).weaken (Nat.zero_le _)

/-! ## Nesting -/

/-- What is read at some depth is read again where more levels may be opened. -/
theorem rereads_nesting (h : n ≤ m) :
    Rereads 0 Any (Nesting.of n).expression (Nesting.of m).expression ∧
      Rereads 0 Any (Nesting.of n).operand (Nesting.of m).operand := by
  induction n generalizing m with
  | zero =>
    refine ⟨.report _ _, ?_⟩
    rw [Nesting.of_zero_operand]
    cases m with
    | zero =>
      rw [Nesting.of_zero_operand]
      exact .ifNext (.report _ _) (rereads_suffixed (.report _ _))
    | succ m =>
      rw [Nesting.of_succ_operand]
      exact .ifNext (.report _ _) (rereads_suffixed (.report _ _))
  | succ n ih =>
    obtain ⟨m, rfl⟩ : ∃ l, m = l + 1 := ⟨m - 1, by omega⟩
    obtain ⟨hexpression, hoperand⟩ := ih (Nat.le_of_succ_le_succ h)
    have hx : Rereads 0 Any (Nesting.of (n + 1)).expression (Nesting.of (m + 1)).expression := by
      rw [Nesting.of_succ_expression, Nesting.of_succ_expression]
      exact rereads_assignment hoperand hexpression
    rw [Nesting.of_succ_operand, Nesting.of_succ_operand]
    exact ⟨hx, .ifNext (rereads_signed hoperand) (rereads_suffixed hx)⟩

theorem rereads_expression (h : n ≤ m) : Rereads 0 Any (expression n) (expression m) :=
  (rereads_nesting h).1

end Grammar

end Caret
