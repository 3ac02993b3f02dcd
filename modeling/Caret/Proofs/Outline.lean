import Caret.Proofs.Spacing
import Caret.Proofs.Throughout
/-!
# Words read as trees

What a parser makes of some words does not depend on the places where they stand. The outline of a
tree is what is left of it without places, and `ReadsAs p words outlines ok` says that `p` reads the
words as trees of these outlines, wherever a token of an admitted kind follows. The lemmas follow
the ways in which parsers are put together. For a parser that enlarges a tree step by step `Chains` says
how far it got, so that one step can be put behind the other (`Chains.step`).
-/

namespace Caret

/-- A tree without places. -/
inductive Outline where
  | leaf (slot : Slot) (word : Word)
  | node (slot : Slot) (kind : NodeKind) (children : List Outline)

namespace Outline

def withSlot (s : Slot) : Outline → Outline
  | leaf _ w => leaf s w
  | node _ k outlines => node s k outlines

def slot : Outline → Slot
  | leaf s _ => s
  | node s _ _ => s

def kind : Outline → Kind
  | leaf _ w => .token w.1
  | node _ k _ => .node k

@[simp] theorem slot_leaf (s : Slot) (w : Word) : (leaf s w).slot = s := rfl

@[simp] theorem slot_node (s : Slot) (k : NodeKind) (os : List Outline) :
    (node s k os).slot = s := rfl

@[simp] theorem slot_withSlot (s : Slot) (o : Outline) : (o.withSlot s).slot = s := by
  cases o <;> rfl

/-- The outlines with the last in a slot. -/
def lastInto (s : Slot) (os : List Outline) : List Outline :=
  os.dropLast ++ (os.getLast?.map (withSlot s)).toList

end Outline

namespace Tree

mutual

/-- The tree without its places. -/
def outline : Tree → Outline
  | leaf s x => .leaf s x.word
  | node s k _ ts => .node s k (outlines ts)

def outlines : List Tree → List Outline
  | [] => []
  | t :: ts => outline t :: outlines ts

end

theorem outlines_eq_map (ts : List Tree) : outlines ts = ts.map outline := by
  induction ts with
  | nil => rfl
  | cons t ts ih => rw [outlines, ih, List.map_cons]

theorem outlines_append (ts us : List Tree) : outlines (ts ++ us) = outlines ts ++ outlines us := by
  simp only [outlines_eq_map, List.map_append]

theorem outline_withSlot (s : Slot) (t : Tree) : (t.withSlot s).outline = t.outline.withSlot s := by
  cases t <;> rfl

theorem slot_outline (t : Tree) : t.outline.slot = t.slot := by
  cases t <;> rfl

theorem kind_outline (t : Tree) : t.outline.kind = t.kind := by
  cases t <;> rfl

theorem outlines_map_withSlot (s : Slot) (ts : List Tree) :
    outlines (ts.map (withSlot s)) = (outlines ts).map (Outline.withSlot s) := by
  simp only [outlines_eq_map, List.map_map, Function.comp_def, outline_withSlot]

theorem outlines_lastInto (s : Slot) (ts : List Tree) :
    outlines (lastInto s ts) = Outline.lastInto s (outlines ts) := by
  rcases List.eq_nil_or_concat ts with rfl | ⟨us, u, rfl⟩
  · rfl
  · simp [lastInto_concat, outlines_eq_map, Outline.lastInto, outline_withSlot]

end Tree

open Tree

/-- The kind of the first of some words, or of what follows them. -/
def firstKind (words : List Word) (next : TokenKind) : TokenKind :=
  (words.head?.map Prod.fst).getD next

theorem Cursor.kind_eq_kindAfter (c : Cursor) : c.kind = kindAfter c.rest .endOfFile := by
  unfold Cursor.kind Cursor.next
  cases c.rest <;> rfl

/-- Parts with commas between them, as words. -/
def commaWords : List (List Word) → List Word
  | [] => []
  | [words] => words
  | words :: words' :: more => words ++ TokenKind.comma.word :: commaWords (words' :: more)

/-- Parts with commas between them, as trees. -/
def commaOutlines : List Outline → List Outline
  | [] => []
  | [outline] => [outline]
  | outline :: outline' :: more =>
    outline :: .leaf .loose TokenKind.comma.word :: commaOutlines (outline' :: more)

section Words

variable {c : Cursor} {words words' : List Word} {w : Word} {rest : List Token}

theorem Cursor.Before.kind (h : c.Before words rest) :
    c.kind = firstKind words (kindAfter rest .endOfFile) := by
  obtain ⟨ts, rfl, hc⟩ := h
  rw [c.kind_eq_kindAfter, hc, kindAfter_append]
  cases ts <;> rfl

theorem Cursor.Before.split (h : c.Before (words ++ words') rest) : ∃ mid, c.Before words mid ∧
    ∀ d : Cursor, d.rest = mid → d.Before words' rest := by
  obtain ⟨ts, hts, hc⟩ := h
  obtain ⟨us, vs, rfl, hus, hvs⟩ := List.map_eq_append_iff.1 hts
  exact ⟨vs ++ rest, ⟨us, hus, by rw [hc, List.append_assoc]⟩, fun d hd => ⟨vs, hvs, hd⟩⟩

theorem Cursor.Before.kindAfter_rest (h : c.Before words rest) :
    kindAfter c.rest .endOfFile = firstKind words (kindAfter rest .endOfFile) :=
  c.kind_eq_kindAfter.symm.trans h.kind

theorem Cursor.Before.peek_one {w' : Word} (h : c.Before (w :: w' :: words) rest) :
    c.peek 1 = w'.1 := by
  obtain ⟨ts, hts, hc⟩ := h
  obtain ⟨x, ts, rfl, -, hts⟩ := List.map_eq_cons_iff.1 hts
  obtain ⟨y, ts, rfl, rfl, -⟩ := List.map_eq_cons_iff.1 hts
  rw [Cursor.peek, hc]
  rfl

theorem Cursor.Before.length_rest (h : c.Before words rest) :
    c.rest.length = words.length + rest.length := by
  obtain ⟨ts, rfl, hc⟩ := h
  simp [hc]

end Words

namespace Parser

/-- Wherever a token of an admitted kind follows the words, the parser reads them as trees of these
outlines and reports nothing. -/
def ReadsAs (p : Parser) (words : List Word) (outlines : List Outline) (ok : TokenKind → Prop) :
    Prop :=
  ∀ (c : Cursor) (rest : List Token), c.Before words rest → ok (kindAfter rest .endOfFile) →
    ∃ ts, Tree.outlines ts = outlines ∧ Consumes p c ts rest

variable {p q : Parser} {w : Word} {words words' : List Word} {outlines outlines' : List Outline}
  {outline : Outline} {ok ok' : TokenKind → Prop} {test : TokenKind → Bool}

/-- The words begin with a token that passes the test. -/
def StartsWith (test : TokenKind → Bool) (words : List Word) : Prop :=
  ∃ w more, words = w :: more ∧ test w.1

theorem StartsWith.mono {test' : TokenKind → Bool} (h : StartsWith test words)
    (ht : ∀ k, test k → test' k) : StartsWith test' words := by
  obtain ⟨w, more, rfl, hw⟩ := h
  exact ⟨w, more, rfl, ht _ hw⟩

theorem StartsWith.append (h : StartsWith test words) (words' : List Word) :
    StartsWith test (words ++ words') := by
  obtain ⟨w, more, rfl, hw⟩ := h
  exact ⟨w, more ++ words', rfl, hw⟩

theorem StartsWith.firstKind (h : StartsWith test words) (k : TokenKind) :
    test (firstKind words k) := by
  obtain ⟨w, more, rfl, hw⟩ := h
  exact hw

namespace ReadsAs

theorem mono (h : ReadsAs p words outlines ok) (hok : ∀ k, ok' k → ok k) :
    ReadsAs p words outlines ok' := fun c rest hc hk => h c rest hc (hok _ hk)

theorem emit {ts : List Tree} (h : Tree.outlines ts = outlines) :
    ReadsAs (Parser.emit ts) [] outlines ok := by
  rintro c rest ⟨us, hus, hc⟩ -
  obtain rfl := List.map_eq_nil_iff.1 hus
  obtain rfl : c.rest = rest := hc
  exact ⟨ts, h, .emit ts c⟩

theorem nothing : ReadsAs Parser.nothing [] [] ok := emit rfl

theorem take (w : Word) : ReadsAs Parser.take [w] [.leaf .loose w] ok := by
  rintro c rest ⟨ts, hts, hc⟩ -
  obtain ⟨x, rfl, rfl⟩ := List.map_eq_singleton_iff.1 hts
  exact ⟨_, rfl, .take hc⟩

/-- The first words are followed by the others, or by what follows these. -/
theorem append (hp : ReadsAs p words outlines ok') (hq : ReadsAs q words' outlines' ok)
    (hok : ∀ k, ok k → ok' (firstKind words' k)) :
    ReadsAs (p ++ q) (words ++ words') (outlines ++ outlines') ok := by
  intro c rest hc hk
  obtain ⟨mid, hmid, hafter⟩ := hc.split
  have hkind := (hafter ⟨mid, 0, 0, []⟩ rfl).kindAfter_rest
  obtain ⟨ts, hts, hconsumes⟩ := hp c mid hmid (hkind ▸ hok _ hk)
  obtain ⟨us, hus, hconsumes'⟩ := hq _ rest (hafter _ hconsumes.rest) hk
  exact ⟨ts ++ us, by rw [Tree.outlines_append, hts, hus], hconsumes.append hconsumes'⟩

theorem ifNext_pos (ht : ∀ k, ok k → test (firstKind words k)) (h : ReadsAs p words outlines ok) :
    ReadsAs (Parser.ifNext test p q) words outlines ok := by
  intro c rest hc hk
  obtain ⟨ts, hts, hconsumes⟩ := h c rest hc hk
  exact ⟨ts, hts, .ifNext_pos (hc.kind ▸ ht _ hk) hconsumes⟩

theorem ifNext_neg (ht : ∀ k, ok k → test (firstKind words k) = false)
    (h : ReadsAs q words outlines ok) : ReadsAs (Parser.ifNext test p q) words outlines ok := by
  intro c rest hc hk
  obtain ⟨ts, hts, hconsumes⟩ := h c rest hc hk
  exact ⟨ts, hts, .ifNext_neg (hc.kind ▸ ht _ hk) hconsumes⟩

theorem skip (ht : ∀ k, ok k → test k = false) :
    ReadsAs (Parser.ifNext test p Parser.nothing) [] [] ok := .ifNext_neg ht .nothing

theorem expect {k : TokenKind} (hk : w.1 = k) :
    ReadsAs (Parser.expect k) [w] [.leaf .loose w] ok :=
  .ifNext_pos (fun _ _ => by simp [firstKind, hk]) (.take w)

theorem into (h : ReadsAs p words outlines ok) (slot : Slot) :
    ReadsAs (p.into slot) words (Outline.lastInto slot outlines) ok := by
  intro c rest hc hk
  obtain ⟨ts, hts, hconsumes⟩ := h c rest hc hk
  exact ⟨_, by rw [Tree.outlines_lastInto, hts], hconsumes.into slot⟩

theorem into_one (h : ReadsAs p words [outline] ok) (slot : Slot) :
    ReadsAs (p.into slot) words [outline.withSlot slot] ok := into h slot

theorem close (h : ReadsAs p words outlines ok) (k : NodeKind) (start : Nat) :
    ReadsAs (Parser.close k start p) words [.node .loose k outlines] ok := by
  intro c rest hc hk
  obtain ⟨ts, hts, hconsumes⟩ := h c rest hc hk
  obtain ⟨span, hclose⟩ := hconsumes.close k start
  exact ⟨_, by rw [Tree.outlines, Tree.outlines, Tree.outline, hts], hclose⟩

theorem look {choose : Cursor → Parser}
    (h : ∀ c rest, c.Before words rest → ok (kindAfter rest .endOfFile) →
      ReadsAs (choose c) words outlines ok) : ReadsAs (Parser.look choose) words outlines ok := by
  intro c rest hc hk
  obtain ⟨ts, hts, hconsumes⟩ := h c rest hc hk c rest hc hk
  exact ⟨ts, hts, .look hconsumes⟩

/-- The kind of the first word tells how to go on. -/
theorem of_kind (hp : ∀ c : Cursor, c.kind = w.1 → p c = q c)
    (h : ReadsAs q (w :: words) outlines ok) : ReadsAs p (w :: words) outlines ok := by
  intro c rest hc hk
  obtain ⟨ts, hts, htrees, hrest, hquiet⟩ := h c rest hc hk
  have heq := hp c hc.kind
  exact ⟨ts, hts, heq ▸ htrees, heq ▸ hrest, heq ▸ hquiet⟩

/-- What is read first, and what is made of it. -/
theorem read {next : Nat → List Tree → Parser} (hp : ReadsAs p words outlines ok')
    (hnext : ∀ start ts, Tree.outlines ts = outlines → ReadsAs (next start ts) words' outlines' ok)
    (hok : ∀ k, ok k → ok' (firstKind words' k)) :
    ReadsAs (p.read next) (words ++ words') outlines' ok := by
  intro c rest hc hk
  obtain ⟨mid, hmid, hafter⟩ := hc.split
  have hkind := (hafter ⟨mid, 0, 0, []⟩ rfl).kindAfter_rest
  obtain ⟨ts, hts, hconsumes⟩ := hp c mid hmid (hkind ▸ hok _ hk)
  obtain ⟨us, hus, hconsumes'⟩ := hnext c.next.start ts hts _ rest (hafter _ hconsumes.rest) hk
  exact ⟨us, hus, hconsumes.read hconsumes'⟩

/-- A tree that is enlarged is the first part of the larger one. -/
theorem enlarge (ext : Extension) {left : List Tree} (hleft : Tree.outlines left = outlines)
    (h : ReadsAs ext.rest words outlines' ok) (start : Nat) :
    ReadsAs (Parser.enlarge ext start left) words
      [.node .loose ext.kind (outlines.map (Outline.withSlot ext.slot) ++ outlines')] ok := by
  have hemit : ReadsAs (Parser.emit (left.map (Tree.withSlot ext.slot))) []
      (outlines.map (Outline.withSlot ext.slot)) (fun _ => True) :=
    .emit (by rw [← hleft, Tree.outlines_map_withSlot])
  exact (hemit.append h fun _ _ => trivial).close ext.kind start

theorem node (h : ReadsAs p words outlines ok) (k : NodeKind) :
    ReadsAs (Parser.node k p) words [.node .loose k outlines] ok :=
  look fun c _ _ _ => h.close k c.next.start

/-- A repetition that does not begin. -/
theorem many_skip : ReadsAs (Parser.many test p) [] [] (fun k => test k = false) := by
  refine look fun c rest _ _ => ?_
  cases c.rest with
  | nil => exact nothing
  | cons x unread => exact .skip fun k hk => hk

/-- A repetition with one turn. -/
theorem many_one (h : ReadsAs p words outlines ok) (hstarts : StartsWith test words)
    (hok : ∀ k, ok k → test k = false) : ReadsAs (Parser.many test p) words outlines ok := by
  refine look fun c rest hc hk => ?_
  obtain ⟨w, more, rfl, hw⟩ := hstarts
  have hlength := hc.length_rest
  rw [List.length_cons] at hlength
  cases hrest : c.rest with
  | nil => simp only [hrest, List.length_nil] at hlength; omega
  | cons x unread =>
    have hend : ReadsAs (Parser.manyAtMost test p unread) [] [] ok := by
      cases unread with
      | nil => exact nothing
      | cons => exact .skip hok
    have hturn := h.append hend fun k hk => hk
    rw [List.append_nil, List.append_nil] at hturn
    exact .ifNext_pos (fun k _ => hw) hturn

/-- What is there is not passed over. -/
theorem orSkip (h : ReadsAs p words [outline] ok) (problem : Problem) :
    ReadsAs (p.orSkip problem) words [outline] ok := by
  intro c rest hc hk
  obtain ⟨ts, hts, hconsumes⟩ := h c rest hc hk
  have hemit := Consumes.emit ts (p c).2
  rw [hconsumes.rest] at hemit
  refine ⟨ts, hts, hconsumes.read ?_⟩
  rw [Tree.outlines_eq_map] at hts
  obtain ⟨t, rfl, -⟩ := List.map_eq_singleton_iff.1 hts
  exact hemit

end ReadsAs

/-! ## Parts with commas between them -/

section Commas

variable {okItem : TokenKind → Prop} {parts : List (List Word × Outline)}

theorem commaWords_cons_cons (x y : List Word) (more : List (List Word)) :
    commaWords (x :: y :: more) = x ++ TokenKind.comma.word :: commaWords (y :: more) := rfl

/-- There are no more parts than words. -/
theorem length_le_length_commaWords (test : TokenKind → Bool) :
    ∀ {parts : List (List Word)}, (∀ words ∈ parts, StartsWith test words) →
      parts.length ≤ (commaWords parts).length
  | [], _ => Nat.zero_le _
  | [words], h => by
    obtain ⟨w, more, rfl, -⟩ := h words (List.mem_singleton_self _)
    simp [commaWords]
  | x :: y :: more, h => by
    have ih := length_le_length_commaWords test (List.forall_mem_cons.1 h).2
    simp only [commaWords_cons_cons, List.length_append, List.length_cons] at ih ⊢
    omega

theorem ReadsAs.separatedAtMost (hcomma : okItem .comma)
    (hok : ∀ k, ok k → okItem k ∧ k ≠ .comma ∧ (parts = [] → test k = false))
    (hparts : ∀ x ∈ parts, ReadsAs p x.1 [x.2] okItem ∧ StartsWith test x.1) :
    ∀ {unread : List Token}, parts.length < unread.length →
      ReadsAs (Parser.separatedAtMost test p unread) (commaWords (parts.map Prod.fst))
        (commaOutlines (parts.map Prod.snd)) ok := by
  induction parts with
  | nil =>
    rintro (- | ⟨z, unread⟩) hu
    · exact absurd hu (Nat.lt_irrefl _)
    · exact .skip fun k hk => (hok k hk).2.2 rfl
  | cons x parts ih =>
    rintro (- | ⟨z, unread⟩) hu
    · exact absurd hu (Nat.not_lt_zero _)
    obtain ⟨⟨hx, htest⟩, hparts⟩ := List.forall_mem_cons.1 hparts
    cases parts with
    | nil =>
      have hend : ReadsAs (Parser.ifNext (· == .comma)
          (Parser.take ++ Parser.separatedAtMost test p unread) Parser.nothing) [] [] ok :=
        .skip fun k hk => by simpa using (hok k hk).2.1
      have hpart := hx.append hend fun k hk => (hok k hk).1
      rw [List.append_nil, List.append_nil] at hpart
      exact .ifNext_pos (fun k _ => htest.firstKind k) hpart
    | cons y parts =>
      have hmore := ih (fun k hk => ⟨(hok k hk).1, (hok k hk).2.1, nofun⟩) hparts
        (Nat.lt_of_succ_lt_succ hu)
      have hcomma' : ReadsAs Parser.take [TokenKind.comma.word] _ (fun _ => True) := .take _
      have hnext : ReadsAs (Parser.ifNext (· == .comma)
          (Parser.take ++ Parser.separatedAtMost test p unread) Parser.nothing) _ _ ok :=
        .ifNext_pos (fun _ _ => rfl) (hcomma'.append hmore fun _ _ => trivial)
      exact .ifNext_pos (fun k _ => (htest.append _).firstKind k)
        (hx.append hnext fun _ _ => hcomma)

/-- Parts with commas between them are read one after the other. -/
theorem ReadsAs.separated (hcomma : okItem .comma)
    (hok : ∀ k, ok k → okItem k ∧ k ≠ .comma ∧ (parts = [] → test k = false))
    (hparts : ∀ x ∈ parts, ReadsAs p x.1 [x.2] okItem ∧ StartsWith test x.1) :
    ReadsAs (Parser.separated test p) (commaWords (parts.map Prod.fst))
      (commaOutlines (parts.map Prod.snd)) ok := by
  refine .look fun c rest hc _ => .separatedAtMost hcomma hok hparts ?_
  have hstarts : ∀ words ∈ parts.map Prod.fst, StartsWith test words := by
    intro words hwords
    obtain ⟨x, hx, rfl⟩ := List.mem_map.1 hwords
    exact (hparts x hx).2
  have hle := length_le_length_commaWords test hstarts
  rw [List.length_map] at hle
  rw [List.length_cons, hc.length_rest]
  omega

end Commas

/-! ## Enlarging step by step -/

variable {rule : Cursor → Option Extension}

/-- Wherever a token of an admitted kind follows the words, the parser reads them as one tree of
this outline and goes on to enlarge it by the rule. -/
def Chains (p : Parser) (rule : Cursor → Option Extension) (words : List Word) (outline : Outline)
    (ok : TokenKind → Prop) : Prop :=
  ∀ (c : Cursor) (rest : List Token), c.Before words rest → ok (kindAfter rest .endOfFile) →
    ∃ t unread d, t.outline = outline ∧ p c = extend rule c.next.start unread [t] d ∧
      d.rest = rest ∧ d.diagnostics = c.diagnostics ∧ rest.length ≤ unread.length

namespace Chains

/-- What is enlarged is read first. -/
theorem of_read (h : ReadsAs p words [outline] ok) (hq : ∀ c t, (p c).1 = [t] →
    q c = extend rule c.next.start (p c).2.rest [t] (p c).2) : Chains q rule words outline ok := by
  intro c rest hc hk
  obtain ⟨ts, hts, hconsumes⟩ := h c rest hc hk
  rw [Tree.outlines_eq_map] at hts
  obtain ⟨t, rfl, ht⟩ := List.map_eq_singleton_iff.1 hts
  exact ⟨t, (p c).2.rest, (p c).2, ht, hq c t hconsumes.trees, hconsumes.rest, hconsumes.quiet,
    Nat.le_of_eq (congrArg List.length hconsumes.rest.symm)⟩

theorem extended (h : ReadsAs p words [outline] ok) :
    Chains (p.extended rule) rule words outline ok :=
  of_read h fun c t ht => by
    change extend rule c.next.start (p c).2.rest (p c).1 (p c).2 = _
    rw [ht]

/-- The rule tells how the tree goes on. -/
theorem step (h : Chains p rule words outline ok') (ext : Extension)
    (hrule : ∀ d : Cursor, d.kind = w.1 → rule d = some ext)
    (hext : ReadsAs ext.rest (w :: words') outlines ok) (hw : ok' w.1) :
    Chains p rule (words ++ w :: words')
      (.node .loose ext.kind (outline.withSlot ext.slot :: outlines)) ok := by
  intro c rest hc hk
  obtain ⟨mid, hmid, hafter⟩ := hc.split
  have hkind : kindAfter mid .endOfFile = w.1 := (hafter ⟨mid, 0, 0, []⟩ rfl).kindAfter_rest
  obtain ⟨t, unread, d, ht, hp, hd, hquiet, hlength⟩ := h c mid hmid (hkind ▸ hw)
  have hbefore := hafter d hd
  have hleft : Tree.outlines [t] = [outline] := by rw [Tree.outlines, Tree.outlines, ht]
  have henlarge := ReadsAs.enlarge ext hleft hext c.next.start
  obtain ⟨us, hus, hconsumes⟩ := henlarge d rest hbefore hk
  rw [Tree.outlines_eq_map] at hus
  obtain ⟨u, rfl, hu⟩ := List.map_eq_singleton_iff.1 hus
  have hlength' := hbefore.length_rest
  rw [hd, List.length_cons] at hlength'
  cases unread with
  | nil => simp only [List.length_nil] at hlength; omega
  | cons z unread =>
    rw [List.length_cons] at hlength
    refine ⟨u, unread, (Parser.enlarge ext c.next.start [t] d).2, hu, ?_, hconsumes.rest,
      hconsumes.quiet.trans hquiet, by omega⟩
    rw [hp, extend, Parser.look, hrule d hbefore.kind, ← hconsumes.trees]
    rfl

/-- The tree goes on no further. -/
theorem stop (h : Chains p rule words outline ok) (hok : ∀ k, ok' k → ok k)
    (hnone : ∀ d : Cursor, ok' d.kind → rule d = none) : ReadsAs p words [outline] ok' := by
  intro c rest hc hk
  obtain ⟨t, unread, d, ht, hp, hd, hquiet, -⟩ := h c rest hc (hok _ hk)
  have hemit : extend rule c.next.start unread [t] d = ([t], d) := by
    cases unread with
    | nil => rfl
    | cons z unread =>
      have hkind : ok' d.kind := by rwa [d.kind_eq_kindAfter, hd]
      rw [extend, Parser.look, hnone d hkind]
      rfl
  rw [hemit] at hp
  exact ⟨[t], by rw [Tree.outlines, Tree.outlines, ht], by rw [hp], by rw [hp, hd],
    by rw [hp, hquiet]⟩

end Chains

end Parser

end Caret
