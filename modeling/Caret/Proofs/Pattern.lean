import Caret.Tree.Basic
/-!
# Patterns of forests

A pattern is a regular expression over trees, each told by its slot and its kind: what the children
of a node look like from left to right. What holds of every forest of a pattern can be computed from
the pattern: which trees occur (`allows`), which slots occur at most once (`once`), that no modifier
follows the head of a declaration (`settled`), and that a tree occurs that is not of a given kind
(`beyond`).
-/

namespace Caret

/-- A regular expression over trees. -/
inductive Pattern where
  | empty
  | one (slot : Slot) (test : Kind → Bool)
  | seq (a b : Pattern)
  | alt (a b : Pattern)
  | many (a : Pattern)
  | nonempty (a : Pattern)

theorem TokenKind.mem_all (k : TokenKind) : k ∈ TokenKind.all :=
  List.mem_of_getElem? k.ofCode?_code

theorem NodeKind.mem_all (k : NodeKind) : k ∈ NodeKind.all := by cases k <;> decide

namespace Kind

/-- The kinds of tokens and of nodes. -/
def ofTrees : List Kind := TokenKind.all.map .token ++ NodeKind.all.map .node

/-- The entry is a token whose kind has a property. -/
def isToken (p : TokenKind → Bool) (k : Kind) : Bool := k.token?.any p

@[simp] theorem isToken_token (p : TokenKind → Bool) (k : TokenKind) : isToken p (.token k) = p k :=
  rfl

@[simp] theorem isNode_node (p : NodeKind → Bool) (k : NodeKind) : isNode p (.node k) = p k := rfl

theorem isToken_iff {p : TokenKind → Bool} {k : Kind} : isToken p k ↔ ∃ t, k = .token t ∧ p t := by
  cases k <;> simp [isToken, token?]

theorem isNode_iff {p : NodeKind → Bool} {k : Kind} : isNode p k ↔ ∃ n, k = .node n ∧ p n := by
  cases k <;> simp [isNode, node?]

end Kind

theorem Tree.kind_mem (t : Tree) : t.kind ∈ Kind.ofTrees := by
  cases t with
  | leaf _ t => exact List.mem_append_left _ (List.mem_map_of_mem t.kind.mem_all)
  | node _ k => exact List.mem_append_right _ (List.mem_map_of_mem k.mem_all)

namespace Pattern

def opt (a : Pattern) : Pattern := alt a empty

/-- A token in a slot. -/
def leaf (s : Slot) (p : TokenKind → Bool) : Pattern := one s (Kind.isToken p)

/-- A token of one kind that fills no slot. -/
def mark (k : TokenKind) : Pattern := leaf .loose (· == k)

/-- A node in a slot. -/
def node (s : Slot) (p : NodeKind → Bool) : Pattern := one s (Kind.isNode p)

/-- The forest is as the pattern says. -/
inductive Covers : Pattern → List Tree → Prop
  | empty : Covers empty []
  | one {s test t} : t.slot = s → test t.kind → Covers (one s test) [t]
  | seq {a b ts us} : Covers a ts → Covers b us → Covers (seq a b) (ts ++ us)
  | left {a b ts} : Covers a ts → Covers (alt a b) ts
  | right {a b ts} : Covers b ts → Covers (alt a b) ts
  | nil {a} : Covers (many a) []
  | cons {a ts us} : Covers a ts → Covers (many a) us → Covers (many a) (ts ++ us)
  | nonempty {a ts} : Covers a ts → ts ≠ [] → Covers (nonempty a) ts

variable {a b : Pattern} {ts us : List Tree}

theorem covers_empty : Covers empty ts ↔ ts = [] :=
  ⟨fun h => by cases h; rfl, fun h => h ▸ .empty⟩

theorem covers_seq : Covers (seq a b) ts ↔ ∃ us vs, ts = us ++ vs ∧ Covers a us ∧ Covers b vs :=
  ⟨fun h => by cases h with | seq ha hb => exact ⟨_, _, rfl, ha, hb⟩,
    fun ⟨_, _, h, ha, hb⟩ => h ▸ .seq ha hb⟩

theorem covers_alt : Covers (alt a b) ts ↔ Covers a ts ∨ Covers b ts :=
  ⟨fun h => by cases h with | left h => exact .inl h | right h => exact .inr h,
    fun h => h.elim .left .right⟩

theorem covers_opt : Covers (opt a) ts ↔ Covers a ts ∨ ts = [] := by
  rw [opt, covers_alt, covers_empty]

theorem covers_one {s : Slot} {test : Kind → Bool} :
    Covers (one s test) ts ↔ ∃ t, ts = [t] ∧ t.slot = s ∧ test t.kind :=
  ⟨fun h => by cases h with | one hs ht => exact ⟨_, rfl, hs, ht⟩,
    fun ⟨_, h, hs, ht⟩ => h ▸ .one hs ht⟩

theorem covers_leaf {s : Slot} {p : TokenKind → Bool} :
    Covers (leaf s p) ts ↔ ∃ t, ts = [.leaf s t] ∧ p t.kind := by
  rw [leaf, covers_one]
  constructor
  · rintro ⟨u, rfl, rfl, hk⟩
    cases u with
    | leaf s t => exact ⟨t, rfl, hk⟩
    | node => simp [Tree.kind, Kind.isToken, Kind.token?] at hk
  · rintro ⟨t, rfl, hk⟩
    exact ⟨_, rfl, rfl, hk⟩

theorem covers_node {s : Slot} {p : NodeKind → Bool} :
    Covers (node s p) ts ↔ ∃ k span children, ts = [.node s k span children] ∧ p k := by
  rw [node, covers_one]
  constructor
  · rintro ⟨u, rfl, rfl, hk⟩
    cases u with
    | leaf => simp [Tree.kind, Kind.isNode, Kind.node?] at hk
    | node s k span children => exact ⟨k, span, children, rfl, hk⟩
  · rintro ⟨k, span, children, rfl, hk⟩
    exact ⟨_, rfl, rfl, hk⟩

theorem Covers.leafMono {s : Slot} {p q : TokenKind → Bool} (h : Covers (leaf s p) ts)
    (hpq : ∀ k, p k → q k) : Covers (leaf s q) ts := by
  obtain ⟨t, rfl, hk⟩ := covers_leaf.1 h
  exact covers_leaf.2 ⟨t, rfl, hpq _ hk⟩

theorem Covers.nodeMono {s : Slot} {p q : NodeKind → Bool} (h : Covers (node s p) ts)
    (hpq : ∀ k, p k → q k) : Covers (node s q) ts := by
  obtain ⟨k, span, children, rfl, hk⟩ := covers_node.1 h
  exact covers_node.2 ⟨k, span, children, rfl, hpq _ hk⟩

/-- A node of one of several kinds. -/
theorem Covers.ofKind {s : Slot} {k : NodeKind} {p : NodeKind → Bool}
    (h : Covers (node s (· == k)) ts) (hk : p k) : Covers (node s p) ts :=
  h.nodeMono fun l hl => by rw [eq_of_beq hl]; exact hk

theorem Covers.manyAppend (h : Covers (many a) ts) (h' : Covers (many a) us) :
    Covers (many a) (ts ++ us) := by
  generalize hs : many a = s at h
  induction h with
  | nil => cases hs; exact h'
  | cons ha _ _ ih =>
    cases hs
    rw [List.append_assoc]
    exact .cons ha (ih rfl)
  | _ => cases hs

theorem Covers.some (h : Covers a ts) : Covers (opt a) ts := .left h

theorem Covers.none : Covers (opt a) [] := .right .empty

theorem Covers.single (h : Covers a ts) : Covers (many a) ts := by
  simpa using Covers.cons h .nil

theorem Covers.length_le_one {s : Slot} {test : Kind → Bool} (h : Covers (opt (.one s test)) ts) :
    ts.length ≤ 1 := by
  rcases covers_opt.1 h with h | rfl
  · obtain ⟨t, rfl, -⟩ := covers_one.1 h
    exact Nat.le_refl 1
  · exact Nat.zero_le 1

/-! ## Which trees occur -/

/-- A tree of the given slot and kind may occur. -/
def allows : Pattern → Slot → Kind → Bool
  | empty, _, _ => false
  | one s test, s', k => s' == s && test k
  | seq a b, s, k | alt a b, s, k => a.allows s k || b.allows s k
  | many a, s, k | nonempty a, s, k => a.allows s k

theorem Covers.allows (h : Covers a ts) : ∀ t ∈ ts, a.allows t.slot t.kind := by
  induction h with
  | empty | nil => simp
  | one hs ht => simp [Pattern.allows, hs, ht]
  | seq _ _ iha ihb =>
    intro t ht
    rcases List.mem_append.1 ht with ht | ht
    · simp [Pattern.allows, iha t ht]
    · simp [Pattern.allows, ihb t ht]
  | left _ ih => intro t ht; simp [Pattern.allows, ih t ht]
  | right _ ih => intro t ht; simp [Pattern.allows, ih t ht]
  | cons _ _ iha ihm =>
    intro t ht
    rcases List.mem_append.1 ht with ht | ht
    · simpa [Pattern.allows] using iha t ht
    · exact ihm t ht
  | nonempty _ _ ih => intro t ht; simpa [Pattern.allows] using ih t ht

/-- Only nodes whose kinds have the property occur, and tokens. -/
def onlyNodes (p : NodeKind → Bool) : Pattern → Bool
  | empty => true
  | one _ test => NodeKind.all.all fun k => !test (.node k) || p k
  | seq a b | alt a b => a.onlyNodes p && b.onlyNodes p
  | many a | nonempty a => a.onlyNodes p

theorem of_allows_node {p : NodeKind → Bool} {s : Slot} {k : NodeKind} (ho : a.onlyNodes p)
    (h : a.allows s (.node k)) : p k := by
  induction a with
  | empty => cases h
  | one s' test =>
    have hk := List.all_eq_true.1 ho k k.mem_all
    simp only [allows, Bool.and_eq_true] at h
    simpa [h.2] using hk
  | seq a b iha ihb | alt a b iha ihb =>
    simp only [onlyNodes, allows, Bool.and_eq_true, Bool.or_eq_true] at ho h
    exact h.elim (iha ho.1) (ihb ho.2)
  | many a ih | nonempty a ih => exact ih ho h

/-- What occurs in the slot has the property. -/
def fills (s : Slot) (p : Kind → Bool) : Pattern → Bool
  | empty => true
  | one s' test => s' != s || Kind.ofTrees.all fun k => !test k || p k
  | seq a b | alt a b => a.fills s p && b.fills s p
  | many a | nonempty a => a.fills s p

theorem of_allows_fills {s : Slot} {p : Kind → Bool} {k : Kind} (hf : a.fills s p)
    (hk : k ∈ Kind.ofTrees) (h : a.allows s k) : p k := by
  induction a with
  | empty => cases h
  | one s' test =>
    simp only [fills, allows, Bool.and_eq_true, Bool.or_eq_true, bne_iff_ne, beq_iff_eq] at hf h
    have hall := List.all_eq_true.1 (hf.resolve_left (· h.1.symm)) k hk
    simpa [h.2] using hall
  | seq a b iha ihb | alt a b iha ihb =>
    simp only [fills, allows, Bool.and_eq_true, Bool.or_eq_true] at hf h
    exact h.elim (iha hf.1) (ihb hf.2)
  | many a ih | nonempty a ih => exact ih hf h

/-- No tree in the given slots occurs. -/
def lacks : Pattern → (Slot → Bool) → Bool
  | empty, _ => true
  | one s _, p => !p s
  | seq a b, p | alt a b, p => a.lacks p && b.lacks p
  | many a, p | nonempty a, p => a.lacks p

theorem Covers.lacks {p : Slot → Bool} (h : Covers a ts) (hl : a.lacks p) :
    ∀ t ∈ ts, p t.slot = false := by
  induction h with
  | empty | nil => simp
  | one hs _ => simpa [hs, Pattern.lacks] using hl
  | seq _ _ iha ihb =>
    simp only [Pattern.lacks, Bool.and_eq_true] at hl
    intro t ht
    exact (List.mem_append.1 ht).elim (iha hl.1 t) (ihb hl.2 t)
  | left _ ih => simp only [Pattern.lacks, Bool.and_eq_true] at hl; exact ih hl.1
  | right _ ih => simp only [Pattern.lacks, Bool.and_eq_true] at hl; exact ih hl.2
  | cons _ _ iha ihm =>
    intro t ht
    exact (List.mem_append.1 ht).elim (iha hl t) (ihm hl t)
  | nonempty _ _ ih => exact ih hl

/-! ## Slots that hold at most one tree -/

/-- At most one tree stands in the slot. -/
def once : Pattern → Slot → Bool
  | empty, _ | one _ _, _ => true
  | seq a b, s => (a.once s && b.lacks (· == s)) || (a.lacks (· == s) && b.once s)
  | alt a b, s => a.once s && b.once s
  | many a, s => a.lacks (· == s)
  | nonempty a, s => a.once s

/-- The trees in a slot. -/
def inSlot (ts : List Tree) (s : Slot) : List Tree := ts.filter (·.slot == s)

theorem inSlot_append (ts us : List Tree) (s : Slot) :
    inSlot (ts ++ us) s = inSlot ts s ++ inSlot us s := List.filter_append ..

theorem Covers.inSlot_eq_nil {s : Slot} (h : Covers a ts) (hl : a.lacks (· == s)) :
    inSlot ts s = [] := by
  rw [inSlot, List.filter_eq_nil_iff]
  intro t ht
  simpa using h.lacks hl t ht

theorem Covers.once {s : Slot} (h : Covers a ts) (ho : a.once s) : (inSlot ts s).length ≤ 1 := by
  induction h with
  | empty | nil => simp [inSlot]
  | one _ _ => exact List.length_filter_le _ _
  | seq ha hb iha ihb =>
    simp only [Pattern.once, Bool.or_eq_true, Bool.and_eq_true] at ho
    rw [inSlot_append, List.length_append]
    rcases ho with ⟨ho, hl⟩ | ⟨hl, ho⟩
    · simpa [hb.inSlot_eq_nil hl] using iha ho
    · simpa [ha.inSlot_eq_nil hl] using ihb ho
  | left _ ih => simp only [Pattern.once, Bool.and_eq_true] at ho; exact ih ho.1
  | right _ ih => simp only [Pattern.once, Bool.and_eq_true] at ho; exact ih ho.2
  | cons ha hm _ ihm =>
    simpa [inSlot_append, ha.inSlot_eq_nil ho] using ihm ho
  | nonempty _ _ ih => exact ih ho

/-! ## Modifiers come first -/

/-- The slots in the head of a declaration. -/
def inHead (s : Slot) : Bool := s == .attribute || s == .modifier

/-- Only attributes and modifiers occur. -/
def onlyHead (a : Pattern) : Bool := a.lacks (!inHead ·)

/-- Behind a tree that is no attribute and no modifier there is no modifier. -/
def settled : Pattern → Bool
  | empty | one _ _ => true
  | seq a b => a.settled && b.settled && (a.onlyHead || b.lacks (· == .modifier))
  | alt a b => a.settled && b.settled
  | many a => a.onlyHead || a.lacks (· == .modifier)
  | nonempty a => a.settled

theorem Covers.head {before after : List Tree} {t : Tree} (h : Covers a (before ++ t :: after))
    (ho : a.onlyHead) : inHead t.slot := by
  simpa using h.lacks ho t (by simp)

theorem Covers.settled (h : Covers a ts) (hs : a.settled) :
    ∀ {before after : List Tree} {t : Tree}, ts = before ++ t :: after → inHead t.slot = false →
      ∀ u ∈ after, u.slot ≠ .modifier := by
  induction h with
  | empty | nil => intro _ _ _ h; simp at h
  | one _ _ =>
    intro before after t h _
    cases before with
    | nil => obtain ⟨-, rfl⟩ := List.cons.inj h; simp
    | cons => simp at h
  | @seq a b us vs ha hb iha ihb =>
    simp only [Pattern.settled, Bool.and_eq_true, Bool.or_eq_true] at hs
    obtain ⟨⟨hsa, hsb⟩, hab⟩ := hs
    intro before after t h ht
    rcases List.append_eq_append_iff.1 h with ⟨ws, rfl, rfl⟩ | ⟨ws, rfl, h'⟩
    · exact ihb hsb rfl ht
    · cases ws with
      | nil =>
        exact @ihb hsb [] after t (by simpa using h'.symm) ht
      | cons w ws =>
        obtain ⟨rfl, rfl⟩ := List.cons.inj h'
        intro u hu
        rcases hab with hab | hab
        · rw [ha.head hab] at ht; cases ht
        · rcases List.mem_append.1 hu with hu | hu
          · exact iha hsa rfl ht u hu
          · simpa using hb.lacks hab u hu
  | left _ ih => simp only [Pattern.settled, Bool.and_eq_true] at hs; exact ih hs.1
  | right _ ih => simp only [Pattern.settled, Bool.and_eq_true] at hs; exact ih hs.2
  | cons ha hm _ _ =>
    intro before after t h ht u hu
    have hall := Covers.cons ha hm
    rw [h] at hall
    simp only [Pattern.settled, Bool.or_eq_true] at hs
    rcases hs with hs | hs
    · rw [hall.head hs] at ht; cases ht
    · simpa using hall.lacks hs u (by simp [hu])
  | nonempty _ _ ih => exact ih hs

/-! ## A tree of another kind -/

/-- No tree of the kind occurs. -/
def excludes : Pattern → Kind → Bool
  | empty, _ => true
  | one _ test, k => !test k
  | seq a b, k | alt a b, k => a.excludes k && b.excludes k
  | many a, k | nonempty a, k => a.excludes k

theorem Covers.excludes {k : Kind} (h : Covers a ts) (he : a.excludes k) : ∀ t ∈ ts, t.kind ≠ k := by
  induction h with
  | empty | nil => simp
  | one _ ht => rintro _ hm rfl; simp_all [Pattern.excludes]
  | seq _ _ iha ihb =>
    simp only [Pattern.excludes, Bool.and_eq_true] at he
    intro t ht
    exact (List.mem_append.1 ht).elim (iha he.1 t) (ihb he.2 t)
  | left _ ih => simp only [Pattern.excludes, Bool.and_eq_true] at he; exact ih he.1
  | right _ ih => simp only [Pattern.excludes, Bool.and_eq_true] at he; exact ih he.2
  | cons _ _ iha ihm =>
    intro t ht
    exact (List.mem_append.1 ht).elim (iha he t) (ihm he t)
  | nonempty _ _ ih => exact ih he

theorem allows_eq_false {k : Kind} (he : a.excludes k) (s : Slot) : a.allows s k = false := by
  induction a with
  | empty => rfl
  | one s' test => simp_all [Pattern.excludes, Pattern.allows]
  | seq a b iha ihb | alt a b iha ihb =>
    simp only [Pattern.excludes, Bool.and_eq_true] at he
    rw [Pattern.allows, iha he.1, ihb he.2]
    rfl
  | many a ih | nonempty a ih => exact ih he

/-- A tree of the kind comes last, if one occurs. -/
def finishes : Pattern → Kind → Bool
  | empty, _ | one _ _, _ => true
  | seq a b, k => a.excludes k && b.finishes k
  | alt a b, k => a.finishes k && b.finishes k
  | many a, k => a.excludes k
  | nonempty a, k => a.finishes k

theorem Covers.finishes {k : Kind} (h : Covers a ts) (hf : a.finishes k) {before after : List Tree}
    {t : Tree} (ht : ts = before ++ t :: after) (hk : t.kind = k) : after = [] := by
  induction h generalizing before with
  | empty | nil => simp at ht
  | one _ _ =>
    have hlength := congrArg List.length ht
    simp only [List.length_append, List.length_cons, List.length_nil] at hlength
    exact List.eq_nil_of_length_eq_zero (by omega)
  | seq ha _ _ ihb =>
    simp only [Pattern.finishes, Bool.and_eq_true] at hf
    rcases List.append_eq_append_iff.1 ht with ⟨cs, rfl, hb⟩ | ⟨cs, rfl, hb⟩
    · exact ihb hf.2 hb
    · cases cs with
      | nil => exact ihb hf.2 (show _ = [] ++ t :: after from hb.symm)
      | cons u cs =>
        obtain ⟨rfl, -⟩ := List.cons.inj hb
        exact absurd hk (ha.excludes hf.1 t (by simp))
  | left _ ih => simp only [Pattern.finishes, Bool.and_eq_true] at hf; exact ih hf.1 ht
  | right _ ih => simp only [Pattern.finishes, Bool.and_eq_true] at hf; exact ih hf.2 ht
  | cons ha hm _ _ =>
    have hall := (Covers.cons ha hm).excludes (k := k) hf
    exact absurd hk (hall t (by simp [ht]))
  | nonempty _ _ ih => exact ih hf ht

/-- Some tree occurs that is not of the kind. -/
def beyond : Pattern → Kind → Bool
  | empty, _ | many _, _ => false
  | one _ test, k => !test k
  | seq a b, k => a.beyond k || b.beyond k
  | alt a b, k => a.beyond k && b.beyond k
  | nonempty a, k => a.excludes k

theorem Covers.beyond {k : Kind} (h : Covers a ts) (hb : a.beyond k) : ∃ t ∈ ts, t.kind ≠ k := by
  induction h with
  | empty | nil | cons => simp [Pattern.beyond] at hb
  | @one _ _ t _ ht => exact ⟨t, by simp, by rintro rfl; simp_all [Pattern.beyond]⟩
  | seq _ _ iha ihb =>
    simp only [Pattern.beyond, Bool.or_eq_true] at hb
    rcases hb with hb | hb
    · obtain ⟨t, ht, hk⟩ := iha hb; exact ⟨t, by simp [ht], hk⟩
    · obtain ⟨t, ht, hk⟩ := ihb hb; exact ⟨t, by simp [ht], hk⟩
  | left _ ih => simp only [Pattern.beyond, Bool.and_eq_true] at hb; exact ih hb.1
  | right _ ih => simp only [Pattern.beyond, Bool.and_eq_true] at hb; exact ih hb.2
  | nonempty h hne _ =>
    obtain ⟨t, ht⟩ := List.exists_mem_of_ne_nil _ hne
    exact ⟨t, ht, h.excludes hb t ht⟩

end Pattern

end Caret
