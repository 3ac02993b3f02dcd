import Caret.Proofs.Agreement
import Caret.Proofs.Throughout
import Caret.Proofs.TokenBefore
/-!
# Where parameters end

A parameter goes on behind its attributes, and a list of parameters behind its opening, as long as
the next token can start what comes there (`Reads.full`). So a word that follows them stands in the
same method as they do (`NodeTable.nodeAbove_next`).
-/

namespace Caret

open Pattern Tree

/-! ## Trees without early ends -/

/-- No parameter, list of parameters or type in the tree ends too early, where a token of the kind
`next` follows the tree. -/
abbrev Full : TokenKind → Tree → Prop := Throughout NodeKind.EndsBefore

/-- So it is for the trees of a forest. -/
abbrev FullAll : TokenKind → List Tree → Prop := ThroughoutAll NodeKind.EndsBefore

/-- Parsers make no early ends. -/
theorem Reads.full {c d : Cursor} {ts : List Tree} (h : Reads c ts d) : FullAll d.kind ts := by
  induction h with
  | refl | report => exact .nil
  | take => exact .single (.leaf _ _)
  | append _ h' ih ih' =>
    rw [h'.kind_eq] at ih
    exact ih.append ih'
  | relabel _ hr ih => exact ih.relabel hr
  | close k _ _ he ih => exact .single (.node he ih)

theorem SourceFile.root_full (text : List Char) : Full .endOfFile (ofText text).root := by
  refine .node (NodeKind.endsBefore _ _ _ rfl) (ThroughoutAll.append ?_ (.single (.leaf _ _)))
  have hkind : (Grammar.declarations (Grammar.startOf text)).2.kind = .endOfFile := by
    unfold Cursor.kind Cursor.next
    rw [rest_declarations]
    rfl
  have hfull := (reads_declarations text).full
  rw [hkind] at hfull
  exact hfull

/-! ## The token behind a token -/

namespace NodeKind

/-- A list of parameters, or a node that may stand in one. -/
def isFormal (k : NodeKind) : Bool := k.isParameters || k == .attributeList || k.isPhrase

theorem isFormal_of_allows {k n : NodeKind} {s : Slot} (hk : k.isFormal)
    (h : k.pattern.allows s (.node n)) : n.isFormal := by
  have ho : k.pattern.onlyNodes isFormal := by cases k <;> first | rfl | cases hk
  exact of_allows_node ho h

end NodeKind

/-- The tokens before what the frames are around, the outermost frame first. -/
def ahead (fs : List Frame) : List Token := fs.flatMap fun f => tokensAll f.before

/-- The tokens behind what the frames are around, the nearest frame first. -/
def behind (fs : List Frame) : List Token := fs.flatMap fun f => tokensAll f.after

theorem behind_append (fs gs : List Frame) : behind (fs ++ gs) = behind fs ++ behind gs :=
  List.flatMap_append ..

theorem behind_cons (f : Frame) (fs : List Frame) :
    behind (f :: fs) = tokensAll f.after ++ behind fs := List.flatMap_cons ..

namespace Tree.Holds

variable {x y : Token} {t : Tree} {fs us vs : List Frame} {f : Frame} {next : TokenKind}

theorem tokens_eq (h : t.Holds x fs) : t.tokens = ahead fs ++ x :: behind fs.reverse := by
  induction h with
  | leaf => rfl
  | node f _ ih => simp [tokens, Frame.children, tokensAll_append, tokensAll, ih, ahead, behind]

/-- Around a token of a text stands what is around it in its frames. -/
theorem around_eq {early late : List Token} (h : t.Holds x fs)
    (hsorted : t.tokens.Pairwise fun t u => t.start < u.start)
    (ht : t.tokens = early ++ x :: late) : ahead fs = early ∧ behind fs.reverse = late := by
  have htokens := h.tokens_eq
  rw [ht, List.pairwise_append, List.pairwise_cons] at hsorted
  have hearly : x ∉ early := fun hmem =>
    Nat.lt_irrefl _ (hsorted.2.2 x hmem x (List.mem_cons_self ..))
  have hlate : x ∉ late := fun hmem => Nat.lt_irrefl _ (hsorted.2.1.1 x hmem)
  rw [ht] at htokens
  obtain ⟨hahead, -, hbehind⟩ := (List.append_cons_inj_of_notMem hearly hlate).1 htokens
  exact ⟨hahead.symm, hbehind.symm⟩

theorem inner (h : t.Holds x (us ++ f :: vs)) : f.child.Holds x vs := by
  induction us generalizing t with
  | nil => cases h with | node _ h => exact h
  | cons u us ih => cases h with | node _ h => exact ih h

theorem kind_of_nil (h : t.Holds x []) : t.kind = .token x.kind := by
  cases h
  rfl

/-- The nodes around a token do not end too early. -/
theorem endsBefore (h : t.Holds x (us ++ f :: vs)) (hf : Full next t) :
    f.kind.EndsBefore f.children (kindAfter (behind us.reverse) next) := by
  induction us generalizing t next with
  | nil => cases h with | node _ h => cases hf with | node he _ => exact he
  | cons u us ih =>
    cases h with
    | node _ h =>
      cases hf with
      | node _ hu =>
        have he := ih h (hu u.before u.child u.after rfl)
        rw [List.reverse_cons, behind_append, kindAfter_append]
        simpa [behind] using he

/-- Where no token stands behind a child, no tree does but names without a text. -/
theorem after_eq_nil (h : t.Holds x fs) (hw : t.WellFormed) (hf : f ∈ fs)
    (honly : f.kind.pattern.onlyNodes (· != .variableDeclarator)) (ha : tokensAll f.after = []) :
    f.after = [] := by
  obtain ⟨covers, inside⟩ := h.wellFormed hw f hf
  refine List.eq_nil_iff_forall_not_mem.2 fun u hu => ?_
  have hmem : u ∈ f.children := List.mem_append_right _ (List.mem_cons_of_mem _ hu)
  refine tokensAll_ne_nil hu ((inside u hmem).tokens_ne_nil fun hk => ?_) ha
  have hallows := covers.allows u hmem
  rw [hk] at hallows
  exact absurd (of_allows_node honly hallows) (by simp)

/-- Where the next token may start a parameter or the rest of one, it does. -/
theorem exists_next (h : t.Holds x fs) (hw : t.WellFormed) (hf : Full next t) {ms gs : List Frame}
    (hfs : fs.reverse = ms ++ f :: gs) (ho : f.kind.opensParameter f.child.kind)
    {late : List Token} (hb : behind fs.reverse = y :: late)
    (hy : Grammar.startsParameter y.kind) : ∃ g ∈ ms ++ [f], y ∈ tokensAll g.after := by
  have hsplit : fs = gs.reverse ++ f :: ms.reverse := by
    rw [← List.reverse_reverse fs, hfs]
    simp
  rw [hfs, List.append_cons, behind_append] at hb
  rcases List.append_eq_cons_iff.1 hb with ⟨hnil, hrest⟩ | ⟨_, hcons, -⟩
  · rw [behind_append, behind_cons, List.append_eq_nil_iff, List.append_eq_nil_iff] at hnil
    have honly : f.kind.pattern.onlyNodes (· != .variableDeclarator) := by
      generalize f.kind = k at ho
      cases k <;> first | rfl | cases ho
    have hafter : f.after = [] := h.after_eq_nil hw (by simp [hsplit]) honly hnil.2.1
    have hends := ((hsplit ▸ h).endsBefore hf f.child (by simp [Frame.children, hafter])).1 ho
    rw [List.reverse_reverse, hrest] at hends
    rw [show kindAfter (y :: late) next = y.kind from rfl, hy] at hends
    cases hends
  · have hmem : y ∈ behind (ms ++ [f]) := by
      rw [hcons]
      exact List.mem_cons_self ..
    exact List.mem_flatMap.1 hmem

/-- What a modifier of a first parameter may follow stands right in a list of parameters or in the
attributes of a parameter. -/
theorem exists_opening (h : t.Holds x fs)
    (hm : Frames.allowsParameterModifier x.kind fs.reverse true) :
    ∃ ms f gs, fs.reverse = ms ++ f :: gs ∧ (∀ g ∈ ms ++ [f], g.kind.isFormal) ∧
      f.kind.opensParameter f.child.kind := by
  have hfs : fs = fs.reverse.reverse := (List.reverse_reverse fs).symm
  rw [hfs] at h
  generalize fs.reverse = gs at h hm
  unfold Frames.allowsParameterModifier at hm
  split at hm
  · rename_i hx
    cases gs with
    | nil => cases hm
    | cons f gs =>
      simp only [Frames.isParameterList, Frames.headIs, List.head?_cons, Option.any_some,
        Bool.and_eq_true, beq_iff_eq] at hm
      rw [List.reverse_cons] at h
      refine ⟨[], f, gs, rfl, by simp [hm.1, NodeKind.isFormal, NodeKind.isParameters], ?_⟩
      rw [h.inner.kind_of_nil, hx, hm.1]
      rfl
  · cases hm
  · rcases gs with _ | ⟨g, _ | ⟨f, gs⟩⟩
    · cases hm
    · simp [Frames.headIs] at hm
    · simp only [Frames.headIs, List.head?_cons, List.tail_cons, Option.any_some,
        Bool.and_eq_true, beq_iff_eq] at hm
      obtain ⟨⟨⟨hg, hf⟩, -⟩, -⟩ := hm
      rw [List.reverse_cons, List.reverse_cons, List.append_assoc] at h
      refine ⟨[g], f, gs, rfl, by simp [hg, hf, NodeKind.isFormal, NodeKind.isParameters], ?_⟩
      rw [h.inner.kind_eq, hf, hg]
      rfl
  · cases hm

end Tree.Holds

/-! ## The method around the next token -/

/-- What the kinds of children keep, all frames in a frame have. -/
theorem kind_of_nested {p : NodeKind → Bool}
    (hp : ∀ {k n : NodeKind} {s : Slot}, p k → k.pattern.allows s (.node n) → p n) {f : Frame}
    {fs : List Frame} (hn : (f :: fs).IsChain fun f g => f.Within g) (hf : p f.kind) :
    ∀ g ∈ f :: fs, p g.kind := by
  induction fs generalizing f with
  | nil => simpa using hf
  | cons g fs ih =>
    obtain ⟨hfg, hn⟩ := List.isChain_cons_cons.1 hn
    exact List.forall_mem_cons.2 ⟨hf, ih hn (hp hf hfg)⟩

theorem climbTo_append {p : NodeKind → Bool} {ms ls : List Level}
    (h : ∀ l ∈ ms, p l.frame.kind = false) : climbTo p (ms ++ ls) = climbTo p ls :=
  List.dropWhile_append_of_pos fun l hl => by simp [h l hl]

/-- A token in a tree behind the child that a level singles out stands on a ladder with that level's
node and the same levels above. -/
theorem Ladder.aside {root v : Tree} {u : Site} {g : Frame} {ls : List Level} {y : Token}
    {fs : List Frame} {before after : List Tree} (hl : Ladder root (⟨u, g⟩ :: ls))
    (hafter : g.after = before ++ v :: after) (hv : v.Holds y fs) : ∃ s ms g', s.token? = some y ∧
      frames ms = fs.reverse ∧ g'.kind = g.kind ∧ g'.child = v ∧
      Stands root s (ms ++ ⟨u, g'⟩ :: ls) ∧ Ladder root (ms ++ ⟨u, g'⟩ :: ls) := by
  cases hl with
  | @cons u g ls slot span hu ht hl =>
    have hchildren : g.children = (g.before ++ g.child :: before) ++ v :: after := by
      simp [Frame.children, hafter]
    rw [hchildren] at ht
    let g' : Frame := ⟨g.kind, g.before ++ g.child :: before, v, after⟩
    have hstands : Stands root ⟨some u.index, u.base + Tree.sizes g'.before, v⟩ (⟨u, g'⟩ :: ls) :=
      ⟨Tree.child_mem_sites hu.mem ht, rfl, by simp [g']⟩
    obtain ⟨s, ms, hs, hms, hstands, hladder⟩ := hv.ladder hstands rfl (.cons hu ht hl)
    exact ⟨s, ms, g', hs, hms, rfl, rfl, hstands, hladder⟩

/-- Beside a node that may stand in a list of parameters there are only such nodes. -/
theorem Ladder.beside {root : Tree} {u : Site} {g : Frame} {ls : List Level} {y : Token}
    (hl : Ladder root (⟨u, g⟩ :: ls)) (hw : root.WellFormed) (hg : g.kind.isFormal)
    (hy : y ∈ tokensAll g.after) : ∃ s ms, s.token? = some y ∧ Stands root s (ms ++ ls) ∧
      Ladder root (ms ++ ls) ∧ ∀ l ∈ ms, l.frame.kind.isFormal := by
  obtain ⟨before, v, after, hafter, fs, hv⟩ := exists_holds_child hy
  obtain ⟨s, ms, g', hs, hms, hkind, rfl, hstands, hladder⟩ := hl.aside hafter hv
  have hformal : ∀ f ∈ g' :: fs, f.kind.isFormal := by
    have hnode : Ladder root (⟨u, g'⟩ :: ls) := hladder.append
    cases hnode with
    | cons hu ht _ =>
      have hholds : u.tree.Holds y (g' :: fs) := ht ▸ .node g' hv
      exact kind_of_nested NodeKind.isFormal_of_allows (hholds.nested (hw.of_mem_sites hu.mem))
        (hkind ▸ hg)
  refine ⟨s, ms ++ [⟨u, g'⟩], hs, by simpa using hstands, by simpa using hladder, fun l hl => ?_⟩
  rcases List.mem_append.1 hl with hl | hl
  · have hmem : l.frame ∈ fs := by
      rw [← List.mem_reverse, ← hms]
      exact List.mem_map_of_mem hl
    exact hformal _ (List.mem_cons_of_mem _ hmem)
  · rw [List.mem_singleton.1 hl]
    exact hformal _ (List.mem_cons_self ..)

namespace NodeTable

theorem climbTo_of_formal {ms ls : List Level} (h : ∀ l ∈ ms, l.frame.kind.isFormal) :
    climbTo (· == .methodDeclaration) (ms ++ ls) = climbTo (· == .methodDeclaration) ls := by
  refine climbTo_append fun l hl => ?_
  have hk := h l hl
  generalize l.frame.kind = k at hk
  cases k <;> first | rfl | cases hk

section Next

variable {root : Tree} {x y : Token} {v : Site} {fs : List Frame} {ls : List Level}
  {init late : List Token}

/-- A word behind a place for a modifier of a first parameter stands in the same method. -/
theorem nodeAbove_next (hw : root.WellFormed) (hfull : Full .endOfFile root)
    (hsorted : root.tokens.Pairwise fun t u => t.start < u.start) (hsh : (ofTree root).Shallow)
    (h : root.tokens = init ++ x :: y :: late) (hx : root.Holds x fs)
    (hfs : frames ls = fs.reverse) (hl : Ladder root ls)
    (hm : Frames.allowsParameterModifier x.kind (frames ls) true)
    (hy : Grammar.startsParameter y.kind) (hv : v ∈ root.sites none 0) (ht : v.token? = some y) :
    (ofTree root).nodeAbove (some v.index) (· == .methodDeclaration) =
      top (climbTo (· == .methodDeclaration) ls) := by
  have hbehind : behind fs.reverse = y :: late := (hx.around_eq hsorted h).2
  rw [hfs] at hm
  obtain ⟨ms, f, gs, hsplit, hformal, ho⟩ := hx.exists_opening hm
  obtain ⟨g, hg, hmem⟩ := hx.exists_next hw hfull hsplit ho hbehind hy
  obtain ⟨as, bs, hms⟩ := List.append_of_mem hg
  rw [hsplit, List.append_cons, hms, List.append_assoc, List.cons_append] at hfs
  obtain ⟨ls₁, ls₂, rfl, has, hrest⟩ := List.map_eq_append_iff.1 hfs
  obtain ⟨⟨u, _⟩, ls₃, rfl, rfl, -⟩ := List.map_eq_cons_iff.1 hrest
  obtain ⟨s, ms', hs, hstands, hladder, hformal'⟩ := hl.append.beside hw (hformal _ hg) hmem
  rw [site_eq hsorted hv hstands.mem ht hs, nodeAbove_of_stands hsh hstands hladder,
    climbTo_of_formal hformal', List.append_cons, climbTo_of_formal]
  intro l hl
  refine hformal l.frame ?_
  rw [hms, ← has]
  rcases List.mem_append.1 hl with hl | hl
  · exact List.mem_append_left _ (List.mem_map_of_mem hl)
  · rw [List.mem_singleton.1 hl]
    exact List.mem_append_right _ (List.mem_cons_self ..)

end Next

end NodeTable

end Caret
