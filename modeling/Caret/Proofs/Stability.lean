import Caret.Proofs.Answers
import Caret.Proofs.Continuation
import Caret.Proofs.Endings
import Mathlib.Data.List.Infix
/-!
# Suggestions while a text is being typed

Which keywords are suggested at the end of a text does not depend on what stands behind it, and it
stays so while one of them is being typed (`Run.ofSource_stable`). The last token before the word
decides, and its frames answer all that is asked (`Context.admits_gathered`).
-/

namespace Caret

open NodeTable

namespace NodeTable

/-- Every token of the table of a text stands on a ladder. -/
theorem exists_ladder_of_site {root : Tree} {s : Site} {x : Token}
    (hsorted : root.tokens.Pairwise fun t u => t.start < u.start) (hs : s ∈ root.sites none 0)
    (hx : s.token? = some x) : ∃ fs ls, root.Holds x fs ∧ frames ls = fs.reverse ∧
      Stands root s ls ∧ Ladder root ls := by
  have hmem : x ∈ root.tokens := by
    rw [← Tree.filterMap_token_sites none 0 root]
    exact List.mem_filterMap.2 ⟨s, hs, hx⟩
  obtain ⟨fs, hholds⟩ := Tree.exists_holds hmem
  obtain ⟨u, ls, hu, hls, hstands, hladder⟩ := hholds.exists_ladder
  obtain rfl := site_eq hsorted hs hstands.mem hx hu
  exact ⟨fs, ls, hholds, hls, hstands, hladder⟩

end NodeTable

namespace Context

variable {root : Tree} {model : Model} {offset : Nat} {ids : List TypeId}

@[simp] theorem gathered_table (t : NodeTable) :
    (gathered t model offset ids).table = t := rfl

@[simp] theorem gathered_offset (t : NodeTable) :
    (gathered t model offset ids).offset = offset := rfl

@[simp] theorem gathered_left (t : NodeTable) :
    (gathered t model offset ids).left = t.tokenBefore offset := rfl

@[simp] theorem gathered_target (t : NodeTable) :
    (gathered t model offset ids).target = t.beforeTouchedWord (t.tokenBefore offset) offset := rfl

/-! ## Places behind a token -/

section Target

variable {s : Site} {ls : List Level} {x : Token} (hsh : (ofTree root).Shallow)
  (h : Stands root s ls) (hl : Ladder root ls) (hx : s.token? = some x)
  (ht : (ofTree root).beforeTouchedWord ((ofTree root).tokenBefore offset) offset = some s.index)

include h hl hx ht in
/-- The constructor whose initializer the token opens. -/
theorem initializedConstructor_eq :
    (gathered (ofTree root) model offset ids).initializedConstructor =
      if Frames.initializes x.kind (frames ls) then top ls.tail else none := by
  have hstatic := isStatic_top hl.tail
  rw [frames_tail] at hstatic
  simp only [initializedConstructor, gathered, ht, constructorOfColon_eq h hl hx,
    Frames.initializes]
  by_cases hopens : (x.kind == .colon &&
    Frames.headIs (· == .constructorInitializer) (frames ls) &&
    Frames.headIs (· == .constructorDeclaration) (frames ls).tail) = true
  · simp only [hopens, if_true, hstatic, Bool.true_and]
    cases Frames.static (frames ls).tail <;> rfl
  · rw [Bool.not_eq_true] at hopens
    simp [hopens]

include h hl hx ht in
theorem isSome_initializedConstructor :
    (gathered (ofTree root) model offset ids).initializedConstructor.isSome =
      Frames.initializes x.kind (frames ls) := by
  rw [initializedConstructor_eq h hl hx ht]
  cases hi : Frames.initializes x.kind (frames ls) with
  | false => rfl
  | true =>
    -- the frames of a constructor are not empty
    rw [if_pos rfl, isSome_top, ← isEmpty_frames, frames_tail]
    simp only [Frames.initializes, Bool.and_eq_true] at hi
    cases hf : (frames ls).tail with
    | nil => simp [hf, Frames.headIs] at hi
    | cons => rfl

include h hl hx ht in
theorem initializes_class_eq :
    ((ofTree root).node? ((ofTree root).parent
      (gathered (ofTree root) model offset ids).initializedConstructor) ==
        some .classDeclaration) = (Frames.initializes x.kind (frames ls) &&
      Frames.headIs (· == .classDeclaration) (frames ls).tail.tail) := by
  rw [initializedConstructor_eq h hl hx ht]
  cases Frames.initializes x.kind (frames ls) with
  | false => rfl
  | true =>
    rw [if_pos rfl, parent_top hl.tail, node?_beq hl.tail.tail, frames_tail, frames_tail]
    rfl

include hsh h hl hx ht in
theorem startsInInstance_eq : (gathered (ofTree root) model offset ids).startsInInstance =
    Frames.startsInInstance x.kind (frames ls) := by
  simp only [startsInInstance, gathered, ht]
  rw [inInstance_eq hsh h hl, allowsExpression_eq h hl hx, inAttribute_eq hsh h hl,
    allowsStatement_eq h hl hx]
  rfl

include h hl hx ht in
theorem allowsParameterModifier_gathered (hroot : root.WellFormed) (onlyFirst : Bool) :
    (ofTree root).allowsParameterModifier offset ((ofTree root).tokenBefore offset) onlyFirst =
      Frames.allowsParameterModifier x.kind (frames ls) onlyFirst :=
  allowsParameterModifier_eq hroot h hl hx ht onlyFirst

include hsh h hl hx ht in
/-- Whether `this` may stand at a place, up to the method that the caret is in. -/
theorem admits_this_gathered (hroot : root.WellFormed) :
    (gathered (ofTree root) model offset ids).admits .this =
      (Frames.startsInInstance x.kind (frames ls) || Frames.initializes x.kind (frames ls) ||
        (Frames.allowsParameterModifier x.kind (frames ls) true &&
          (gathered (ofTree root) model offset ids).inMethod &&
          (gathered (ofTree root) model offset ids).inStaticMethod)) := by
  have hmodifier := allowsParameterModifier_gathered h hl hx ht hroot true
  rw [admits, startsInInstance_eq hsh h hl hx ht, isSome_initializedConstructor h hl hx ht]
  simp only [gathered_table, gathered_offset, gathered_left, hmodifier]

include hsh h hl hx ht in
/-- The frames of the target token tell which keywords may stand at a place. -/
theorem admits_gathered (hroot : root.WellFormed) {k : Keyword}
    (hmethod : k = .this → Frames.allowsParameterModifier x.kind (frames ls) true →
      (ofTree root).nodeAbove ((ofTree root).tokenBefore offset) (· == .methodDeclaration) =
        top (climbTo (· == .methodDeclaration) ls)) :
    (gathered (ofTree root) model offset ids).admits k = Frames.admits k x.kind (frames ls) := by
  have hstarts : (gathered (ofTree root) model offset ids).startsInInstance = _ :=
    startsInInstance_eq hsh h hl hx ht
  have hmodifier := allowsParameterModifier_gathered h hl hx ht hroot
  have hargument : (ofTree root).allowsArgumentModifier
      ((ofTree root).beforeTouchedWord ((ofTree root).tokenBefore offset) offset) =
        Frames.allowsArgumentModifier x.kind (frames ls) := by
    rw [ht]
    exact allowsArgumentModifier_eq h hl hsh hx
  cases k with
  | this =>
    rw [admits_this_gathered hsh h hl hx ht hroot, Frames.admits]
    cases hm : Frames.allowsParameterModifier x.kind (frames ls) true with
    | false => rfl
    | true =>
      have hleft := hmethod rfl hm
      have hin : (gathered (ofTree root) model offset ids).inMethod = _ :=
        inMethod_eq hsh hl rfl hleft
      have hstatic : (gathered (ofTree root) model offset ids).inStaticMethod = _ :=
        inStaticMethod_eq hsh hl rfl hleft
      rw [hin, hstatic]
  | base =>
    have htype : (gathered (ofTree root) model offset ids).containingType.isSome =
        Frames.containsType x.kind (frames ls) := by
      simp only [gathered, ht]
      exact containingType_isSome hsh h hl hx
    rw [admits, htype, hstarts, gathered_table, initializes_class_eq h hl hx ht]
    rfl
  | ref | out =>
    rw [admits, Frames.admits, gathered_table, gathered_offset, gathered_left, gathered_target,
      hmodifier, hargument]
  | params =>
    rw [admits, Frames.admits, gathered_table, gathered_offset, gathered_left, hmodifier]

end Target

/-! ## Places without a token before them -/

theorem nodeAbove_none (t : NodeTable) (p : NodeKind → Bool) : t.nodeAbove none p = none := by
  rw [nodeAbove, ancestor?, ancestors, walk_none]
  rfl

/-- No keyword may stand where no token decides. -/
theorem admits_eq_false {t : NodeTable}
    (ht : t.beforeTouchedWord (t.tokenBefore offset) offset = none) (k : Keyword) :
    (gathered t model offset ids).admits k = false := by
  have hmember : t.inInstance none = false := by
    rw [NodeTable.inInstance, containingMember, nodeAbove_none]
    split <;> rfl
  have hstarts : (gathered t model offset ids).startsInInstance = false := by
    simp only [startsInInstance, gathered, ht, hmember, Bool.false_and]
  have hconstructor : (gathered t model offset ids).initializedConstructor = none := by
    have hnone : t.constructorOfColon none = none := rfl
    simp only [initializedConstructor, gathered, ht, hnone]
    split <;> rfl
  have hmodifier (onlyFirst : Bool) :
      t.allowsParameterModifier offset (t.tokenBefore offset) onlyFirst = false := by
    simp only [allowsParameterModifier, ht]
    rfl
  have hargument : t.allowsArgumentModifier none = false := rfl
  have htype : (gathered t model offset ids).containingType = none := by
    simp only [gathered, ht, NodeTable.containingType, nodeAbove_none]
    split <;> rfl
  cases k <;> simp [admits, hstarts, hconstructor, hmodifier, hargument, htype, ht]

end Context

/-! ## Words at the end of a text -/

namespace Keyword

variable {w : List Char} {k : Keyword}

theorem isAlpha_of_prefix (h : w <+: k.spelling) : ∀ c ∈ w, c.isAlpha := by
  have hletters : k.spelling.all Char.isAlpha := by cases k <;> rfl
  exact fun c hc => List.all_eq_true.1 hletters c (h.subset hc)

/-- A word that is to become `this` may start a parameter. -/
theorem startsParameter_of_prefix (h : w <+: Keyword.this.spelling) (hne : w ≠ []) :
    Grammar.startsParameter (wordKind w) := by
  have hall : ∀ v ∈ Keyword.this.spelling.inits, v ≠ [] → Grammar.startsParameter (wordKind v) := by
    decide
  exact hall w ((List.mem_inits _ _).2 h) hne

end Keyword

namespace NodeTable

/-- A word at the end of which a place is decides nothing: the token before it does. -/
theorem target_of_word {root : Tree} {w : List Char} {m : Nat} {init late : List Token}
    (hsorted : root.tokens.Pairwise fun t u => t.start < u.start)
    (h : root.tokens = init ++ ⟨wordKind w, m, w⟩ :: late) (hne : w ≠ [])
    (hl : ∀ y ∈ late, m + byteLength w ≤ y.start) :
    ∃ v ∈ root.sites none 0, v.token? = some ⟨wordKind w, m, w⟩ ∧
      (ofTree root).tokenBefore (m + byteLength w) = some v.index ∧
      (ofTree root).beforeTouchedWord (some v.index) (m + byteLength w) =
        (ofTree root).tokenBefore m := by
  have hget : root.tokens[init.length]? = some ⟨wordKind w, m, w⟩ := by simp [h]
  obtain ⟨v, hv, hy, -⟩ := exists_leafSite hget
  have hpos : 0 < byteLength w := by
    cases w with
    | nil => exact absurd rfl hne
    | cons c w => exact Nat.add_pos_left c.utf8Size_pos _
  refine ⟨v, hv, hy, tokenBefore_of_token hsorted h ?_ hl hv hy, ?_⟩
  · show m < m + byteLength w
    omega
  · exact beforeTouchedWord_of_word hv hy (Nat.le_refl _) (isWord_wordKind w)

section Word

variable {s w t text : List Char} {offset : Nat} {k : Keyword} {model : Model} {ids : List TypeId}
  (hs : ∀ x ∈ (scan s).dropLast, x.stop < byteLength s) (hw : w <+: k.spelling)
  (ht : w ≠ [] → ∀ c ∈ t.head?, Piece.continuesName c = false) (htext : text = s ++ (w ++ t))
  (hoffset : offset = byteLength s + byteLength w)

include hs hw ht htext hoffset

/-- No keyword may stand at the end of a text without tokens. -/
theorem admits_of_no_tokens (hnil : (scan s).dropLast = []) :
    (Context.gathered (ofText text) model offset ids).admits k = false := by
  refine Context.admits_eq_false ?_ k
  obtain ⟨late, hlate, hscan⟩ := scan_append hs (Keyword.isAlpha_of_prefix hw) ht
  rw [← htext] at hscan
  have htokens := SourceFile.root_tokens text
  have hsorted := scan_sorted text
  rw [← htokens] at hsorted
  rw [hnil, List.nil_append, ← htokens] at hscan
  rw [hoffset]
  rw [ofText_eq]
  generalize (SourceFile.ofText text).root = root at hsorted hscan ⊢
  rcases hscan with hscan | ⟨hne, hscan⟩
  · rw [tokenBefore_eq_none (by rw [hscan]; exact hlate)]
    rfl
  · have hfirst : root.tokens = [] ++ ⟨wordKind w, byteLength s, w⟩ :: late := hscan
    obtain ⟨v, -, -, hleft, htarget⟩ := target_of_word hsorted hfirst hne hlate
    rw [hleft, htarget, tokenBefore_eq_none]
    intro y hy
    rw [hscan] at hy
    rcases List.mem_cons.1 hy with rfl | hy
    · exact Nat.le_refl _
    · have := hlate y hy
      omega

/-- The frames of the last token of a text tell which keywords may stand at its end. -/
theorem admits_of_last {init : List Token} {x : Token} {fs : List Frame}
    (hlast : (scan s).dropLast = init ++ [x])
    (hx : (SourceFile.ofText text).root.Holds x fs) (hsh : (ofText text).Shallow) :
    (Context.gathered (ofText text) model offset ids).admits k =
      Frames.admits k x.kind fs.reverse := by
  obtain ⟨late, hlate, hscan⟩ := scan_append hs (Keyword.isAlpha_of_prefix hw) ht
  rw [← htext] at hscan
  have hmem : x ∈ (scan s).dropLast := by simp [hlast]
  have hstop : x.stop < byteLength s := hs x hmem
  have hstart : x.start < x.stop :=
    scan_start_lt_stop s x (List.dropLast_subset _ hmem) (scan_dropLast_kind s x hmem)
  have htokens := SourceFile.root_tokens text
  have hsorted := scan_sorted text
  have hroot := SourceFile.root_wellFormed text
  have hfull := SourceFile.root_full text
  rw [← htokens] at hsorted
  rw [hlast, List.append_assoc, List.append_assoc, ← htokens] at hscan
  rw [hoffset]
  rw [ofText_eq] at hsh ⊢
  generalize (SourceFile.ofText text).root = root at *
  obtain ⟨u, ls, hu, hls, hstands, hladder⟩ := hx.exists_ladder
  rw [← hls]
  rcases hscan with hscan | ⟨hne, hscan⟩
  · have hleft : (ofTree root).tokenBefore (byteLength s + byteLength w) = some u.index :=
      tokenBefore_of_token hsorted hscan (by omega) hlate hstands.mem hu
    refine Context.admits_gathered hsh hstands hladder hu ?_ hroot fun _ _ => ?_
    · rw [hleft]
      exact beforeTouchedWord_of_lt hstands.mem hu (by omega)
    · rw [hleft]
      exact nodeAbove_of_stands hsh hstands hladder _
  · have hword : root.tokens = (init ++ [x]) ++ ⟨wordKind w, byteLength s, w⟩ :: late := by
      rw [hscan, List.append_assoc]
    obtain ⟨v, hv, hy, hleft, htarget⟩ := target_of_word hsorted hword hne hlate
    have hafter : ∀ y ∈ (⟨wordKind w, byteLength s, w⟩ : Token) :: late, byteLength s ≤ y.start :=
      List.forall_mem_cons.2 ⟨Nat.le_refl _, fun y hy => Nat.le_trans (by omega) (hlate y hy)⟩
    have hbefore : (ofTree root).tokenBefore (byteLength s) = some u.index :=
      tokenBefore_of_token hsorted hscan (by omega) hafter hstands.mem hu
    refine Context.admits_gathered hsh hstands hladder hu ?_ hroot fun hthis hm => ?_
    · rw [hleft, htarget, hbefore]
    · subst hthis
      rw [hleft]
      exact nodeAbove_next hroot hfull hsorted hsh hscan hx hls hladder hm
        (Keyword.startsParameter_of_prefix hw hne) hv hy

end Word

end NodeTable

/-! ## Stability -/

namespace Run

/-- Which keywords are suggested at the end of a text `s` does not depend on what stands behind it,
and a keyword stays suggested while it is being typed: at the end of `s ++ w`, where `w` is the part
of it that is typed already, it is suggested if and only if it is at the end of `s`. The tokens of
`s` must end before its end, and no walk may be cut off. -/
theorem ofSource_stable (fileName : String) (options : Options) {s t t' w : List Char} {k : Keyword}
    (hs : ∀ x ∈ scan s, x.kind ≠ .endOfFile → x.stop < byteLength s) (hw : w <+: k.spelling)
    (ht : w ≠ [] → ∀ c ∈ t.head?, Piece.continuesName c = false)
    (hsh : (NodeTable.ofText (s ++ w ++ t)).Shallow) (hsh' : (NodeTable.ofText (s ++ t')).Shallow)
    {r r' : RequestState} (hr : r.Untroubled) (hr' : r'.Untroubled) :
    ∃ run run', (ofSource fileName (s ++ w ++ t) (some (byteLength (s ++ w))) options r).1 = .ok run ∧
      (ofSource fileName (s ++ t') (some (byteLength s)) options r').1 = .ok run' ∧
      (k ∈ run.outcome.keywords ↔ k ∈ run'.outcome.keywords) := by
  obtain ⟨run, ids, hrun, hk⟩ := ofSource_answers fileName (s ++ w) t options
  obtain ⟨run', ids', hrun', hk'⟩ := ofSource_answers fileName s t' options
  refine ⟨run, run', (hrun r hr).1, (hrun' r' hr').1, ?_⟩
  rw [hk, hk']
  have hends : ∀ x ∈ (scan s).dropLast, x.stop < byteLength s := fun x hx =>
    hs x (List.dropLast_subset _ hx) (scan_dropLast_kind s x hx)
  have htext : s ++ w ++ t = s ++ (w ++ t) := List.append_assoc ..
  have hoffset : byteLength (s ++ w) = byteLength s + byteLength w := byteLength_append ..
  -- in the second text the word is empty
  have hw' : ([] : List Char) <+: k.spelling := List.nil_prefix
  have ht' : ([] : List Char) ≠ [] → ∀ c ∈ t'.head?, Piece.continuesName c = false :=
    fun h => absurd rfl h
  have htext' : s ++ t' = s ++ ([] ++ t') := by rw [List.nil_append]
  have hoffset' : byteLength s = byteLength s + byteLength [] := by simp
  rcases List.eq_nil_or_concat' (scan s).dropLast with hnil | ⟨init, x, hlast⟩
  · rw [NodeTable.admits_of_no_tokens hends hw ht htext hoffset hnil,
      NodeTable.admits_of_no_tokens hends hw' ht' htext' hoffset' hnil]
  · obtain ⟨u, hu⟩ := exists_dropLast_scan hends (Keyword.isAlpha_of_prefix hw) ht
    obtain ⟨u', hu'⟩ := exists_dropLast_scan hends (Keyword.isAlpha_of_prefix hw') ht'
    rw [← htext, hlast, List.append_assoc init] at hu
    rw [← htext', hlast, List.append_assoc init] at hu'
    obtain ⟨fs, gs, hfs, hgs, hadmits⟩ := SourceFile.admits_agree hu hu'
    rw [NodeTable.admits_of_last hends hw ht htext hoffset hlast hfs hsh,
      NodeTable.admits_of_last hends hw' ht' htext' hoffset' hlast hgs hsh', hadmits]

/-- The word `this` is begun behind the colon of a constructor. -/
theorem ofSource_stable_initializer : ∃ run run',
    (ofSource "A.cs" ("class A \x7b A(): ".toList ++ "th".toList ++ [])
      (some (byteLength ("class A \x7b A(): ".toList ++ "th".toList))) .default .quiet).1 = .ok run ∧
    (ofSource "A.cs" ("class A \x7b A(): ".toList ++ "base();".toList)
      (some (byteLength "class A \x7b A(): ".toList)) .default .quiet).1 = .ok run' ∧
    (.this ∈ run.outcome.keywords ↔ .this ∈ run'.outcome.keywords) :=
  ofSource_stable "A.cs" .default (by decide +kernel) (by decide +kernel) (by simp)
    (NodeTable.shallow_of_size_le (by decide +kernel))
    (NodeTable.shallow_of_size_le (by decide +kernel))
    RequestState.untroubled_quiet RequestState.untroubled_quiet

end Run

end Caret
