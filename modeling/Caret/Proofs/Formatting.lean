import Caret.Proofs.Congruence
import Caret.Proofs.Service
/-!
# Formatting changes no completion

The questions that do look at where things start compare starts with each other, so they are
answered alike in two texts of the same tokens. The caret is compared with the starts of tokens,
which is told by the token to its left, and with the end of that token. So if these are the same,
completion is the same (`complete_formatted`).
-/

namespace Caret

namespace NodeTable

variable {f g : ℕ ↪o ℕ} {t u : NodeTable} {a b : Nat}

/-! ## Comparing starts -/

namespace Matches

theorem lt_iff (hab : f a = g b) (x y : Nat) (hxy : f x = g y) : x < a ↔ y < b := by
  rw [← f.lt_iff_lt, hxy, hab, g.lt_iff_lt]

theorem lt_succ_iff (hab : f a = g b) (x y : Nat) (hxy : f x = g y) : x < a + 1 ↔ y < b + 1 := by
  rw [Nat.lt_succ_iff, Nat.lt_succ_iff, ← f.le_iff_le, hxy, hab, g.le_iff_le]

/-- An entry starts before an offset in one table if it does in the other. -/
theorem any_start_lt (h : Matches f g t u) (hab : ∀ x y, f x = g y → (x < a ↔ y < b)) (i : Ref) :
    ((t.get? i).any fun e => e.span.start < a) = (u.get? i).any fun e => e.span.start < b := by
  rcases h.get_cases i with ⟨ht, hu⟩ | ⟨d, e, ht, hu, hde⟩
  · rw [ht, hu]
    rfl
  · have hstart : f d.span.start = g e.span.start := congrArg (·.span.start) hde
    simpa [ht, hu] using hab _ _ hstart

theorem tokenBefore_eq (h : Matches f g t u) (hab : ∀ x y, f x = g y → (x < a ↔ y < b)) :
    t.tokenBefore a = u.tokenBefore b := by
  have hstarts := h.any_start_lt hab
  unfold tokenBefore
  simp only [h.tokens, hstarts]

theorem previousToken_eq (h : Matches f g t u) : t.previousToken = u.previousToken := by
  funext i
  unfold previousToken
  rcases h.get_cases i with ⟨ht, hu⟩ | ⟨d, e, ht, hu, hde⟩
  · simp only [ht, hu]
  · have htoken : d.isToken = e.isToken := congrArg (fun e => e.isToken) hde
    have hstart : f d.span.start = g e.span.start := congrArg (·.span.start) hde
    simp only [ht, hu, htoken, h.tokenBefore_eq (lt_iff hstart)]

/-! ## Local variables -/

theorem localIn_eq (h : Matches f g t u) (hab : f a = g b) (name : List Char)
    (statements : List Ref) : t.localIn name a statements = u.localIn name b statements := by
  have hstarts := h.any_start_lt (lt_iff hab)
  simp only [localIn, hstarts, h.congruent.variableType_eq]

theorem localAmong_eq (h : Matches f g t u) (hab : f a = g b) (name : List Char)
    (ancestors : List Nat) : t.localAmong name a ancestors = u.localAmong name b ancestors := by
  induction ancestors with
  | nil => rfl
  | cons i ancestors ih =>
    rw [localAmong, localAmong, h.congruent.node_eq, list?, list?, h.congruent.data,
      h.localIn_eq hab, ih, h.congruent.parameterType_eq]

/-- A name means the same local variable: the statements before it are the same. -/
theorem localType_eq (h : Matches f g t u) : t.localType = u.localType := by
  funext i name
  unfold localType
  rcases h.get_cases i with ⟨ht, hu⟩ | ⟨d, e, ht, hu, hde⟩
  · rw [ht, hu, Option.bind_none, Option.bind_none]
  · have hstart : f d.span.start = g e.span.start := congrArg (·.span.start) hde
    rw [ht, hu, Option.bind_some, Option.bind_some, h.congruent.ancestors_eq,
      h.localAmong_eq hstart]

/-! ## Expected types -/

section

variable (h : Matches f g t u) (hname : t.nameOf = u.nameOf)

include h hname

theorem targetType_eq : t.targetType = u.targetType := by
  funext declaration target
  simp only [targetType, operation?, h.congruent.node_eq, h.congruent.data, hname, h.localType_eq,
    h.congruent.memberType_eq]

theorem expectedType_eq : t.expectedType = u.expectedType := by
  funext declaration token
  simp only [expectedType, variableList?, property?, operation?, h.congruent.token_eq,
    h.congruent.node_eq, h.congruent.parent, h.congruent.data, h.congruent.resultType_eq,
    h.congruent.containingMember_eq, h.targetType_eq hname]

end

end Matches

/-! ## Names -/

section

variable {s x : List Char} {e : Entry} {i : Ref}

theorem start_le_length (h : (ofText s).get? i = some e) : e.span.start ≤ byteLength s := by
  -- the scale that goes on as before up to the end of the text cannot be told from the plain one
  let f : ℕ ↪o ℕ := RelEmbedding.refl _
  have hscan : (scan s).map (Token.moved f) =
      (scan s).map (Token.moved (shiftFrom f (byteLength s + 1) 1)) := by
    refine List.map_congr_left fun token htoken => ?_
    have hle : token.start ≤ byteLength s := by
      have hsorted := scan_sorted s
      rw [scan_eq_concat] at hsorted htoken
      rcases List.mem_append.1 htoken with h | h
      · have hbefore := (List.pairwise_append.1 hsorted).2.2 token h
        exact Nat.le_of_lt (hbefore _ (List.mem_singleton_self _))
      · rw [List.mem_singleton.1 h]
        exact Nat.le_refl _
    rw [Token.moved, Token.moved, shiftFrom_of_lt f (Nat.lt_succ_of_le hle)]
  have hget := (matches_ofText hscan).get i
  rw [h, Option.map_some, Option.map_some, Option.some.injEq] at hget
  have hstart : e.span.start = shiftFrom f (byteLength s + 1) 1 e.span.start :=
    congrArg (·.span.start) hget
  by_contra hlt
  have hshift : shiftFrom f (byteLength s + 1) 1 e.span.start = e.span.start + 1 :=
    if_neg (by omega)
  omega

/-- What is found after the end of a text is no name. -/
theorem name?_tokenBefore_next (hlimit : byteLength s < Offset.limit) :
    (ofText s).name? ((ofText s).tokenBefore (Offset.next (byteLength s))) = none := by
  have htokens := SourceFile.root_tokens s
  have hsorted := scan_sorted s
  have hlast := scan_eq_concat s
  rw [ofText_eq]
  generalize (SourceFile.ofText s).root = root at *
  rcases Nat.lt_or_ge (byteLength s + 1) Offset.limit with h | h
  · have hget : root.tokens[(scan s).dropLast.length]? = some (.endOfFile (byteLength s)) := by
      rw [htokens, hlast]
      simp
    obtain ⟨site, hsite, htoken, -⟩ := exists_leafSite hget
    have hbefore : (ofTree root).tokenBefore (byteLength s + 1) = some site.index :=
      tokenBefore_of_token (htokens ▸ hsorted) (htokens.trans hlast) (Nat.lt_succ_self _) (by simp)
        hsite htoken
    rw [Offset.next_of_lt h, hbefore, name?, data_ofTree hsite, Site.entry_of_token htoken]
    rfl
  · have hnext : Offset.next (byteLength s) = 0 := by
      have hlength : byteLength s + 1 = Offset.limit := Nat.le_antisymm hlimit h
      rw [Offset.next, hlength, Nat.mod_self]
    rw [hnext, tokenBefore_eq_none fun _ _ => Nat.zero_le _]
    rfl

theorem nameOf_of_end (hlimit : byteLength s < Offset.limit) (h : (ofText s).get? i = some e)
    (he : e.span.start = byteLength s) : (ofText s).nameOf i = none := by
  rw [nameOf, h, Option.bind_some, he]
  simp only [name?_tokenBefore_next hlimit, ite_self]

end

/-- A name expression consists of the same name. -/
theorem nameOf_eq {s x : List Char}
    (h : (scan s).map (Token.moved f) = (scan x).map (Token.moved g))
    (hs : byteLength s < Offset.limit) (hx : byteLength x < Offset.limit) :
    (ofText s).nameOf = (ofText x).nameOf := by
  have hmatches := matches_ofText h
  funext i
  rcases hmatches.get_cases i with ⟨hd, he⟩ | ⟨d, e, hd, he, hde⟩
  · rw [nameOf, nameOf, hd, he, Option.bind_none, Option.bind_none]
  have hstart : f d.span.start = g e.span.start := congrArg (·.span.start) hde
  have hend : d.span.start < byteLength s ↔ e.span.start < byteLength x :=
    Matches.lt_iff (length_moved h) _ _ hstart
  have hdle := start_le_length hd
  have hele := start_le_length he
  rcases Nat.lt_or_ge d.span.start (byteLength s) with hlt | hge
  · have hbefore : (ofText s).tokenBefore (Offset.next d.span.start) =
        (ofText x).tokenBefore (Offset.next e.span.start) := by
      rw [Offset.next_of_lt (Nat.lt_of_le_of_lt hlt hs),
        Offset.next_of_lt (Nat.lt_of_le_of_lt (hend.1 hlt) hx)]
      exact hmatches.tokenBefore_eq (Matches.lt_succ_iff hstart)
    simp only [nameOf, hd, he, Option.bind_some, hbefore, hmatches.congruent.parent, name?,
      hmatches.congruent.data]
  · rw [nameOf_of_end hs hd (by omega), nameOf_of_end hx he (by omega)]

/-! ## Places -/

/-- Two carets stand at the same place among the tokens: to their left is the same token, and it
goes up to the caret in both tables or in neither. -/
structure SamePlace (t : NodeTable) (a : Nat) (u : NodeTable) (b : Nat) : Prop where
  left : t.tokenBefore a = u.tokenBefore b
  touched : ((t.get? (t.tokenBefore a)).any fun e => a ≤ e.span.stop) =
    (u.get? (u.tokenBefore b)).any fun e => b ≤ e.span.stop

namespace Matches

section

variable (h : Matches f g t u) (hplace : SamePlace t a u b)

include h hplace

theorem beforeTouchedWord_eq :
    t.beforeTouchedWord (t.tokenBefore a) a = u.beforeTouchedWord (u.tokenBefore b) b := by
  have htouched := hplace.touched
  unfold beforeTouchedWord
  rcases h.get_cases (t.tokenBefore a) with ⟨hd, he⟩ | ⟨d, e, hd, he, hde⟩
  · rw [← hplace.left]
    simp only [hd, he]
  · have hkind : d.kind = e.kind := congrArg (·.kind) hde
    rw [← hplace.left] at htouched ⊢
    rw [hd, he, Option.any_some, Option.any_some] at htouched
    simp only [hd, he, htouched, hkind, h.previousToken_eq]

theorem allowsParameterModifier_eq (onlyFirst : Bool) :
    t.allowsParameterModifier a (t.tokenBefore a) onlyFirst =
      u.allowsParameterModifier b (u.tokenBefore b) onlyFirst := by
  simp only [allowsParameterModifier, list?, h.beforeTouchedWord_eq hplace, h.congruent.parent,
    h.congruent.token_eq, h.congruent.node_eq, h.congruent.isParameterList_eq, h.congruent.data]

theorem enclosing_eq : (Binding.ofTable t).enclosing a = (Binding.ofTable u).enclosing b := by
  have htable (t : NodeTable) : (Binding.ofTable t).table = t := rfl
  rw [Binding.enclosing, Binding.enclosing, htable, htable, hplace.left,
    h.congruent.containingType_eq, h.congruent.ofDeclaration_eq]

end

end Matches

end NodeTable

/-! ## Contexts -/

namespace Context

/-- The contexts tell recommenders the same. -/
structure Alike (c d : Context) : Prop where
  table : c.table.Congruent d.table
  left : c.left = d.left
  target : c.target = d.target
  inInstance : c.inInstance = d.inInstance
  allowsExpression : c.allowsExpression = d.allowsExpression
  allowsStatement : c.allowsStatement = d.allowsStatement
  containingType : c.containingType = d.containingType
  inferred : c.inferred = d.inferred
  modifier : ∀ onlyFirst, c.table.allowsParameterModifier c.offset c.left onlyFirst =
    d.table.allowsParameterModifier d.offset d.left onlyFirst
  enclosing : c.model.askEnclosing c.offset = d.model.askEnclosing d.offset

namespace Alike

variable {c d : Context} (h : Alike c d)

include h

theorem startsInInstance_eq : c.startsInInstance = d.startsInInstance := by
  rw [startsInInstance, startsInInstance, h.inInstance, h.allowsExpression, h.allowsStatement]

theorem initializedConstructor_eq : c.initializedConstructor = d.initializedConstructor := by
  rw [initializedConstructor, initializedConstructor, h.target, h.table.constructorOfColon_eq,
    h.table.isStatic_eq]

theorem parameterModifierAt_eq (onlyFirst : Bool) :
    c.parameterModifierAt c.offset onlyFirst = d.parameterModifierAt d.offset onlyFirst := by
  rw [parameterModifierAt, parameterModifierAt, h.modifier]

theorem inMethod_eq : c.inMethod = d.inMethod := by
  rw [inMethod, inMethod, h.left, h.table.nodeAbove_eq]

theorem inStaticMethod_eq : c.inStaticMethod = d.inStaticMethod := by
  simp only [inStaticMethod, h.left, h.table.nodeAbove_eq, h.table.node_eq, h.table.isStatic_eq]

theorem extensionReceiver_eq : c.extensionReceiver c.offset = d.extensionReceiver d.offset := by
  rw [extensionReceiver, extensionReceiver, h.parameterModifierAt_eq, h.inMethod_eq,
    h.inStaticMethod_eq]

theorem expectsEnclosingType_eq : c.expectsEnclosingType = d.expectsEnclosingType := by
  rw [expectsEnclosingType, expectsEnclosingType, h.inferred, h.enclosing]

theorem contained_eq (k : Keyword) :
    (Recommender.of k).contained c = (Recommender.of k).contained d := by
  have hparameter (k : Keyword) : (Recommender.parameterModifier k).isValid c.offset c =
      (Recommender.parameterModifier k).isValid d.offset d := by
    simp only [Recommender.parameterModifier, h.parameterModifierAt_eq, h.target,
      h.table.allowsArgumentModifier_eq]
  have hvalid : (Recommender.of k).isValid c.offset c = (Recommender.of k).isValid d.offset d := by
    cases k with
    | this =>
      simp only [Recommender.of, Recommender.this, h.startsInInstance_eq,
        h.initializedConstructor_eq, h.extensionReceiver_eq]
    | base =>
      simp only [Recommender.of, Recommender.base, h.containingType, h.startsInInstance_eq,
        h.initializedConstructor_eq, h.table.node_eq, h.table.parent]
    | ref | out | params => exact hparameter _
  have hpreferred : (Recommender.of k).isPreferred c = (Recommender.of k).isPreferred d := by
    cases k with
    | this => exact h.expectsEnclosingType_eq
    | base | ref | out | params => rfl
  rw [Recommender.contained, Recommender.contained, Recommender.evaluate, Recommender.evaluate,
    hvalid, hpreferred]

theorem findings_eq (ks : List Keyword) :
    findings c (ks.map Recommender.of) = findings d (ks.map Recommender.of) := by
  induction ks with
  | nil => rfl
  | cons k ks ih => rw [List.map_cons, findings, findings, h.contained_eq, ih]

/-- The same is suggested in both contexts. -/
theorem dispatch_eq (mode : DispatchMode) :
    Registry.default.dispatch c mode = Registry.default.dispatch d mode := by
  rw [Registry.dispatch, Registry.dispatch, Registry.dispatchInOrder, Registry.dispatchInOrder,
    Registry.recommenders_default, h.findings_eq]

end Alike

section

variable {f g : ℕ ↪o ℕ} {t u : NodeTable} {a b : Nat} (h : t.Matches f g u)
  (hplace : t.SamePlace a u b)

include h hplace

theorem alike_gathered (ids : List TypeId) :
    Alike (gathered t (Binding.ofTable t).model a ids) (gathered u (Binding.ofTable u).model b ids)
    where
  table := h.congruent
  left := hplace.left
  target := h.beforeTouchedWord_eq hplace
  inInstance := by
    simp only [gathered, h.beforeTouchedWord_eq hplace, h.congruent.inInstance_eq]
  allowsExpression := by
    simp only [gathered, h.beforeTouchedWord_eq hplace, h.congruent.allowsExpression_eq,
      h.congruent.inAttribute_eq]
  allowsStatement := by
    simp only [gathered, h.beforeTouchedWord_eq hplace, h.congruent.allowsStatement_eq]
  containingType := by
    simp only [gathered, h.beforeTouchedWord_eq hplace, h.congruent.containingType_eq]
  inferred := rfl
  modifier := h.allowsParameterModifier_eq hplace
  enclosing := by
    simp only [gathered, Model.askEnclosing, Binding.model, h.enclosing_eq hplace]

/-- The same types are expected. -/
theorem infer_eq (hname : t.nameOf = u.nameOf) :
    (ScriptedModel.ofBinding (.ofTable t)).infer t a =
      (ScriptedModel.ofBinding (.ofTable u)).infer u b := by
  simp only [ScriptedModel.infer, ScriptedModel.inferFrom, ScriptedModel.ofBinding,
    h.beforeTouchedWord_eq hplace, h.congruent.allowsExpression_eq, h.congruent.containingType_eq,
    h.expectedType_eq hname, h.congruent.resolve_eq]

end

end Context

/-! ## Completion -/

section

variable {f g : ℕ ↪o ℕ} {t u : NodeTable} {a b : Nat}

theorem complete_eq (h : t.Matches f g u) (hname : t.nameOf = u.nameOf)
    (hplace : t.SamePlace a u b) (options : Options) :
    Registry.default.complete t (Binding.ofTable t).model a options =
      Registry.default.complete u (Binding.ofTable u).model b options := by
  have hbuild (t : NodeTable) (a : Nat) : Context.build t (Binding.ofTable t).model a =
      ((ScriptedModel.ofBinding (.ofTable t)).infer t a).run >>= fun ids =>
        pure (ids.map (Context.gathered t (Binding.ofTable t).model a)) :=
    ((ScriptedModel.ofBinding (.ofTable t)).run_build t a).symm.trans (Script.run_map _ _)
  have hdispatch (ids : List TypeId) :=
    (Context.alike_gathered h hplace ids).dispatch_eq options.dispatch
  rw [Registry.complete, Registry.complete, hbuild, hbuild, Context.infer_eq h hplace hname]
  simp only [bind_assoc, pure_bind]
  congr 2
  funext _
  congr 2
  funext ids
  cases ids with
  | error e => rfl
  | ok ids => simp only [Except.map, hdispatch]

end

/-- Texts of the same tokens have the same tables but for the spans and the same problems; and at
the same place among the tokens completion is the same, whatever becomes of the request meanwhile.
Offsets are 32 bits wide, so this is about texts whose end can be named. -/
theorem complete_formatted {s x : List Char} (h : SameTokens s x) :
    (NodeTable.ofText s).Congruent (.ofText x) ∧
    (SourceFile.ofText s).diagnostics.map Diagnostic.message =
      (SourceFile.ofText x).diagnostics.map Diagnostic.message ∧
    (byteLength s < Offset.limit → byteLength x < Offset.limit →
      ∀ a b, (NodeTable.ofText s).SamePlace a (.ofText x) b → ∀ options,
        Registry.default.complete (.ofText s) (Binding.ofTable (.ofText s)).model a options =
          Registry.default.complete (.ofText x) (Binding.ofTable (.ofText x)).model b options) := by
  obtain ⟨f, g, hscan⟩ := h.exists_scales
  have hmatches := NodeTable.matches_ofText hscan
  refine ⟨hmatches.congruent, ?_, fun hs hx a b hplace options => ?_⟩
  · have hmoved := congrArg (List.map Diagnostic.message) (diagnostics_moved hscan)
    rw [List.map_map, List.map_map] at hmoved
    exact hmoved
  · exact complete_eq hmatches (NodeTable.nameOf_eq hscan hs hx) hplace options

/-- After the `=` of a local variable, with few and with many blanks and a comment. -/
theorem complete_formatted_commented :
    ∃ s x : List Char, s = "class C{void M(){C c= ;}}".toList ∧
      x = "class C /* one */ { void M() { C c =   ; } }".toList ∧
      SameTokens s x ∧ (NodeTable.ofText s).SamePlace 22 (.ofText x) 37 ∧
      (NodeTable.ofText s).Congruent (.ofText x) ∧
      ∀ options,
        Registry.default.complete (.ofText s) (Binding.ofTable (.ofText s)).model 22 options =
          Registry.default.complete (.ofText x) (Binding.ofTable (.ofText x)).model 37 options := by
  refine ⟨_, _, rfl, rfl, ?_⟩
  have htokens : SameTokens "class C{void M(){C c= ;}}".toList
      "class C /* one */ { void M() { C c =   ; } }".toList := by
    decide +kernel
  have hplace : (NodeTable.ofText "class C{void M(){C c= ;}}".toList).SamePlace 22
      (.ofText "class C /* one */ { void M() { C c =   ; } }".toList) 37 :=
    ⟨by decide +kernel, by decide +kernel⟩
  obtain ⟨hcongruent, -, hcomplete⟩ := complete_formatted htokens
  exact ⟨htokens, hplace, hcongruent, hcomplete (by decide) (by decide) 22 37 hplace⟩

end Caret
