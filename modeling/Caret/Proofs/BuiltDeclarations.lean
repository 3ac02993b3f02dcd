import Caret.Builder.Declaration
import Caret.Proofs.BuiltExpressions
import Caret.Proofs.DeclarationPatterns
/-!
# Builders of declarations

One lemma for each builder, in the order of their definitions. What is read before it is known what
is declared, the head of a declaration and sometimes a type, is passed on to the builder of the rest
(`HoldsHead`), and the node that this builder closes reaches back to where the head began.

Accessors are the one place where the tests differ: the builder goes on up to the closing brace and
stops where an accessor reads nothing, the parser stops where no accessor may start.
-/

namespace Caret

/-- Lists that are left out where they are empty, of the children in a slot. -/
def GathersSome (s : Slot) (cs : List Child) (refs : Option (List Ref)) : Prop :=
  ∃ ns, refs = Builder.someOf (ns.map some) ∧ Fills cs (s.only ns)

/-- The children are the head of a declaration and its type, if it has one. -/
def HoldsHead (cs : List Child) (head : Builder.Head) (type : Ref) : Prop :=
  ∃ as ms, head = ⟨Builder.someOf (as.map some), Builder.someOf (ms.map some)⟩ ∧
    Fills cs fun s => Slot.only .attribute as s ++ Slot.only .modifier ms s ++
      Slot.only .type type.toList s

theorem Gathers.some {s : Slot} {cs : List Child} {refs : List Ref} (h : Gathers s cs refs) :
    GathersSome s cs (Builder.someOf refs) := by
  obtain ⟨ns, rfl, hns⟩ := h
  exact ⟨ns, rfl, hns⟩

theorem HoldsHead.append {cs ds : List Child} {head : Builder.Head} {type : Ref}
    (h : HoldsHead cs head none) (ht : Into .type ds type) : HoldsHead (cs ++ ds) head type := by
  obtain ⟨as, ms, rfl, hcs⟩ := h
  refine ⟨as, ms, rfl, fun s hs => ?_⟩
  rw [Child.numbers_append, hcs s hs, ht s hs]
  simp [Slot.only]

namespace Tree

/-- Where a tree stands in a slot, that slot has a number. -/
theorem numbers_ne_nil (base : Nat) (t : Tree) (ts : List Tree) :
    Child.numbers (placed base (t :: ts)) t.slot ≠ [] := by
  simp [placed, Child.numbers]

/-- A head has no trees if it lists none. -/
theorem isEmpty_head {base : Nat} {ts : List Tree} {head : Builder.Head}
    (hts : Pattern.head.Covers ts) (h : HoldsHead (placed base ts) head none) :
    head.isEmpty = ts.isEmpty := by
  obtain ⟨as, ms, rfl, hslots⟩ := h
  cases ts with
  | nil =>
    have has : as = [] := by simpa [placed, Child.numbers, Slot.only] using
      (hslots .attribute (by decide)).symm
    have hms : ms = [] := by simpa [placed, Child.numbers, Slot.only] using
      (hslots .modifier (by decide)).symm
    rw [has, hms]
    rfl
  | cons t ts =>
    have hslot := hts.lacks (p := (!Pattern.inHead ·)) rfl t (by simp)
    have hne := numbers_ne_nil base t ts
    simp only [Bool.not_eq_false', Pattern.inHead, Bool.or_eq_true, beq_iff_eq] at hslot
    rcases hslot with hs | hs
    · rw [hs, hslots _ (by decide)] at hne
      cases as with
      | nil => simp [Slot.only] at hne
      | cons => rfl
    · rw [hs, hslots _ (by decide)] at hne
      cases ms with
      | nil => simp [Slot.only] at hne
      | cons => cases as <;> rfl

end Tree

theorem Parser.into_into (p : Parser) (s s' : Slot) : (p.into s).into s' = p.into s' := by
  funext c
  refine Prod.ext ?_ rfl
  show Tree.lastInto s' (Tree.lastInto s (p c).1) = Tree.lastInto s' (p c).1
  rcases List.eq_nil_or_concat (p c).1 with h | ⟨us, u, h⟩
  · rw [h]; rfl
  · rw [h, List.concat_eq_append, Tree.lastInto_concat, Tree.lastInto_concat, Tree.lastInto_concat]
    cases u <;> rfl

namespace Builder

open Caret.Parser (At Any Within)

variable {P : Cursor → Prop} {cs ds : List Child} {r : Ref} {head : Head} {type : Ref}

theorem builds_outer : BuildsExpression Grammar.outerExpression outerExpression :=
  builds_expression _

/-! ## Attributes and modifiers -/

theorem builds_singleAttribute :
    Builds P Grammar.singleAttribute singleAttribute (One (.node .attribute)) := by
  unfold Grammar.singleAttribute singleAttribute Grammar.qualifiedName
  rw [Parser.into_into]
  refine .node <| (builds_qualifiedName.into (by decide)).append fun cs name hcs => ?_
  refine (builds_optionalArguments builds_outer).map fun ds arguments hds => ?_
  have hslots := hcs.append hds
  simp [Data.ofChildren, NodeKind.shape?, hslots.inSlot, Slot.only]

theorem builds_attributeList :
    Builds P Grammar.attributeList attributeList (One (.node .attributeList)) := by
  unfold Grammar.attributeList attributeList
  rw [Parser.append_assoc]
  refine .node <| (Builds.expect (by decide)).append fun cs _ hopening => ?_
  refine (Builds.separated ((builds_singleAttribute.weaken fun _ _ h => ⟨_, h⟩).listed
    (by decide))).append fun ds _ hitems => ?_
  refine (Builds.expect (by decide)).map fun es _ hclosing => ?_
  exact list_ofChildren (.idle_append hopening.idle (hitems.append_idle hclosing.idle)) rfl

theorem builds_attributeLists :
    Builds P Grammar.attributeLists attributeLists (GathersSome .attribute) := by
  refine (Builds.manyAt Grammar.yields_attributeList.into_one ?_).map fun _ _ h => h.some
  exact (builds_attributeList.weaken fun _ _ h => ⟨_, h⟩).listed (by decide)

/-- The modifiers before a declaration or a parameter. -/
theorem builds_modifiers {test : TokenKind → Bool} (he : test .endOfFile = false) :
    Builds P (.many test (Parser.take.into .modifier)) (modifiers test) (GathersSome .modifier) := by
  refine (Builds.manyAt (Parser.Yields.takeAt he).into_one ?_).map fun _ _ h => h.some
  exact ((Builds.takeAt he).weaken fun _ _ ⟨_, _, h⟩ => ⟨_, h⟩).listed (by decide)

theorem builds_declarationHead :
    Builds P Grammar.declarationHead declarationHead fun cs head => HoldsHead cs head none := by
  refine builds_attributeLists.append fun cs _ ⟨as, hattributes, hcs⟩ => ?_
  refine (builds_modifiers rfl).map fun ds _ ⟨ms, hmodifiers, hds⟩ => ?_
  refine ⟨as, ms, by rw [hattributes, hmodifiers], fun s hs => ?_⟩
  rw [hcs.append hds s hs]
  simp [Slot.only]

/-! ## Parameters -/

/-- The name is looked for behind a type only, which the parser does in one step. -/
theorem builds_parameterName {α : Type} {f : Ref → Ref → Builder α} {q : Parser}
    {R : List Child → α → Prop}
    (hf : ∀ cs type name, (Fills cs fun s => Slot.only .type type.toList s ++
      Slot.only .name name.toList s) → Builds Any q (f type name) fun ds x => R (cs ++ ds) x) :
    Builds P (Grammar.parameterName ++ q)
      (ifNext Grammar.startsType typeReference (missing .expectedParameterType) >>= fun type =>
        ifFound type (expect .identifier) >>= fun name => f type name) R := by
  have hname : Builds P Grammar.parameterName
      (ifNext Grammar.startsType typeReference (missing .expectedParameterType) >>= fun type =>
        ifFound type (expect .identifier) >>= fun name => pure (type, name))
      fun cs parts => Fills cs fun s => Slot.only .type parts.1.toList s ++
        Slot.only .name parts.2.toList s := by
    intro a c _
    refine .ifNext_bind (fun ht => ?_) fun _ => ?_
    · have htype : Builds (At Grammar.startsType) (Grammar.typeReference.into .type) typeReference
          fun cs r => Into .type cs r ∧ r.isSome := fun a c hc => by
        obtain ⟨i, -, hi⟩ := (builds_typeReference_at a c hc).2
        obtain ⟨hstate, hr⟩ := builds_typeReference_at.into_one (s := .type) (by decide) a c hc
        exact ⟨hstate, hr, by rw [hi]; rfl⟩
      refine htype.append (fun cs type ⟨hcs, hsome⟩ => ?_) a c ht
      rw [ifFound, if_pos hsome]
      refine ((Builds.expect (by decide)).into_opt (by decide)).map fun ds name hds => ?_
      exact hcs.append hds
    · have hmissing : Builds Any (.report .expectedParameterType)
          (report .expectedParameterType >>= fun _ => pure ((none : Ref), (none : Ref)))
          fun cs parts => Fills cs fun s => Slot.only .type parts.1.toList s ++
            Slot.only .name parts.2.toList s :=
        (Builds.report _).map fun cs _ h => by
          rw [h]
          exact (Into.nil .type).append (Into.nil .name)
      exact hmissing a c trivial
  exact hname.append fun cs parts hcs => hf cs parts.1 parts.2 hcs

theorem builds_initializer :
    Builds P (.ifNext (· == .equals) (.take ++ Grammar.outerExpression.into .initializer) .nothing)
      (ifNext (· == .equals) (token >>= fun _ => outerExpression) (pure none))
      (Into .initializer) :=
  Builds.optional <| (Builds.takeKind (by decide)).append fun _ _ hequals =>
    (builds_outer.into (by decide)).weaken fun _ _ h => .idle_append hequals.idle h

theorem builds_parameter : Builds P Grammar.parameter parameter (One (.node .parameter)) := by
  unfold Grammar.parameter parameter
  rw [Parser.append_assoc, Parser.append_assoc]
  refine .node <| builds_attributeLists.append fun cs _ ⟨as, hattributes, hcs⟩ => ?_
  refine (builds_modifiers rfl).append fun ds _ ⟨ms, hmodifiers, hds⟩ => ?_
  refine builds_parameterName fun es type name hes => ?_
  refine builds_initializer.map fun fs initializer hfs => ?_
  have hslots := hcs.append (hds.append (hes.append hfs))
  simp [Data.ofChildren, NodeKind.shape?, hslots.inSlot, hslots.someIn, Slot.only, hattributes,
    hmodifiers]

theorem builds_parameterList :
    Builds P Grammar.parameterList parameterList (One (.node .parameterList)) := by
  unfold Grammar.parameterList parameterList
  rw [Parser.append_assoc]
  refine .node <| (Builds.expect (by decide)).append fun cs _ hopening => ?_
  refine (Builds.separated ((builds_parameter.weaken fun _ _ h => ⟨_, h⟩).listed
    (by decide))).append fun ds _ hitems => ?_
  refine (Builds.expect (by decide)).map fun es _ hclosing => ?_
  exact list_ofChildren (.idle_append hopening.idle (hitems.append_idle hclosing.idle)) rfl

/-! ## Bodies -/

theorem builds_arrowBody :
    Builds P ((Grammar.arrowClause Grammar.outerExpression).into .body ++ .expect .semicolon)
      arrowBody (Into .body) :=
  ((builds_arrowClause builds_outer).into_one (by decide)).append fun _ _ hclause =>
    (Builds.expect (by decide)).map fun _ _ h => hclause.append_idle h.idle

theorem builds_memberBody : Builds P Grammar.memberBody memberBody (Into .body) := by
  refine .look fun c _ => ?_
  rw [c.kind_withEnd]
  cases hk : c.kind
  case openBrace => exact (builds_block (builds_statement _)).into_one (by decide)
  case equalsGreater => exact builds_arrowBody
  case semicolon =>
    have hend : Builds (At (· == .semicolon)) .take (token >>= fun _ => pure none) (Into .body) :=
      (Builds.takeKind (by decide)).map fun _ _ h => h.idle.into_none
    exact hend.mono (by rintro _ rfl; simp [At, hk])
  all_goals exact (Builds.report _).map fun _ _ h => h ▸ .nil _

/-! ## Accessors -/

/-- Modifiers are there if one is listed. -/
theorem isSome_modifiers {base : Nat} {ts : List Tree} {refs : Option (List Ref)}
    {test : TokenKind → Bool} (hts : (Pattern.modifiers test).Covers ts)
    (h : GathersSome .modifier (Tree.placed base ts) refs) : refs.isSome = !ts.isEmpty := by
  obtain ⟨ms, rfl, hslots⟩ := h
  have hms := hslots .modifier (by decide)
  rw [Slot.only, if_pos rfl] at hms
  subst hms
  cases ts with
  | nil => rfl
  | cons t ts =>
    have hslot : t.slot = .modifier := by
      simpa using hts.lacks (p := (· != .modifier)) rfl t (by simp)
    have hne := Tree.numbers_ne_nil base t ts
    rw [hslot] at hne
    cases hnumbers : Child.numbers (Tree.placed base (t :: ts)) .modifier with
    | nil => exact absurd hnumbers hne
    | cons => rfl

theorem builds_accessor : Builds P Grammar.accessor accessor (Into .accessor) := by
  have hmodifiers : Builds P Grammar.modifiers (modifiers TokenKind.isModifier)
      (GathersSome .modifier) := builds_modifiers rfl
  refine hmodifiers.read fun a c us d modifiers _ hread hus => ?_
  have hcovers : (Pattern.modifiers TokenKind.isModifier).Covers us := by
    have h := (Grammar.yields_modifiers (P := Any) c trivial).2
    rwa [hread] at h
  refine .ifNext (fun hk => ?_) fun _ => ?_
  · refine .into (.weaken (R := One (.node .accessorDeclaration)) ?_ fun _ _ h => h.last) (by decide)
    rw [Parser.append_assoc]
    have hrest : Builds (· = d) (Parser.take.into .keyword ++ Grammar.memberBody)
        (token >>= fun keyword => memberBody >>= fun body =>
          pure (Data.accessor ⟨modifiers, keyword, body⟩))
        fun cs data => data = .ofChildren .accessorDeclaration (Tree.placed a.size us ++ cs) := by
      obtain ⟨ms, hms, hslots⟩ := hus
      have hkeyword : Builds (At Grammar.isAccessorKeyword) (Parser.take.into .keyword)
          token (Into .keyword) := .takeInto rfl (by decide)
      refine .append (hkeyword.mono (by rintro _ rfl; exact hk)) fun cs keyword hcs => ?_
      refine builds_memberBody.map fun ds body hds => ?_
      have hall := hslots.append (hcs.append hds)
      simp [Data.ofChildren, NodeKind.shape?, hall.inSlot, hall.someIn, Slot.only, hms]
    exact .close (.emitAppend hrest rfl fun _ _ h => h)
  · rw [isSome_modifiers hcovers hus]
    cases us with
    | nil => exact .emit (.nil _)
    | cons u us =>
      refine .reportBefore (.emitAgain (Arena.plantAll_map_withSlot _ _ _) ?_)
      exact (Tree.idle_map_loose _ _).into_none

/-- Where no accessor may start, none is read. -/
theorem accessor_nil {c : Cursor} (h : (c.kind.isModifier || Grammar.isAccessorKeyword c.kind) = false) :
    Grammar.accessor c = ([], c) := by
  rw [Bool.or_eq_false_iff] at h
  have hmodifiers : Grammar.modifiers c = ([], c) := Parser.manyAtMost_stop c.rest h.1
  unfold Grammar.accessor Parser.read
  rw [hmodifiers]
  exact congrFun (if_neg (by rw [h.2]; exact Bool.false_ne_true)) c

theorem continuesBraces_of_startsAccessor {k : TokenKind}
    (h : k.isModifier || Grammar.isAccessorKeyword k) : Grammar.continuesBraces k := by
  cases k <;> first | rfl | cases h

theorem builds_keptAccessor :
    Builds P Grammar.accessor (kept accessor) (Gathers .accessor) :=
  builds_accessor.map fun _ _ h => h.gathers

/-- What follows an accessor: nothing if no token was read for it, and more accessors otherwise. -/
def accessorsAfter (n before : Nat) (found : List Ref) : Builder (List Ref) :=
  sinceThen before (pure found) (accessorsAtMost n >>= fun others => pure (found ++ others))

theorem run_accessorsAtMost {c : Cursor} (h : Grammar.continuesBraces c.kind) (n : Nat) (a : Arena) :
    accessorsAtMost (n + 1) (c.state a) =
      (kept accessor >>= accessorsAfter n c.withEnd.rest.length) (c.state a) := by
  rw [accessorsAtMost, Makes.run_ifNext, if_pos h]
  rfl

/-- Where no accessor may start none is read, though the builder tries once more if it is not at the
end of the braces. -/
theorem makes_noAccessor {c : Cursor}
    (h : (c.kind.isModifier || Grammar.isAccessorKeyword c.kind) = false) (n : Nat) (a : Arena) :
    Makes a [] c .nothing (accessorsAtMost (n + 1)) (Gathers .accessor) := by
  by_cases hbraces : Grammar.continuesBraces c.kind = true
  · obtain ⟨hstate, hfound⟩ := builds_keptAccessor (P := Any) a c trivial
    rw [accessor_nil h] at hstate hfound
    exact .of_run ((run_accessorsAtMost hbraces n a).trans (Makes.run_bind hstate _))
      (.still rfl (.emit hfound))
  · rw [accessorsAtMost]
    exact .of_run (Makes.run_ifNext ..) (by rw [if_neg hbraces]; exact .emit (.nil _))

theorem builds_accessors :
    Builds P (Parser.many (fun k => k.isModifier || Grammar.isAccessorKeyword k) Grammar.accessor)
      (look fun c => accessorsAtMost (c.rest.length - 1)) (Gathers .accessor) := by
  suffices hmost : ∀ unread : List Token, Builds Any
      (Parser.manyAtMost (fun k => k.isModifier || Grammar.isAccessorKeyword k) Grammar.accessor unread)
      (accessorsAtMost unread.length) (Gathers .accessor) by
    refine .look fun c _ => ?_
    rw [c.length_rest_withEnd]
    exact (hmost c.rest).whenever
  intro unread
  induction unread with
  | nil => exact .nothing (.nil _)
  | cons t unread ih =>
    intro a c _
    by_cases hstarts : (c.kind.isModifier || Grammar.isAccessorKeyword c.kind) = true
    · have hbraces := continuesBraces_of_startsAccessor hstarts
      refine .of_run (run_accessorsAtMost hbraces unread.length a) ?_
      rw [Parser.manyAtMost]
      unfold Makes
      rw [Parser.ifNext_pos hstarts]
      refine (builds_keptAccessor (P := Any) a c trivial).bind fun found hfound => ?_
      obtain ⟨hreads, hcovers⟩ := Grammar.yields_accessorPart c hstarts
      refine .moved (hreads.rest_lt hcovers rfl) ?_
      exact ih.map (fun ds others hothers => hfound.append hothers) _ _ trivial
    · rw [Bool.not_eq_true] at hstarts
      unfold Makes
      rw [Parser.manyAtMost_stop _ hstarts]
      exact makes_noAccessor hstarts unread.length a

/-- What follows the name of a property is in the slots for it. -/
def Completes (cs : List Child) (rest : PropertyRest) : Prop :=
  ∃ ns, rest.accessors = ns.map some ∧ Fills cs fun s => Slot.only .accessor ns s ++
    (Slot.only .body rest.body.toList s ++ Slot.only .initializer rest.initializer.toList s)

theorem builds_accessorList : Builds P Grammar.accessorList accessorList Completes := by
  unfold Grammar.accessorList accessorList
  rw [Parser.append_assoc, Parser.append_assoc]
  refine (Builds.expect (by decide)).append fun cs _ hopening => ?_
  refine builds_accessors.append fun ds _ ⟨ns, hns, hds⟩ => ?_
  refine (Builds.expect (by decide)).append fun es _ hclosing => ?_
  have hvalue : Builds Any
      (.ifNext (· == .equals) (.take ++ Grammar.outerExpression.into .initializer ++ .expect .semicolon)
        .nothing)
      (ifNext (· == .equals) (token >>= fun _ => outerExpression >>= fun value =>
        expect .semicolon >>= fun _ => pure value) (pure none)) (Into .initializer) := by
    rw [Parser.append_assoc]
    refine .optional <| (Builds.takeKind (by decide)).append fun _ _ hequals => ?_
    refine (builds_outer.into (by decide)).append fun _ _ hvalue => ?_
    exact (Builds.expect (by decide)).map fun _ _ hsemicolon =>
      .idle_append hequals.idle (hvalue.append_idle hsemicolon.idle)
  refine hvalue.map fun fs initializer hfs => ⟨ns, hns, fun s hs => ?_⟩
  have hslots := hopening.idle.fills.append (hds.append (hclosing.idle.fills.append hfs))
  rw [hslots s hs]
  simp [Slot.only]

/-! ## Members -/

theorem builds_constructorInitializer :
    Builds P Grammar.constructorInitializer constructorInitializer
      (One (.node .constructorInitializer)) := by
  unfold Grammar.constructorInitializer constructorInitializer
  rw [Parser.append_assoc]
  refine .node <| ((Builds.expect (by decide)).into_opt (by decide)).append fun cs colon hcs => ?_
  refine ((Builds.takeInto rfl (by decide)).orMissing _).append fun ds keyword hds => ?_
  refine (builds_optionalArguments builds_outer).map fun es arguments hes => ?_
  have hslots := hcs.append (hds.append hes)
  simp [Data.ofChildren, NodeKind.shape?, hslots.inSlot, Slot.only]

section Members

variable {a : Arena} {us : List Tree} {d : Cursor} {start : Nat}

/-- A declaration whose head, and type if it has one, is read. -/
theorem Makes.complete {k : NodeKind} {q : Parser} {parts : Builder Data}
    (h : Builds (· = d) q parts fun cs data =>
      data = .ofChildren k (Tree.placed a.size us ++ cs)) :
    Makes a us d (.close k start (.emit us ++ q)) (Builder.close ⟨a.size, start⟩ k parts)
      (One (.node k)) :=
  .close (.emitAppend h rfl fun _ _ h => h)

theorem makes_constructor (h : HoldsHead (Tree.placed a.size us) head none) :
    Makes a us d (.close .constructorDeclaration start (.emit us ++ Grammar.constructorRest))
      (constructor ⟨a.size, start⟩ head) (One (.node .constructorDeclaration)) := by
  obtain ⟨as, ms, rfl, hus⟩ := h
  refine .complete ?_
  unfold Grammar.constructorRest
  rw [Parser.append_assoc, Parser.append_assoc]
  refine ((Builds.expect (by decide)).into_opt (by decide)).append fun cs name hcs => ?_
  refine (builds_parameterList.into_one (by decide)).append fun ds parameters hds => ?_
  refine (builds_constructorInitializer.into_one (by decide)).optional.append
    fun es initializer hes => ?_
  refine builds_memberBody.map fun fs body hfs => ?_
  have hslots := hus.append (hcs.append (hds.append (hes.append hfs)))
  simp [Data.ofChildren, NodeKind.shape?, hslots.inSlot, hslots.someIn, Slot.only]

variable (h : HoldsHead (Tree.placed a.size us) head type)

include h

theorem makes_method :
    Makes a us d (.close .methodDeclaration start (.emit us ++ Grammar.methodRest))
      (method ⟨a.size, start⟩ head type) (One (.node .methodDeclaration)) := by
  obtain ⟨as, ms, rfl, hus⟩ := h
  refine .complete ?_
  unfold Grammar.methodRest
  rw [Parser.append_assoc]
  refine ((Builds.expect (by decide)).into_opt (by decide)).append fun cs name hcs => ?_
  refine (builds_parameterList.into_one (by decide)).append fun ds parameters hds => ?_
  refine builds_memberBody.map fun es body hes => ?_
  have hslots := hus.append (hcs.append (hds.append hes))
  simp [Data.ofChildren, NodeKind.shape?, hslots.inSlot, hslots.someIn, Slot.only]

theorem makes_property :
    Makes a us d (.close .propertyDeclaration start (.emit us ++ Grammar.propertyRest))
      (property ⟨a.size, start⟩ head type) (One (.node .propertyDeclaration)) := by
  obtain ⟨as, ms, rfl, hus⟩ := h
  refine .complete ?_
  have harrow : Builds Any
      ((Grammar.arrowClause Grammar.outerExpression).into .body ++ .expect .semicolon)
      (arrowBody >>= fun clause => pure ⟨[], clause, none⟩) Completes :=
    builds_arrowBody.map fun cs clause hcs => ⟨[], rfl, fun s hs => by rw [hcs s hs]; simp [Slot.only]⟩
  refine ((Builds.expect (by decide)).into_opt (by decide)).append fun cs name hcs => ?_
  refine Builds.map (.ifNext harrow.whenever builds_accessorList) fun ds rest hrest => ?_
  obtain ⟨ns, hns, hds⟩ := hrest
  have hslots := hus.append (hcs.append hds)
  simp [Data.ofChildren, NodeKind.shape?, hslots.inSlot, hslots.listIn, hslots.someIn, Slot.only, hns]

theorem makes_field :
    Makes a us d (.close .fieldDeclaration start (.emit us ++ Grammar.fieldRest))
      (field ⟨a.size, start⟩ head type) (One (.node .fieldDeclaration)) := by
  obtain ⟨as, ms, rfl, hus⟩ := h
  refine .complete ?_
  refine (builds_declarators builds_outer).append fun cs _ ⟨ns, hns, hcs⟩ => ?_
  refine (Builds.expect (by decide)).map fun ds _ hsemicolon => ?_
  have hslots := hus.append (Fills.append_idle hcs hsemicolon.idle)
  simp [Data.ofChildren, NodeKind.shape?, hslots.inSlot, hslots.listIn, hslots.someIn, Slot.only, hns]

/-- A declaration that breaks off holds what was read of it. -/
theorem makes_incomplete (problem : Problem) :
    Makes a us d (.report problem ++ Grammar.incomplete start us)
      (incomplete ⟨a.size, start⟩ head type problem) (One (.node .incompleteMember)) := by
  obtain ⟨as, ms, rfl, hus⟩ := h
  refine .reportBefore (.close (.emit ?_))
  simp [Data.ofChildren, NodeKind.shape?, hus.inSlot, hus.listIn, hus.someIn, Slot.only]

theorem makes_namedMember :
    Makes a us d (Grammar.namedMember start us) (namedMember ⟨a.size, start⟩ head type) AtMostOne := by
  refine .look ?_
  simp only [Cursor.kind_withEnd, Cursor.peek_withEnd]
  split
  · exact (makes_incomplete h _).atMostOne
  · cases d.peek 1
    case openParen => exact (makes_method h).atMostOne
    case openBrace | equalsGreater => exact (makes_property h).atMostOne
    all_goals exact (makes_field h).atMostOne

end Members

/-- A head alone is not a whole declaration. -/
theorem makes_head {a : Arena} {us : List Tree} (hus : Pattern.head.Covers us)
    (h : HoldsHead (Tree.placed a.size us) head none) (d : Cursor) (start : Nat) (problem : Problem) :
    Makes a us d (if us.isEmpty then .nothing else .report problem ++ Grammar.incomplete start us)
      (if head.isEmpty then pure none else incomplete ⟨a.size, start⟩ head none problem)
      AtMostOne := by
  rw [Tree.isEmpty_head hus h]
  cases us with
  | nil => exact .emit (.inl ⟨rfl, rfl⟩)
  | cons => exact (makes_incomplete h problem).atMostOne

variable {n : Nat}

/-- A type is built as it is read from its keyword on, where no more than `n` tokens are left. -/
def MakesType (n : Nat) (nested : Nat → List Tree → Parser) (nested' : Marker → Head → Builder Ref) :
    Prop :=
  ∀ a us d start head, Within n d → d.kind.isTypeKeyword → HoldsHead (Tree.placed a.size us) head none →
    Makes a us d (nested start us) (nested' ⟨a.size, start⟩ head) AtMostOne

theorem builds_member {nested : Nat → List Tree → Parser} {nested' : Marker → Head → Builder Ref}
    (h : MakesType n nested nested') (typeName : Option (List Char)) :
    Builds (Within n) (Grammar.member nested typeName) (member nested' typeName) AtMostOne := by
  refine builds_declarationHead.read fun a c us d head hc hread hus => .look ?_
  obtain ⟨hreads, hcovers⟩ := Grammar.yields_declarationHead (P := Any) c trivial
  rw [hread] at hreads hcovers
  have hconstructor : Grammar.startsConstructor typeName d.withEnd =
      Grammar.startsConstructor typeName d := by
    simp only [Grammar.startsConstructor, Cursor.kind_withEnd, Cursor.peek_withEnd,
      Cursor.next_withEnd]
  rw [hconstructor, d.kind_withEnd]
  split
  · rename_i hk
    exact h a us d _ head (Parser.kept_within n hc hreads) hk hus
  · split
    · exact (makes_constructor hus).atMostOne
    · split
      · have htype : Makes a us d (.emit us ++ Grammar.typeReference.into .type) typeReference
            fun cs type => HoldsHead cs head type :=
          .emitAppend (builds_typeReference.into_opt (by decide)) rfl fun _ _ ht => hus.append ht
        exact htype.read rfl fun vs e type _ hvs => makes_namedMember hvs
      · exact makes_head hcovers hus d _ _

/-! ## Types -/

theorem builds_baseList : Builds P Grammar.baseList baseList (One (.node .baseList)) := by
  refine .node <| (Builds.expect (by decide)).append fun cs _ hcolon => ?_
  refine (Builds.separated ?_).map fun ds _ hitems => list_ofChildren (.idle_append hcolon.idle hitems) rfl
  exact builds_typeReference.last.kept (by decide)

/-- Declarations up to the end of the braces, or of the file. -/
theorem builds_parts {p : Parser} {x : Builder Ref} {k : NodeKind → Bool} {s : Slot}
    {test : TokenKind → Bool} (hp : Grammar.Declares (Within n) p k)
    (hx : Builds (Within n) p x AtMostOne) (hk : k .variableDeclarator = false) (hs : s ≠ .loose)
    (he : test .endOfFile = false) (problem : Problem) :
    Builds (Within n) (.many test ((p.into s).orSkip problem)) (many test (orSkip x problem))
      (Gathers s) := by
  refine .many (Parser.kept_within n) (Grammar.yields_part hp problem he) ?_
  refine .orSkip hs (hp.yields.mono fun _ h => h.1) (congrArg (!·) hk) (fun c hc h => ?_)
    ((hx.mono fun _ h => h.1).weaken fun _ _ h => h.last) problem
  have htest : test c.kind := hc.2
  rw [h, he] at htest
  cases htest

theorem builds_members {p : Parser} {x : Builder Ref}
    (hp : Grammar.Declares (Within n) p NodeKind.isInner) (hx : Builds (Within n) p x AtMostOne) :
    Builds (Within n)
      (.ifNext (· == .openBrace)
        (.take ++ .many Grammar.continuesBraces ((p.into .member).orSkip .expectedMember) ++
          .expect .closeBrace)
        (.report (.expected .openBrace)))
      (members x) (Gathers .member) := by
  rw [Parser.append_assoc]
  refine .ifNext ?_ ((Builds.report _).map fun _ _ h => h ▸ .nil _)
  refine ((Builds.takeKind (by decide)).mono fun _ h => h.2).appendWhen (Q := Within n)
    (fun c hc => Parser.kept_within n hc.1 (Parser.Yields.takeAt rfl c hc.2).1) fun _ _ hopening => ?_
  refine (builds_parts hp hx rfl (by decide) rfl _).append fun _ _ hmembers => ?_
  exact (Builds.expect (by decide)).map fun _ _ hclosing =>
    .idle_append hopening.idle (hmembers.append_idle hclosing.idle)

/-- The parts of a type that stand behind its head. -/
def Declared (cs : List Child) (parts : TypeParts) : Prop :=
  ∃ name bases ms, parts = ⟨none, none, name, bases, ms.map some⟩ ∧
    Fills cs fun s => Slot.only .name name.toList s ++
      (Slot.only .bases bases.toList s ++ Slot.only .member ms s)

theorem builds_typeRest {memberOf : Option (List Char) → Parser}
    {memberOf' : Option (List Char) → Builder Ref}
    (hp : ∀ typeName, Grammar.Declares (Within n) (memberOf typeName) NodeKind.isInner)
    (hx : ∀ typeName, Builds (Within n) (memberOf typeName) (memberOf' typeName) AtMostOne) :
    Builds (Within n) (Grammar.typeRest memberOf) (typeRest memberOf') Declared := by
  refine .look fun c hc => ?_
  rw [c.kind_withEnd, c.next_withEnd, Parser.append_assoc]
  refine Builds.mono (P := Within n) ?_ (by rintro _ rfl; exact hc)
  refine ((Builds.expect (by decide)).into_opt (by decide)).appendKept
    (Parser.Yields.expect (by decide)).into_opt (Parser.kept_within n) fun cs name hcs => ?_
  refine (builds_baseList.into_one (by decide)).optional.appendKept
    (Parser.Yields.optional Grammar.yields_baseList.into_one) (Parser.kept_within n)
    fun ds bases hds => ?_
  refine (builds_members (hp _) (hx _)).map fun es _ ⟨ms, hms, hes⟩ => ?_
  exact ⟨name, bases, ms, by rw [hms], hcs.append (hds.append hes)⟩

theorem makes_typeDeclaration (unread : List Token) :
    MakesType unread.length (Grammar.typeDeclaration unread) (typeDeclaration unread.length) := by
  induction unread with
  | nil =>
    intro a us d _ _ hd hk
    have hrest : d.rest = [] := List.length_eq_zero_iff.1 (Nat.le_zero.1 hd)
    simp [Cursor.kind, Cursor.next, hrest, Token.endOfFile, TokenKind.isTypeKeyword] at hk
  | cons t unread ih =>
    rintro a us d start _ hd hk ⟨as, ms, rfl, hus⟩
    refine .look ?_
    rw [d.kind_withEnd, Parser.append_assoc]
    have hshape : (Grammar.declarationKind d.kind).shape? = some .type := by
      unfold Grammar.declarationKind
      split <;> rfl
    refine Makes.atMostOne (.complete ?_)
    have hkeyword : Builds (· = d) .take token fun cs _ => Idle cs :=
      ((@Builds.takeAt TokenKind.isTypeKeyword rfl).mono (by rintro _ rfl; exact hk)).weaken <| by
        rintro _ _ ⟨_, _, h⟩
        exact h.idle
    refine hkeyword.appendWhen (Q := Within unread.length) ?_ fun cs _ hcs => ?_
    · rintro _ rfl
      obtain ⟨hreads, hcovers⟩ := @Parser.Yields.takeAt TokenKind.isTypeKeyword rfl _ hk
      have := hreads.rest_lt hcovers rfl
      simp only [Within, List.length_cons] at hd ⊢
      omega
    · refine (builds_typeRest (Grammar.declares_member (Grammar.reads_typeDeclaration unread))
        (builds_member ih)).map fun ds _ hrest => ?_
      obtain ⟨name, bases, members, hparts, hds⟩ := hrest
      have hslots := hus.append (hcs.fills.append hds)
      simp [Data.ofChildren, hshape, hslots.inSlot, hslots.listIn, hslots.someIn, Slot.only, hparts]

/-! ## Namespaces -/

theorem builds_namespaceDeclaration {inner : Parser} {inner' : Builder Ref}
    (hp : Grammar.Declares (Within n) inner NodeKind.isOuter)
    (hx : Builds (Within n) inner inner' AtMostOne) :
    Builds (fun c => Within (n + 1) c ∧ At (· == .namespaceKeyword) c)
      (Grammar.namespaceDeclaration inner) (namespaceDeclaration inner')
      (One (.node .namespaceDeclaration)) := by
  have hmembers : Builds (Within n)
      (.ifNext (· == .semicolon) .take (.expect .openBrace ++
        .many Grammar.continuesBraces ((inner.into .member).orSkip .expectedDeclaration) ++
          .expect .closeBrace))
      (ifNext (· == .semicolon) (token >>= fun _ => pure [])
        (expect .openBrace >>= fun _ =>
          many Grammar.continuesBraces (orSkip inner' .expectedDeclaration) >>= fun members =>
            expect .closeBrace >>= fun _ => pure members)) (Gathers .member) := by
    rw [Parser.append_assoc]
    refine .ifNext ?_ ?_
    · refine ((Builds.takeKind (by decide)).mono fun _ h => h.2).map fun cs _ h => ?_
      exact ⟨[], rfl, h.idle.into_none⟩
    · refine Builds.mono (P := Within n) ?_ fun _ h => h.1
      refine (Builds.expect (by decide)).appendKept (Parser.Yields.expect (by decide))
        (Parser.kept_within n) fun _ _ hopening => ?_
      refine (builds_parts hp hx rfl (by decide) rfl _).append fun _ _ hmembers => ?_
      exact (Builds.expect (by decide)).map fun _ _ hclosing =>
        .idle_append hopening.idle (hmembers.append_idle hclosing.idle)
  unfold Grammar.namespaceDeclaration namespaceDeclaration
  rw [Parser.append_assoc]
  refine .node <| (Builds.expect (by decide)).appendWhen (Q := Within n) (fun c hc => ?_)
    fun cs _ hkeyword => ?_
  · obtain ⟨hreads, hcovers⟩ :=
      Parser.Yields.expectAt (k := .namespaceKeyword) (by decide) c hc.2
    have := hreads.rest_lt hcovers rfl
    have := hc.1
    unfold Within at *
    omega
  · refine (builds_qualifiedName.into (by decide)).appendKept Grammar.yields_qualifiedName
      (Parser.kept_within n) fun ds name hds => ?_
    refine hmembers.map fun es _ ⟨ms, hms, hes⟩ => ?_
    have hslots := hkeyword.idle.fills.append (hds.append hes)
    simp [Data.ofChildren, NodeKind.shape?, hslots.inSlot, hslots.listIn, Slot.only, hms]

theorem builds_outerType : Builds P Grammar.outerType outerType AtMostOne := by
  refine builds_declarationHead.read fun a c us d head _ hread hus => .look ?_
  have hcovers := (Grammar.yields_declarationHead (P := Any) c trivial).2
  rw [hread] at hcovers
  rw [d.kind_withEnd, d.length_rest_withEnd]
  split
  · rename_i hk
    exact makes_typeDeclaration d.rest a us d _ head (Nat.le_refl _) hk hus
  · exact makes_head hcovers hus d _ _

theorem builds_namespaceMember (unread : List Token) :
    Builds (Within unread.length) (Grammar.namespaceMember unread) (namespaceMember unread.length)
      AtMostOne := by
  induction unread with
  | nil => exact .nothing (.inl ⟨rfl, rfl⟩)
  | cons t unread ih =>
    refine .ifNext ?_ builds_outerType
    exact (builds_namespaceDeclaration (Grammar.declares_namespaceMember unread) ih).atMostOne

end Builder

end Caret
