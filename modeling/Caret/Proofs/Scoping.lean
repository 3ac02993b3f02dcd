import Caret.Proofs.DeclarationOrder
import Caret.Proofs.Grouping
import Caret.Proofs.Lineage
/-!
# Expected types follow scopes

The type that is expected behind a token is found by walks along parents and through lists, which
stop early at places and declarations. These are `expected_type_node`, `local_type_by_name` and
`member_type_by_name`. `NodeTable.Expects` says without walks which type reference is meant: that of
the declaration, of the method or property around, or, for the target of an assignment, of the
declaration that the scopes around it select. The types that are expected at a place are what this
reference resolves to (`Context.build_infers`).

The walk for a local variable stops at the first method, constructor or type. No block is left out
by that, since only types, namespaces and the file are around these (`NodeTable.localAmong_eq_or`).
-/

namespace Caret

open Tree Pattern

/-- The first entry of a list that has a property. -/
def FirstOf (p : Ref → Prop) (xs : List Ref) (x : Ref) : Prop :=
  ∃ before after, xs = before ++ x :: after ∧ p x ∧ ∀ y ∈ before, ¬p y

namespace NodeTable

/-! ## What the rule says -/

/-- A method or property. -/
def hasResult (k : NodeKind) : Bool := k == .methodDeclaration || k == .propertyDeclaration

section Rule

variable (t : NodeTable)

/-- The nearest inner node around an entry whose kind has a property, however far away. -/
def nearest (i : Ref) (p : NodeKind → Bool) : Ref :=
  (t.lineage i).find? fun a => t.isNode p (some a)

/-- The entry is a name expression of the given name. -/
def IsName (i : Ref) (name : List Char) : Prop :=
  t.node? i = some .identifierName ∧
    ∃ token, t.parent (some token) = i ∧ t.name? (some token) = some name

/-- One of the variables that are declared has the name, and their type is the given one. -/
def DeclaresVariable (declaration : Ref) (name : List Char) (type : Nat) : Prop :=
  ∃ parts, t.variableList? declaration = some parts ∧ parts.type = some type ∧
    ∃ d ∈ parts.declarators, ∃ names, t.declarator? d = some names ∧
      t.name? names.name = some name

/-- The entry starts before the offset. -/
def StartsBefore (i : Ref) (offset : Nat) : Prop := ∃ e, t.get? i = some e ∧ e.span.start < offset

/-- The statement starts before the offset and declares a variable of the name. -/
def DeclaresBefore (offset : Nat) (name : List Char) (statement : Ref) : Prop :=
  t.StartsBefore statement offset ∧ ∃ type, t.DeclaresVariable statement name type

/-- The type of a variable of the name in a block: that of the first statement that declares it
before the offset. -/
def BlockType (offset : Nat) (name : List Char) (block type : Nat) : Prop :=
  t.node? (some block) = some .block ∧ ∃ statements s, t.list? (some block) = some statements ∧
    FirstOf (t.DeclaresBefore offset name) statements s ∧ t.DeclaresVariable s name type

/-- The type of a local variable of the name: that in the innermost block around the expression that
has one. -/
def LocalType (expression : Nat) (name : List Char) (type : Nat) : Prop :=
  ∃ inner block outer, t.lineage (some expression) = inner ++ block :: outer ∧
    t.BlockType (t.start expression) name block type ∧
    ∀ b ∈ inner, ∀ type, ¬t.BlockType (t.start expression) name b type

/-- The type of the first parameter of the name. -/
def ParameterType (expression : Nat) (name : List Char) (type : Nat) : Prop :=
  ∃ p parts, FirstOf (fun p => ∃ parts, t.parameter? p = some parts ∧
      t.name? parts.name = some name)
    (t.parametersOf (t.nearest (some expression) hasParameters)) p ∧
    t.parameter? p = some parts ∧ parts.type = some type

/-- The member is a field or property of the name with the given type. -/
def DeclaresMember (member : Ref) (name : List Char) (type : Nat) : Prop :=
  t.node? member = some .fieldDeclaration ∧ t.DeclaresVariable member name type ∨
    t.node? member = some .propertyDeclaration ∧ ∃ parts, t.property? member = some parts ∧
      t.name? parts.name = some name ∧ parts.type = some type

/-- The type of the first field or property of the name in a type. -/
def MemberType (declaration : Ref) (name : List Char) (type : Nat) : Prop :=
  ∃ parts m, t.type? declaration = some parts ∧
    FirstOf (fun m => ∃ type, t.DeclaresMember m name type) parts.members m ∧
    t.DeclaresMember m name type

/-- The declared type of what a name means as an expression: that of a local variable, else of a
parameter, else of a field or property of the given type. -/
inductive NameType (declaration : Ref) (expression : Nat) (name : List Char) : Nat → Prop
  | ofLocal {type} : t.LocalType expression name type → NameType declaration expression name type
  | ofParameter {type} : (∀ l, ¬t.LocalType expression name l) →
      t.ParameterType expression name type → NameType declaration expression name type
  | ofMember {type} : (∀ l, ¬t.LocalType expression name l) →
      (∀ p, ¬t.ParameterType expression name p) → t.MemberType declaration name type →
      NameType declaration expression name type

/-- The declared type of the target of an assignment: of a name by the scopes around it, of
`this.name` by the members of the given type alone. -/
inductive TargetType (declaration : Ref) : Ref → Nat → Prop
  | ofName {target name type} : t.IsName (some target) name →
      t.NameType declaration target name type → TargetType declaration (some target) type
  | ofAccess {target parts name type} : t.node? target = some .memberAccessExpression →
      t.operation? target = some parts → t.node? parts.left = some .thisExpression →
      t.IsName parts.right name → t.MemberType declaration name type →
      TargetType declaration target type

/-- The type reference that gives the type expected behind a token. -/
inductive Expects (token : Ref) : Nat → Prop
  /-- Behind the `=` of a declared name: the type of its declaration. -/
  | ofDeclarator {parts type} : t.token? token = some .equals →
      t.node? (t.parent token) = some .variableDeclarator →
      t.variableList? (t.parent (t.parent token)) = some parts → parts.type = some type →
      Expects token type
  /-- Behind the `=` of a property: its type. -/
  | ofProperty {parts type} : t.token? token = some .equals →
      t.node? (t.parent token) = some .propertyDeclaration →
      t.property? (t.parent token) = some parts → parts.type = some type → Expects token type
  /-- Behind the `=` of an assignment: the type of its target. -/
  | ofAssignment {parts type} : t.token? token = some .equals →
      t.node? (t.parent token) = some .assignmentExpression →
      t.operation? (t.parent token) = some parts →
      t.TargetType (t.nearest token NodeKind.isTypeDeclaration) parts.left type →
      Expects token type
  /-- Behind `return`: the type of the method or property around. -/
  | ofReturn {type} : t.token? token = some .returnKeyword →
      t.node? (t.parent token) = some .returnStatement →
      t.resultType (t.nearest token hasResult) = some type → Expects token type
  /-- Behind `=>`: the type of the method or property whose body it is in. -/
  | ofArrow {type} : t.token? token = some .equalsGreater →
      t.node? (t.parent token) = some .arrowExpressionClause →
      t.resultType (t.nearest token hasResult) = some type → Expects token type

end Rule

/-! ## The first of a list -/

theorem findSome?_eq_some_iff {β : Type} {f : Ref → Option β} {p : Ref → β → Prop}
    {xs : List Ref} {b : β} (h : ∀ x b, f x = some b ↔ p x b) :
    xs.findSome? f = some b ↔ ∃ x, FirstOf (fun x => ∃ b, p x b) xs x ∧ p x b := by
  have hnone {x : Ref} : f x = none ↔ ¬∃ b, p x b := by
    rw [Option.eq_none_iff_forall_ne_some, not_exists]
    exact forall_congr' fun b => not_congr (h x b)
  rw [List.findSome?_eq_some_iff]
  constructor
  · rintro ⟨before, x, after, rfl, hx, hbefore⟩
    have hp := (h x b).1 hx
    exact ⟨x, ⟨before, after, rfl, ⟨b, hp⟩, fun y hy => hnone.1 (hbefore y hy)⟩, hp⟩
  · rintro ⟨x, ⟨before, after, rfl, -, hbefore⟩, hx⟩
    exact ⟨before, x, after, rfl, (h x b).2 hx, fun y hy => hnone.2 (hbefore y hy)⟩

/-- Where all that has a property comes first, a look-up may stop at what does not have it. -/
theorem findSome?_takeWhile {α β : Type} {p : α → Bool} {f : α → Option β} {xs : List α}
    (h : xs.Pairwise fun x y => p y → p x) :
    (xs.takeWhile p).findSome? f = xs.findSome? fun x => if p x then f x else none := by
  induction xs with
  | nil => rfl
  | cons x xs ih =>
    obtain ⟨hx, hxs⟩ := List.pairwise_cons.1 h
    by_cases hp : p x = true
    · rw [List.takeWhile_cons_of_pos hp, List.findSome?_cons, List.findSome?_cons, ih hxs,
        if_pos hp]
    · have hlate : ∀ y ∈ xs, (if p y then f y else none) = none :=
        fun y hy => if_neg fun hpy => hp (hx y hy hpy)
      rw [List.takeWhile_cons_of_neg hp, List.findSome?_cons, if_neg hp]
      exact (List.findSome?_eq_none_iff.2 hlate).symm

/-! ## Variables, parameters and members -/

section Declarations

variable {t : NodeTable} {name : List Char} {i : Ref} {type : Nat}

theorem variableType_eq_some :
    t.variableType i name = some type ↔ t.DeclaresVariable i name type := by
  have hname (d : Ref) : ((t.declarator? d).any fun parts => t.name? parts.name == some name) ↔
      ∃ names, t.declarator? d = some names ∧ t.name? names.name = some name := by
    simp [Option.any_eq_true]
  unfold variableType declaresVariable DeclaresVariable
  cases hparts : t.variableList? i with
  | none => simp
  | some parts => simp [hname, and_comm]

theorem parameterType_eq_some {member : Ref} : t.parameterType name member = some type ↔
    ∃ p parts, FirstOf (fun p => ∃ parts, t.parameter? p = some parts ∧
      t.name? parts.name = some name) (t.parametersOf member) p ∧
      t.parameter? p = some parts ∧ parts.type = some type := by
  have hfilter (p : Ref) (parts : ParameterParts) :
      ((t.parameter? p).filter fun parts => t.name? parts.name == some name) = some parts ↔
        t.parameter? p = some parts ∧ t.name? parts.name = some name := by
    simp [Option.filter_eq_some_iff]
  rw [parameterType, Option.bind_eq_some_iff]
  simp only [findSome?_eq_some_iff hfilter]
  constructor
  · rintro ⟨parts, ⟨p, hfirst, hp, -⟩, htype⟩
    exact ⟨p, parts, hfirst, hp, htype⟩
  · rintro ⟨p, parts, hfirst, hp, htype⟩
    obtain ⟨-, -, -, ⟨parts', hp', hname⟩, -⟩ := id hfirst
    obtain rfl := Option.some.inj (hp.symm.trans hp')
    exact ⟨parts, ⟨p, hfirst, hp, hname⟩, htype⟩

/-- A property has a type. -/
def PropertiesTyped (t : NodeTable) : Prop :=
  ∀ i parts, t.property? i = some parts → parts.type ≠ none

theorem memberTypeIn_eq_some (ht : t.PropertiesTyped) {r : Ref} :
    t.memberTypeIn name i = some r ↔ ∃ type, r = some type ∧ t.DeclaresMember i name type := by
  unfold memberTypeIn DeclaresMember
  cases hk : t.node? i with
  | none => simp
  | some k =>
    cases k
    case fieldDeclaration =>
      simp only [Option.map_eq_some_iff, variableType_eq_some]
      constructor
      · rintro ⟨type, htype, rfl⟩
        exact ⟨type, rfl, .inl ⟨trivial, htype⟩⟩
      · rintro ⟨type, rfl, ⟨-, htype⟩ | ⟨hproperty, -⟩⟩
        · exact ⟨type, htype, rfl⟩
        · cases hproperty
    case propertyDeclaration =>
      simp only [Option.map_eq_some_iff, Option.filter_eq_some_iff, beq_iff_eq]
      constructor
      · rintro ⟨parts, ⟨hparts, hname⟩, rfl⟩
        obtain ⟨type, htype⟩ := Option.ne_none_iff_exists'.1 (ht i parts hparts)
        exact ⟨type, htype, .inr ⟨trivial, parts, hparts, hname, htype⟩⟩
      · rintro ⟨type, rfl, ⟨hfield, -⟩ | ⟨-, parts, hparts, hname, htype⟩⟩
        · cases hfield
        · exact ⟨parts, ⟨hparts, hname⟩, htype⟩
    all_goals simp

theorem memberType_eq_some (ht : t.PropertiesTyped) {declaration : Ref} :
    t.memberType declaration name = some type ↔ t.MemberType declaration name type := by
  have hmember (m r : Ref) : t.memberTypeIn name m = some r ↔
      ∃ type, r = some type ∧ t.DeclaresMember m name type := memberTypeIn_eq_some ht
  unfold memberType MemberType
  cases hparts : t.type? declaration with
  | none => simp
  | some parts =>
    rw [Option.map_some, Option.getD_some, Option.join_eq_some_iff, findSome?_eq_some_iff hmember]
    have hsome (m : Ref) : (∃ r type, r = some type ∧ t.DeclaresMember m name type) ↔
        ∃ type, t.DeclaresMember m name type :=
      ⟨fun ⟨_, type, _, h⟩ => ⟨type, h⟩, fun ⟨type, h⟩ => ⟨_, type, rfl, h⟩⟩
    simp only [hsome]
    constructor
    · rintro ⟨m, hfirst, type', htype, hm⟩
      obtain rfl := Option.some.inj htype
      exact ⟨parts, m, rfl, hfirst, hm⟩
    · rintro ⟨parts', m, hparts', hfirst, hm⟩
      obtain rfl := Option.some.inj hparts'
      exact ⟨m, hfirst, type, rfl, hm⟩

end Declarations

/-! ## In the table of a tree -/

section Trees

variable {root : Tree} {i : Nat} {name : List Char} {type : Nat}

theorem propertiesTyped_ofTree (hroot : root.WellFormed) : (ofTree root).PropertiesTyped := by
  intro i parts hparts htype
  have hdata : (ofTree root).data i = .property parts := by
    unfold property? at hparts
    split at hparts
    · rename_i hdata
      rw [hdata, Option.some.inj hparts]
    · cases hparts
  obtain ⟨i, rfl⟩ : ∃ j, i = some j := by
    cases i with
    | none => cases hdata
    | some j => exact ⟨j, rfl⟩
  have hi : i < (ofTree root).size := by
    refine Nat.lt_of_not_le fun hle => ?_
    rw [data_eq_none hle] at hdata
    cases hdata
  obtain ⟨u, hu, rfl⟩ := exists_site_of_lt hi
  have hkind : u.tree.kind = .node .propertyDeclaration := by
    have hshape := ofTree_shape _ _ (kind?_ofTree hu)
    rw [hdata] at hshape
    generalize u.tree.kind = k at hshape
    cases k with
    | token k => cases k <;> cases hshape
    | node k => cases k <;> first | rfl | cases hshape
    | other => cases hshape
  obtain ⟨slot, span, ts, ht⟩ := eq_node_of_kind hkind
  have hwell := hroot.of_mem_sites hu
  rw [ht] at hwell
  cases hwell with | node covers _ =>
  obtain ⟨us, vs, rfl, hus, -⟩ := covers_seq.1 covers
  obtain ⟨ws, xs, rfl, -, hxs⟩ := covers_seq.1 hus
  obtain ⟨n, s, cs, rfl, -⟩ := covers_node.1 hxs
  rw [data_ofTree hu, Site.data_entry ht] at hdata
  obtain rfl := Data.property.inj hdata
  -- the children have a type in its slot
  rw [Site.inSlot_children, Option.map_eq_none_iff] at htype
  have hfind := congrArg (Option.map Site.tree) htype
  rw [← Site.find?_children, ht] at hfind
  simp [Tree.children, Tree.slot] at hfind

/-! ## Local variables -/

/-- The type of a variable of the name that a block declares before the offset. -/
def typeInBlock (t : NodeTable) (name : List Char) (offset : Nat) (block : Nat) : Ref :=
  if t.node? (some block) = some .block then
    t.localIn name offset ((t.list? (some block)).getD [])
  else none

/-- The statements of a block start one after the other. -/
theorem statements_ascend (hroot : root.WellFormed) (hstarts : root.StartsAtToken)
    (hsorted : root.tokens.Pairwise fun t u => t.start < u.start)
    (hk : (ofTree root).node? (some i) = some .block) :
    ∃ statements, (ofTree root).list? (some i) = some statements ∧
      statements.Pairwise fun s s' => ∀ offset,
        (ofTree root).StartsBefore s' offset → (ofTree root).StartsBefore s offset := by
  obtain ⟨u, hu, rfl, slot, span, ts, ht⟩ := exists_nodeSite hk
  have hwell := hroot.of_mem_sites hu
  rw [ht] at hwell
  cases hwell with | node covers inside =>
  have hne {v : Site} (hv : v ∈ u.children) : v.tree.tokens ≠ [] := by
    have hmem : v.tree ∈ ts := by
      have h := List.mem_map_of_mem (f := Site.tree) hv
      rwa [Site.map_tree_children, ht] at h
    exact (inside _ hmem).tokens_ne_nil (covers.excludes rfl _ hmem)
  refine ⟨(u.children.filter (·.tree.slot == .item)).map (some ·.index), ?_, ?_⟩
  · rw [list?, data_ofTree hu, Site.data_entry ht]
    simp only [Data.ofChildren, NodeKind.shape?, Child.listIn, List.filter_map, List.map_map]
    rfl
  · refine List.pairwise_map.2 (((pairwise_childSites _ _ _).filter _).imp_of_mem ?_)
    intro v w hv hw hlt offset
    have hv := (List.mem_filter.1 hv).1
    have hw := (List.mem_filter.1 hw).1
    have hvs := Site.mem_sites_of_mem_children hu hv
    have hws := Site.mem_sites_of_mem_children hu hw
    have hstart := start_lt_of_behind hstarts hsorted hvs hws (hne hv) (hne hw) hlt
    rw [start_ofTree hvs, start_ofTree hws] at hstart
    rintro ⟨e, he, hlate⟩
    obtain rfl := Option.some.inj ((get?_ofTree hws).symm.trans he)
    refine ⟨_, get?_ofTree hvs, ?_⟩
    rw [Site.span_entry] at hlate ⊢
    exact Nat.lt_trans hstart hlate

theorem typeInBlock_eq_some (hroot : root.WellFormed) (hstarts : root.StartsAtToken)
    (hsorted : root.tokens.Pairwise fun t u => t.start < u.start) {offset : Nat} :
    (ofTree root).typeInBlock name offset i = some type ↔
      (ofTree root).BlockType offset name i type := by
  have hbefore (s : Ref) : ((ofTree root).get? s).any (·.span.start < offset) ↔
      (ofTree root).StartsBefore s offset := by
    simp [StartsBefore, Option.any_eq_true]
  have hdeclares (s : Ref) (type : Nat) :
      (if ((ofTree root).get? s).any (·.span.start < offset) then
        (ofTree root).variableType s name else none) = some type ↔
      (ofTree root).StartsBefore s offset ∧ (ofTree root).DeclaresVariable s name type := by
    rw [Option.ite_none_right_eq_some, hbefore, variableType_eq_some]
  unfold typeInBlock BlockType DeclaresBefore
  by_cases hk : (ofTree root).node? (some i) = some .block
  · obtain ⟨statements, hlist, hascend⟩ := statements_ascend hroot hstarts hsorted hk
    have hpairs : statements.Pairwise fun s s' =>
        ((ofTree root).get? s').any (·.span.start < offset) →
          ((ofTree root).get? s).any (·.span.start < offset) := by
      refine hascend.imp fun h => ?_
      rw [hbefore, hbefore]
      exact h offset
    rw [if_pos hk, hlist, Option.getD_some, localIn, findSome?_takeWhile hpairs,
      findSome?_eq_some_iff hdeclares]
    simp only [exists_and_left]
    constructor
    · rintro ⟨s, hfirst, -, hs⟩
      exact ⟨hk, statements, rfl, s, hfirst, hs⟩
    · rintro ⟨-, statements', hlist', s, hfirst, hs⟩
      obtain rfl := Option.some.inj hlist'
      obtain ⟨-, -, -, ⟨hstart, -⟩, -⟩ := id hfirst
      exact ⟨s, hfirst, hstart, hs⟩
  · simp [hk]

/-! ## Walks along parents -/

/-- Only what holds declarations is around types and members. -/
def ScopesOutside (t : NodeTable) (as : List Nat) : Prop :=
  as.Pairwise fun a b =>
    t.isNode (fun k => k.isTypeDeclaration || k.isMemberDeclaration) (some a) →
      t.isNode NodeKind.isScope (some b)

/-- Nothing is found among what holds declarations that does not. -/
theorem find?_of_scopes {t : NodeTable} {as : List Nat} {p : NodeKind → Bool}
    (h : ∀ a ∈ as, t.isNode NodeKind.isScope (some a)) (hp : ∀ k, k.isScope → p k = false) :
    as.find? (fun a => t.isNode p (some a)) = none := by
  rw [List.find?_eq_none]
  intro a ha hpa
  obtain ⟨k, hk, hscope⟩ := (Option.any_eq_true _ _).1 (h a ha)
  rw [isNode, hk, Option.any_some, hp k hscope] at hpa
  cases hpa

section Walks

variable (hroot : root.WellFormed) (hunit : root.kind = .node .compilationUnit)

include hroot

/-- Only what holds declarations is around what holds declarations. -/
theorem isScope_of_walk {n j : Nat} (hi : (ofTree root).isNode NodeKind.isScope (some i))
    (hj : j ∈ (ofTree root).walk n (some i)) :
    (ofTree root).isNode NodeKind.isScope (some j) :=
  isScope_of_below hroot (mem_walk hj).to_reflTransGen hi

include hunit

/-- A member stands right in a type. -/
theorem isType_parent_of_member {i : Ref}
    (h : (ofTree root).isNode NodeKind.isMemberDeclaration i) :
    (ofTree root).isNode NodeKind.isTypeDeclaration ((ofTree root).parent i) := by
  obtain ⟨k, hk, hmember⟩ := (Option.any_eq_true _ _).1 h
  refine isNode_parent hroot hk ?_ fun l => ?_
  · rw [hunit]
    rintro h
    cases h
    cases hmember
  · revert hmember
    cases k <;> cases l <;> decide

/-- Only what holds declarations is around a member. -/
theorem isScope_of_walk_member {n j : Nat}
    (hi : (ofTree root).isNode NodeKind.isMemberDeclaration (some i))
    (hj : j ∈ (ofTree root).walk n (some i)) :
    (ofTree root).isNode NodeKind.isScope (some j) := by
  have htype := isType_parent_of_member hroot hunit hi
  cases n with
  | zero => cases hj
  | succ n =>
    rw [walk] at hj
    cases hp : (ofTree root).parent (some i) with
    | none => rw [hp] at hj; cases hj
    | some p =>
      rw [hp] at hj htype
      have hscope : (ofTree root).isNode NodeKind.isScope (some p) := by
        obtain ⟨k, hk, htype⟩ := (Option.any_eq_true _ _).1 htype
        rw [isNode, hk, Option.any_some, NodeKind.isScope, htype, Bool.or_true]
      rcases List.mem_cons.1 hj with rfl | hj
      · exact hscope
      · exact isScope_of_walk hroot hscope hj

/-- Only what holds declarations is around types and members. -/
theorem scopesOutside_walk (n i : Nat) :
    (ofTree root).ScopesOutside ((ofTree root).walk n (some i)) := by
  induction n generalizing i with
  | zero => exact .nil
  | succ n ih =>
    rw [walk]
    cases (ofTree root).parent (some i) with
    | none => exact .nil
    | some p =>
      refine List.pairwise_cons.2 ⟨fun b hb hp => ?_, ih p⟩
      obtain ⟨k, hk, hstop⟩ := (Option.any_eq_true _ _).1 hp
      rcases Bool.or_eq_true_iff.1 hstop with htype | hmember
      · refine isScope_of_walk hroot ?_ hb
        rw [isNode, hk, Option.any_some, NodeKind.isScope, htype, Bool.or_true]
      · exact isScope_of_walk_member hroot hunit (by rwa [isNode, hk, Option.any_some]) hb

end Walks

/-- The walk for a local variable looks into the blocks, and then at the parameters of the nearest
method or constructor: it stops there, but no block is further out. -/
theorem localAmong_eq_or {t : NodeTable} {as : List Nat} (offset : Nat) (h : t.ScopesOutside as) :
    t.localAmong name offset as = (as.findSome? (t.typeInBlock name offset)).or
      (t.parameterType name (as.find? fun a => t.isNode hasParameters (some a))) := by
  induction as with
  | nil => rfl
  | cons a as ih =>
    obtain ⟨hlate, has⟩ := List.pairwise_cons.1 h
    have hnode (p : NodeKind → Bool) : t.isNode p (some a) = (t.node? (some a)).any p := rfl
    rw [localAmong, List.findSome?_cons, List.find?_cons, ih has, typeInBlock, hnode]
    simp only [hnode] at hlate
    cases hk : t.node? (some a) with
    | none => rfl
    | some k =>
      have hscopes (hs : (k.isTypeDeclaration || k.isMemberDeclaration) = true) :
          ∀ b ∈ as, t.isNode NodeKind.isScope (some b) := fun b hb => hlate b hb (by rwa [hk])
      have hblocks (hs : (k.isTypeDeclaration || k.isMemberDeclaration) = true) :
          as.findSome? (t.typeInBlock name offset) = none := by
        refine List.findSome?_eq_none_iff.2 fun b hb => if_neg fun hblock => ?_
        have hscope := hscopes hs b hb
        rw [isNode, hblock] at hscope
        cases hscope
      cases k
      case block =>
        cases hlocal : t.localIn name offset ((t.list? (some a)).getD []) <;> rfl
      case methodDeclaration | constructorDeclaration =>
        rw [hblocks rfl]
        rfl
      case classDeclaration | structDeclaration | interfaceDeclaration =>
        rw [hblocks rfl, find?_of_scopes (hscopes rfl) fun k => by cases k <;> decide]
        rfl
      all_goals rfl

/-- The type of the nearest member is that of the nearest method or property, for nothing of that
kind is around another member. -/
theorem resultType_find? {t : NodeTable} {as : List Nat} (h : t.ScopesOutside as) :
    t.resultType (as.find? fun a => t.isNode NodeKind.isMemberDeclaration (some a)) =
      t.resultType (as.find? fun a => t.isNode hasResult (some a)) := by
  induction as with
  | nil => rfl
  | cons a as ih =>
    obtain ⟨hlate, has⟩ := List.pairwise_cons.1 h
    rw [List.find?_cons, List.find?_cons, isNode, isNode]
    cases hk : t.node? (some a) with
    | none => exact ih has
    | some k =>
      have hnone (hm : k.isMemberDeclaration = true) (hr : hasResult k = false) :
          t.resultType (some a) = none := by
        rw [resultType, hk]
        revert hm hr
        cases k <;> simp [NodeKind.isMemberDeclaration, hasResult]
      cases hm : k.isMemberDeclaration with
      | false =>
        have hr : hasResult k = false := by
          revert hm
          cases k <;> decide
        simpa [hm, hr] using ih has
      | true =>
        cases hr : hasResult k with
        | true => simp [hm, hr]
        | false =>
          have hscopes : ∀ b ∈ as, t.isNode NodeKind.isScope (some b) :=
            fun b hb => hlate b hb (by rw [isNode, hk, Option.any_some, hm, Bool.or_true])
          have hfind : as.find? (fun a => t.isNode hasResult (some a)) = none :=
            find?_of_scopes hscopes fun k => by cases k <;> decide
          simp only [Option.any_some, hm, hr, hfind, hnone hm hr]
          rfl

/-! ## All ancestors -/

theorem lineage_none (t : NodeTable) : t.lineage none = [] := walk_none t _

theorem lineage_of_parent {p : Nat} (h : (ofTree root).parent (some i) = some p) :
    (ofTree root).lineage (some i) = p :: (ofTree root).lineage (some p) := by
  obtain ⟨s, hs, u, hu, rfl, rfl, hc⟩ := exists_site_of_hasParent h
  have hlt := hc.bounds.2
  have hsize := index_lt_size hu
  have hlength := length_walk_lt root (ofTree root).size hsize
  obtain ⟨n, hn⟩ : ∃ n, (ofTree root).size = n + 1 := ⟨(ofTree root).size - 1, by omega⟩
  have hwalk := walk_eq_take hsize n
  rw [List.take_of_length_le (by rw [lineage]; omega)] at hwalk
  rw [← hwalk, lineage, hn, walk, h]

theorem nearest_of_parent {p : Nat} (h : (ofTree root).parent (some i) = some p)
    (q : NodeKind → Bool) : (ofTree root).nearest (some i) q =
      if (ofTree root).isNode q (some p) then some p else (ofTree root).nearest (some p) q := by
  rw [nearest, lineage_of_parent h, List.find?_cons]
  split <;> rename_i hq
  · rw [if_pos hq]
  · rw [if_neg (by simp [hq])]
    rfl

section Shallow

variable (hsh : (ofTree root).Shallow)

include hsh

theorem ancestors_eq_lineage (i : Ref) : (ofTree root).ancestors i = (ofTree root).lineage i := by
  cases i with
  | none => rw [lineage_none]; rfl
  | some i =>
    by_cases hi : i < (ofTree root).size
    · have hlength := hsh (some i)
      rw [walk_eq_take hi, List.length_take] at hlength
      rw [ancestors_eq_take hi, List.take_of_length_le (by omega)]
    · have hparent := parent_eq_none (Nat.le_of_not_lt hi)
      rw [ancestors, walkLimit, walk, hparent, lineage]
      cases (ofTree root).size with
      | zero => rfl
      | succ n => rw [walk, hparent]

theorem nodeAbove_eq_nearest (i : Ref) (p : NodeKind → Bool) :
    (ofTree root).nodeAbove i p = (ofTree root).nearest i p := by
  rw [nodeAbove, ancestor?, ancestors_eq_lineage hsh, nearest]
  simp only [any_isNode]

end Shallow

/-! ## Names -/

section Names

variable (hroot : root.WellFormed) (hstarts : root.StartsAtToken)
  (hsorted : root.tokens.Pairwise fun t u => t.start < u.start)

include hroot hstarts hsorted

/-- The token of a name expression is the one that is found behind its start. -/
theorem exists_token_of_name {i : Ref} (hk : (ofTree root).node? i = some .identifierName) :
    ∃ u x v, i = some u ∧ x ∈ root.tokens ∧ Grammar.startsType x.kind ∧
      ((ofTree root).get? i).map (·.span.start) = some x.start ∧
      (ofTree root).tokenBefore (x.start + 1) = some v ∧
      ∀ j, (ofTree root).parent (some j) = i ↔ j = v := by
  obtain ⟨i, rfl⟩ : ∃ j, i = some j := by
    cases i with
    | none => cases hk
    | some j => exact ⟨j, rfl⟩
  obtain ⟨u, hu, rfl, slot, span, ts, ht⟩ := exists_nodeSite hk
  have hwell := hroot.of_mem_sites hu
  have hstart := startsAtToken_of_mem_sites hstarts hu
  have htokens := tokens_sublist hu
  rw [ht] at hwell hstart htokens
  cases hwell with | node covers _ =>
  obtain ⟨x, rfl, hx⟩ := covers_leaf.1 covers
  cases hstart with | node hspan _ =>
  have hspan : span.start = x.start := hspan x rfl
  have hmem : x ∈ root.tokens := htokens.subset (by simp [Tree.tokens, tokensAll])
  obtain ⟨v, hv, htree⟩ := Site.exists_child ht (List.mem_singleton_self _)
  have hvx : v.token? = some x := by rw [Site.token?, htree]
  have hvs := Site.mem_sites_of_mem_children hu hv
  refine ⟨u.index, x, v.index, rfl, hmem, hx, ?_, ?_, fun j => ⟨fun hj => ?_, ?_⟩⟩
  · rw [get?_ofTree hu, Option.map_some, Site.span_entry, ht]
    exact congrArg some hspan
  · obtain ⟨init, late, hsplit⟩ := List.append_of_mem hmem
    refine tokenBefore_of_token hsorted hsplit (Nat.lt_succ_self _) (fun y hy => ?_) hvs hvx
    rw [hsplit, List.pairwise_append, List.pairwise_cons] at hsorted
    exact hsorted.2.1.1 y hy
  · obtain ⟨w, hw, u', hu', rfl, hi, hc⟩ := exists_site_of_hasParent hj
    rw [site_unique hu' hu hi] at hc
    have htrees := u.map_tree_children
    rw [ht] at htrees
    have hwtree : w.tree ∈ u.children.map Site.tree := List.mem_map_of_mem (Site.mem_children.2 hc)
    rw [htrees, Tree.children, List.mem_singleton] at hwtree
    rw [site_eq hsorted hw hvs (by rw [Site.token?, hwtree]) hvx]
  · rintro rfl
    exact parent_of_mem_children hu hv

theorem nameOf_eq_some (hlimit : ∀ x ∈ root.tokens, x.kind ≠ .endOfFile →
    x.start + 1 < Offset.limit) {i : Ref} (hk : (ofTree root).node? i = some .identifierName) :
    (ofTree root).nameOf i = some name ↔ (ofTree root).IsName i name := by
  obtain ⟨u, x, v, rfl, hmem, hx, hstart, hbefore, hparent⟩ :=
    exists_token_of_name hroot hstarts hsorted hk
  have hnext : Offset.next x.start = x.start + 1 := by
    refine Offset.next_of_lt (hlimit x hmem fun he => ?_)
    rw [he] at hx
    cases hx
  obtain ⟨e, he, hxe⟩ := Option.map_eq_some_iff.1 hstart
  have hname : (ofTree root).nameOf (some u) = (ofTree root).name? (some v) := by
    rw [nameOf, he, Option.bind_some, hxe, hnext, hbefore]
    simp [(hparent v).2 rfl]
  rw [hname, IsName, hk]
  constructor
  · exact fun h => ⟨rfl, v, (hparent v).2 rfl, h⟩
  · rintro ⟨-, token, htoken, h⟩
    rwa [(hparent token).1 htoken] at h

end Names

/-! ## Local variables and parameters -/

section Scopes

variable (hroot : root.WellFormed) (hunit : root.kind = .node .compilationUnit)
  (hstarts : root.StartsAtToken) (hsorted : root.tokens.Pairwise fun t u => t.start < u.start)

include hroot hstarts hsorted

theorem findSome?_lineage : ((ofTree root).lineage (some i)).findSome?
    ((ofTree root).typeInBlock name ((ofTree root).start i)) = some type ↔
      (ofTree root).LocalType i name type := by
  have hblock {a type : Nat} : (ofTree root).typeInBlock name ((ofTree root).start i) a = some type ↔
      (ofTree root).BlockType ((ofTree root).start i) name a type :=
    typeInBlock_eq_some hroot hstarts hsorted
  rw [List.findSome?_eq_some_iff, LocalType]
  refine exists_congr fun inner => exists_congr fun block => exists_congr fun outer => ?_
  refine and_congr_right fun _ => and_congr hblock (forall_congr' fun b => forall_congr' fun _ => ?_)
  rw [Option.eq_none_iff_forall_ne_some]
  exact forall_congr' fun type => not_congr hblock

include hunit

omit hstarts hsorted in
/-- A name means a local variable, or else a parameter, or else no variable at all. -/
theorem localType_eq_or (hsh : (ofTree root).Shallow) {e : Entry}
    (he : (ofTree root).get? (some i) = some e) :
    (ofTree root).localType (some i) name =
      (((ofTree root).lineage (some i)).findSome?
        ((ofTree root).typeInBlock name ((ofTree root).start i))).or
        ((ofTree root).parameterType name ((ofTree root).nearest (some i) hasParameters)) := by
  have hstart : e.span.start = (ofTree root).start i := by
    rw [start, he]
    rfl
  rw [localType, he, Option.bind_some, hstart, ancestors_eq_lineage hsh]
  exact localAmong_eq_or _ (scopesOutside_walk hroot hunit _ i)

theorem nameType_iff (hsh : (ofTree root).Shallow) {e : Entry}
    (he : (ofTree root).get? (some i) = some e) {declaration : Ref} :
    (ofTree root).NameType declaration i name type ↔
      ((ofTree root).localType (some i) name).or ((ofTree root).memberType declaration name) =
        some type := by
  have hlocal {type : Nat} : ((ofTree root).lineage (some i)).findSome?
      ((ofTree root).typeInBlock name ((ofTree root).start i)) = some type ↔
        (ofTree root).LocalType i name type := findSome?_lineage hroot hstarts hsorted
  have hparameter {type : Nat} : (ofTree root).parameterType name
      ((ofTree root).nearest (some i) hasParameters) = some type ↔
        (ofTree root).ParameterType i name type := parameterType_eq_some
  have hmember : (ofTree root).memberType declaration name = some type ↔
      (ofTree root).MemberType declaration name type :=
    memberType_eq_some (propertiesTyped_ofTree hroot)
  rw [localType_eq_or hroot hunit hsh he, Option.or_assoc, Option.or_eq_some_iff,
    Option.or_eq_some_iff, hlocal, hparameter, hmember, Option.eq_none_iff_forall_ne_some,
    Option.eq_none_iff_forall_ne_some]
  simp only [Ne, hlocal, hparameter]
  constructor
  · rintro (h | ⟨hl, h⟩ | ⟨hl, hp, h⟩)
    · exact .inl h
    · exact .inr ⟨hl, .inl h⟩
    · exact .inr ⟨hl, .inr ⟨hp, h⟩⟩
  · rintro (h | ⟨hl, h | ⟨hp, h⟩⟩)
    · exact .ofLocal h
    · exact .ofParameter hl h
    · exact .ofMember hl hp h

omit hstarts hsorted hunit in
/-- What stands behind the dot of an access, if anything does, is a name. -/
theorem node?_right_of_access {target : Ref} {parts : OperationParts} {right : Nat}
    (hk : (ofTree root).node? target = some .memberAccessExpression)
    (hparts : (ofTree root).operation? target = some parts) (hr : parts.right = some right) :
    (ofTree root).node? (some right) = some .identifierName := by
  obtain ⟨i, rfl⟩ : ∃ i, target = some i := Option.ne_none_iff_exists'.1 (by rintro rfl; cases hk)
  obtain ⟨u, hu, rfl, slot, span, ts, ht⟩ := exists_nodeSite hk
  obtain ⟨parts', hparts', -, hright⟩ := exists_operation hu ht rfl
  obtain rfl := Option.some.inj (hparts.symm.trans hparts')
  rw [hr] at hright
  obtain ⟨-, owner, k, howner, hkind, hfits⟩ := ofTree_fits hroot _ _ _ hright
  obtain rfl := Option.some.inj (hk.symm.trans howner)
  rw [node?, hkind, Option.bind_some, eq_of_beq (show (k == .node .identifierName) = true from hfits)]
  rfl

theorem targetType_eq_some (hsh : (ofTree root).Shallow) (hlimit : ∀ x ∈ root.tokens,
    x.kind ≠ .endOfFile → x.start + 1 < Offset.limit) {declaration target : Ref} :
    (ofTree root).targetType declaration target = some type ↔
      (ofTree root).TargetType declaration target type := by
  have hname {i : Ref} {name : List Char} (hk : (ofTree root).node? i = some .identifierName) :
      (ofTree root).nameOf i = some name ↔ (ofTree root).IsName i name :=
    nameOf_eq_some hroot hstarts hsorted hlimit hk
  have hmember {name : List Char} : (ofTree root).memberType declaration name = some type ↔
      (ofTree root).MemberType declaration name type :=
    memberType_eq_some (propertiesTyped_ofTree hroot)
  constructor
  · intro h
    unfold targetType at h
    split at h
    · next hk =>
      obtain ⟨name, hn, h⟩ := Option.bind_eq_some_iff.1 h
      obtain ⟨i, rfl⟩ : ∃ i, target = some i :=
        Option.ne_none_iff_exists'.1 (by rintro rfl; cases hk)
      obtain ⟨e, he, -⟩ := Option.bind_eq_some_iff.1 hn
      refine .ofName ((hname hk).1 hn) ((nameType_iff hroot hunit hstarts hsorted hsh he).2 ?_)
      rw [← h]
      cases (ofTree root).localType (some i) name <;> rfl
    · next hk =>
      obtain ⟨parts, hparts, h⟩ := Option.bind_eq_some_iff.1 h
      rw [Option.ite_none_right_eq_some, beq_iff_eq] at h
      obtain ⟨hthis, h⟩ := h
      obtain ⟨name, hn, h⟩ := Option.bind_eq_some_iff.1 h
      obtain ⟨right, hright⟩ : ∃ right, parts.right = some right :=
        Option.ne_none_iff_exists'.1 (by intro hnone; rw [hnone] at hn; cases hn)
      have hnode := node?_right_of_access hroot hk hparts hright
      rw [hright] at hn
      exact .ofAccess hk hparts hthis (hright ▸ (hname hnode).1 hn) (hmember.1 h)
    · cases h
  · rintro (⟨hn, h⟩ | ⟨hk, hparts, hthis, hn, h⟩)
    · rename_i i name
      have hfound := (hname hn.1).2 hn
      obtain ⟨e, he, -⟩ := Option.bind_eq_some_iff.1 hfound
      simp only [targetType, hn.1, hfound, Option.bind_some]
      rw [← (nameType_iff hroot hunit hstarts hsorted hsh he).1 h]
      cases (ofTree root).localType (some i) name <;> rfl
    · simp only [targetType, hk, hparts, Option.bind_some, hthis, (hname hn.1).2 hn, hmember.2 h,
        BEq.rfl, if_true]

end Scopes

/-! ## Methods and properties -/

section Results

variable (hroot : root.WellFormed) (hunit : root.kind = .node .compilationUnit)

include hroot hunit

/-- What is returned is a value of the nearest method or property. -/
theorem resultType_containingMember (hsh : (ofTree root).Shallow) (i : Nat) :
    (ofTree root).resultType ((ofTree root).containingMember (some i)) =
      (ofTree root).resultType ((ofTree root).nearest (some i) hasResult) := by
  have hmember : (ofTree root).containingMember (some i) =
      (ofTree root).nearest (some i) NodeKind.isMemberDeclaration := by
    rw [containingMember, nodeAbove_eq_nearest hsh]
    refine ite_eq_left_iff.2 fun hnot => ?_
    cases hm : (ofTree root).nearest (some i) NodeKind.isMemberDeclaration with
    | none => rfl
    | some m =>
      have hkind := List.find?_some hm
      rw [hm] at hnot
      exact absurd (isType_parent_of_member hroot hunit hkind) hnot
  rw [hmember]
  exact resultType_find? (scopesOutside_walk hroot hunit _ i)

/-- The owner of an arrow clause is the nearest method or property, if that is what owns it. -/
theorem resultType_owner {i clause : Nat} (hi : (ofTree root).parent (some i) = some clause)
    (hk : (ofTree root).node? (some clause) = some .arrowExpressionClause) :
    (if (ofTree root).node? ((ofTree root).parent (some clause)) == some .accessorDeclaration then
      (ofTree root).resultType ((ofTree root).parent ((ofTree root).parent (some clause)))
    else (ofTree root).resultType ((ofTree root).parent (some clause))) =
      (ofTree root).resultType ((ofTree root).nearest (some i) hasResult) := by
  have hstep {i p : Nat} {k : NodeKind} (hi : (ofTree root).parent (some i) = some p)
      (hk : (ofTree root).node? (some p) = some k) : (ofTree root).nearest (some i) hasResult =
        if hasResult k then some p else (ofTree root).nearest (some p) hasResult := by
    rw [nearest_of_parent hi, isNode, hk, Option.any_some]
  have hclause : (ofTree root).nearest (some i) hasResult =
      (ofTree root).nearest (some clause) hasResult := (hstep hi hk).trans (if_neg (by decide))
  rw [hclause]
  rcases parent_cases hroot hk with ⟨-, h⟩ | ⟨k, slot, howner, hallows⟩
  · rw [hunit] at h
    cases h
  obtain ⟨owner, hp⟩ : ∃ owner, (ofTree root).parent (some clause) = some owner :=
    Option.ne_none_iff_exists'.1 fun h => by rw [h] at howner; cases howner
  rw [hp] at howner ⊢
  rw [hstep hp howner, howner]
  have hkind : hasResult k ∨ k = .accessorDeclaration ∨ k = .constructorDeclaration := by
    revert hallows
    cases k <;> cases slot <;> decide
  rcases hkind with hresult | rfl | rfl
  · rw [if_pos hresult, if_neg]
    rw [beq_iff_eq]
    rintro h
    cases h
    cases hresult
  · have htype : (ofTree root).isNode (· == .propertyDeclaration)
        ((ofTree root).parent (some owner)) :=
      isNode_parent hroot howner (by simp [hunit]) fun k => by cases k <;> decide
    obtain ⟨n, hn, hproperty⟩ := (Option.any_eq_true _ _).1 htype
    obtain ⟨property, hq⟩ : ∃ property, (ofTree root).parent (some owner) = some property :=
      Option.ne_none_iff_exists'.1 fun h => by rw [h] at hn; cases hn
    rw [hq] at hn ⊢
    rw [eq_of_beq hproperty] at hn
    rw [hstep hq hn]
    rfl
  · -- a constructor has no type, and nothing around it has one
    have hscopes : ∀ a ∈ (ofTree root).lineage (some owner),
        (ofTree root).isNode NodeKind.isScope (some a) := fun a ha =>
      isScope_of_walk_member hroot hunit (by rw [isNode, howner]; rfl) ha
    have hnone : (ofTree root).nearest (some owner) hasResult = none :=
      find?_of_scopes hscopes fun k => by cases k <;> decide
    have hresult : (ofTree root).resultType (some owner) = none := by rw [resultType, howner]
    rw [hnone, hresult]
    rfl

end Results

/-! ## The rule -/

section Places

variable (hroot : root.WellFormed) (hunit : root.kind = .node .compilationUnit)
  (hsh : (ofTree root).Shallow)

/-- Around a token other than a brace the nearest type is around it. -/
theorem containingType_eq_nearest {token : Ref} (hsh : (ofTree root).Shallow)
    (h : (ofTree root).token? token ≠ some .closeBrace) :
    (ofTree root).containingType token =
      (ofTree root).nearest token NodeKind.isTypeDeclaration := by
  rw [← nodeAbove_eq_nearest hsh, containingType, beq_eq_false_iff_ne.2 h, Bool.false_and]
  rfl

include hroot hunit hsh

/-- The type reference that is found behind a token is the one that the scopes select. -/
theorem expectedType_eq_some (hstarts : root.StartsAtToken)
    (hsorted : root.tokens.Pairwise fun t u => t.start < u.start)
    (hlimit : ∀ x ∈ root.tokens, x.kind ≠ .endOfFile → x.start + 1 < Offset.limit) {token : Ref} :
    (ofTree root).expectedType ((ofTree root).containingType token) token = some type ↔
      (ofTree root).Expects token type := by
  have htarget {declaration target : Ref} :
      (ofTree root).targetType declaration target = some type ↔
        (ofTree root).TargetType declaration target type :=
    targetType_eq_some hroot hunit hstarts hsorted hsh hlimit
  have hreturn {i : Nat} := resultType_containingMember hroot hunit hsh i
  have hsome {token : Ref} {k : TokenKind} (h : (ofTree root).token? token = some k) :
      ∃ i, token = some i := Option.ne_none_iff_exists'.1 (by rintro rfl; cases h)
  have hparent {i : Ref} {k : NodeKind} (h : (ofTree root).node? i = some k) :
      ∃ j, i = some j := Option.ne_none_iff_exists'.1 (by rintro rfl; cases h)
  constructor
  · intro h
    simp only [expectedType] at h
    split at h
    · next hk hp =>
      obtain ⟨parts, hparts, htype⟩ := Option.bind_eq_some_iff.1 h
      exact .ofDeclarator hk hp hparts htype
    · next hk hp =>
      obtain ⟨parts, hparts, htype⟩ := Option.bind_eq_some_iff.1 h
      exact .ofProperty hk hp hparts htype
    · next hk hp =>
      obtain ⟨parts, hparts, htype⟩ := Option.bind_eq_some_iff.1 h
      rw [containingType_eq_nearest hsh (by simp [hk])] at htype
      exact .ofAssignment hk hp hparts (htarget.1 htype)
    · next hk hp =>
      obtain ⟨i, rfl⟩ := hsome hk
      exact .ofReturn hk hp (hreturn.symm.trans h)
    · next hk hp =>
      obtain ⟨i, rfl⟩ := hsome hk
      obtain ⟨clause, hclause⟩ := hparent hp
      rw [hclause] at hp
      simp only [hclause] at h
      exact .ofArrow hk (by rw [hclause, hp]) ((resultType_owner hroot hunit hclause hp).symm.trans h)
    · cases h
  · intro h
    cases h with
    | ofDeclarator hk hp hparts htype | ofProperty hk hp hparts htype =>
      simp only [expectedType, hk, hp, hparts, Option.bind_some, htype]
    | ofAssignment hk hp hparts htype =>
      simp only [expectedType, hk, hp, hparts, Option.bind_some]
      rw [containingType_eq_nearest hsh (by simp [hk])]
      exact htarget.2 htype
    | ofReturn hk hp htype =>
      obtain ⟨i, rfl⟩ := hsome hk
      simp only [expectedType, hk, hp]
      exact hreturn.trans htype
    | ofArrow hk hp htype =>
      obtain ⟨i, rfl⟩ := hsome hk
      obtain ⟨clause, hclause⟩ := hparent hp
      rw [hclause] at hp
      simp only [expectedType, hk, hclause, hp]
      exact (resultType_owner hroot hunit hclause hp).trans htype

end Places

/-- A type is only expected where an expression may follow. -/
theorem allowsExpression_of_expectedType {t : NodeTable} {declaration token : Ref}
    (h : t.expectedType declaration token ≠ none) : t.allowsExpression token := by
  simp only [expectedType] at h
  unfold allowsExpression
  split at h
  case h_6 => exact absurd rfl h
  all_goals
    rename_i hk hp
    rw [hk, hp]
    rfl

end Trees

end NodeTable

namespace Context

open NodeTable

theorem mem_told {b : Binding} {reference : Ref} {id : TypeId} :
    id ∈ told b reference ↔ id ≠ TypeId.void ∧ b.resolve reference = some id := by
  simp [told, Option.filter_eq_some_iff, and_comm]

theorem length_told_le (b : Binding) (reference : Ref) : (told b reference).length ≤ 1 := by
  rw [told]
  cases (b.resolve reference).filter (· != TypeId.void) <;> simp

/-- The types expected behind a token are those that the expected reference tells. -/
theorem toldBehind_eq (t : NodeTable) (b : Binding) (token : Ref) :
    toldBehind t b token = told b (t.expectedType (t.containingType token) token) := by
  unfold toldBehind
  split
  · rfl
  · rename_i hnot
    have hnone : t.expectedType (t.containingType token) token = none := by
      by_contra h
      exact hnot (allowsExpression_of_expectedType h)
    rw [hnone]
    rfl

/-- At most one type is expected at any place of a text, if nobody cancels the request and no walk is
cut off: the one that the type reference resolves to which the scopes around the place select, unless
that is the type of no value. -/
theorem build_infers (text : List Char) (hlimit : byteLength text < Offset.limit)
    (hsh : (NodeTable.ofText text).Shallow) (offset : Nat) {r : RequestState}
    (hr : r.Untroubled) : ∃ c,
      (Context.build (.ofText text) (Binding.ofTable (.ofText text)).model offset r).1 = .ok c ∧
      c.target = (NodeTable.ofText text).beforeTouchedWord
        ((NodeTable.ofText text).tokenBefore offset) offset ∧
      c.inferred.length ≤ 1 ∧ TypeId.void ∉ c.inferred ∧
      ∀ id, id ∈ c.inferred ↔ id ≠ TypeId.void ∧ ∃ reference,
        (NodeTable.ofText text).Expects c.target reference ∧
          (Binding.ofTable (.ofText text)).resolve (some reference) = some id := by
  have hsorted := scan_sorted text
  rw [← SourceFile.root_tokens text] at hsorted
  have hbefore : ∀ x ∈ (SourceFile.ofText text).root.tokens, x.kind ≠ .endOfFile →
      x.start + 1 < Offset.limit := by
    intro x hx hk
    rw [SourceFile.root_tokens, scan_eq_concat] at hx hsorted
    rcases List.mem_append.1 hx with hx | hx
    · have hlt : x.start < byteLength text :=
        (List.pairwise_append.1 hsorted).2.2 x hx _ (List.mem_singleton_self _)
      omega
    · rw [List.mem_singleton.1 hx] at hk
      exact absurd rfl hk
  have hexpects {token : Ref} {type : Nat} : (NodeTable.ofText text).expectedType
      ((NodeTable.ofText text).containingType token) token = some type ↔
        (NodeTable.ofText text).Expects token type := by
    rw [NodeTable.ofText_eq] at hsh ⊢
    exact expectedType_eq_some (SourceFile.root_wellFormed text) rfl hsh
      (SourceFile.root_startsAtToken text) hsorted hbefore
  refine ⟨_, (build_gathers _ _ offset r hr).1, rfl, ?_⟩
  simp only [gathered, toldBehind_eq]
  refine ⟨length_told_le _ _, fun h => (mem_told.1 h).1 rfl, fun id => ?_⟩
  rw [mem_told, and_congr_right_iff]
  intro _
  constructor
  · intro h
    obtain ⟨reference, href⟩ : ∃ reference, (NodeTable.ofText text).expectedType
        ((NodeTable.ofText text).containingType _) _ = some reference :=
      Option.ne_none_iff_exists'.1 fun hnone => by rw [hnone] at h; cases h
    rw [href] at h
    exact ⟨reference, hexpects.1 href, h⟩
  · rintro ⟨reference, href, h⟩
    rw [hexpects.2 href]
    exact h

/-- A name that a parameter, a field and local variables of two blocks have. -/
theorem build_infers_shadowed : ∃ (t : NodeTable) (c : Context),
    t = .ofText "class A{int x;void M(bool x){string x;{x = 1;}A x;}}".toList ∧
      (Context.build t (Binding.ofTable t).model 47 .quiet).1 = .ok c ∧
      c.target = t.beforeTouchedWord (t.tokenBefore 47) 47 ∧
      c.inferred.length ≤ 1 ∧ TypeId.void ∉ c.inferred ∧
      ∀ id, id ∈ c.inferred ↔ id ≠ TypeId.void ∧ ∃ reference,
        t.Expects c.target reference ∧ (Binding.ofTable t).resolve (some reference) = some id := by
  obtain ⟨c, hc⟩ := build_infers
    "class A{int x;void M(bool x){string x;{x = 1;}A x;}}".toList
    (by decide +kernel) (shallow_of_size_le (by decide +kernel)) 47 RequestState.untroubled_quiet
  exact ⟨_, c, rfl, hc⟩

end Context

end Caret
