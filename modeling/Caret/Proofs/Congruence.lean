import Caret.Context.Expected
import Caret.Proofs.SameTokens
import Caret.Types.Binding
/-!
# Tables that differ in their spans only

Most questions about a table do not look at the spans of its entries, so tables that are the same
but for those (`Congruent`) answer them alike. There is one lemma for each question, in the order of
the definitions.
-/

namespace Caret.NodeTable

/-- The tables are the same but for the spans of their entries. -/
structure Congruent (t u : NodeTable) : Prop where
  size : t.size = u.size
  kind : t.kind? = u.kind?
  parent : t.parent = u.parent
  modifiers : t.modifiers = u.modifiers
  data : t.data = u.data
  tokens : t.tokens = u.tokens
  root : t.root = u.root

/-! ## Tables that match -/

namespace Matches

variable {f g : ℕ ↪o ℕ} {t u : NodeTable}

theorem get (h : Matches f g t u) (i : Ref) :
    (t.get? i).map (Entry.moved f) = (u.get? i).map (Entry.moved g) := by
  cases i with
  | none => rfl
  | some i => exact getElem?_matches h.entries i

/-- A reference leads nowhere in both tables, or to entries that differ in their spans only. -/
theorem get_cases (h : Matches f g t u) (i : Ref) :
    (t.get? i = none ∧ u.get? i = none) ∨
      ∃ d e, t.get? i = some d ∧ u.get? i = some e ∧ d.moved f = e.moved g := by
  have hget := h.get i
  cases ht : t.get? i with
  | none =>
    cases hu : u.get? i with
    | none => exact .inl ⟨rfl, rfl⟩
    | some e => simp [ht, hu] at hget
  | some d =>
    cases hu : u.get? i with
    | none => simp [ht, hu] at hget
    | some e =>
      rw [ht, hu, Option.map_some, Option.map_some, Option.some.injEq] at hget
      exact .inr ⟨d, e, rfl, rfl, hget⟩

/-- What does not look at the span of an entry is the same. -/
theorem map_get {α : Type} (h : Matches f g t u) (read : Entry → α)
    (hread : ∀ (e : Entry) span, read { e with span } = read e) (i : Ref) :
    (t.get? i).map read = (u.get? i).map read := by
  have hmoved (f : ℕ ↪o ℕ) (o : Option Entry) :
      o.map read = (o.map (Entry.moved f)).map read := by
    rw [Option.map_map]
    exact congrArg (o.map ·) (funext fun e => (hread e _).symm)
  rw [hmoved f, h.get, ← hmoved g]

theorem map_data (h : Matches f g t u) :
    t.entries.toList.map (·.data) = u.entries.toList.map (·.data) := by
  have hdata := congrArg (List.map Entry.data) h.entries
  rw [List.map_map, List.map_map] at hdata
  exact hdata

theorem dataOfShape_eq (h : Matches f g t u) (shape : Shape) :
    t.dataOfShape shape = u.dataOfShape shape := by
  rw [dataOfShape, dataOfShape, h.map_data]

theorem rank_eq (h : Matches f g t u) (shape : Shape) (i : Nat) :
    t.rank shape i = u.rank shape i := by
  have hcount (t : NodeTable) : t.rank shape i =
      ((t.entries.toList.map (·.data)).take i).countP (·.shape? == some shape) := by
    rw [← List.map_take, List.countP_map]
    rfl
  rw [hcount, hcount, h.map_data]

theorem data_eq (h : Matches f g t u) (i : Ref) : t.data i = u.data i := by
  cases i with
  | none => rfl
  | some i =>
    unfold data
    rcases h.get_cases (some i) with ⟨ht, hu⟩ | ⟨d, e, ht, hu, hde⟩
    · simp only [ht, hu]
    · have hkind : d.kind = e.kind := congrArg (·.kind) hde
      have hdata : d.data = e.data := congrArg (·.data) hde
      simp only [ht, hu, hkind, hdata, h.dataOfShape_eq, h.rank_eq]

theorem congruent (h : Matches f g t u) : Congruent t u where
  size := size_matches h.entries
  kind := funext (h.map_get Entry.kind fun _ _ => rfl)
  parent := by
    funext i
    have hparent := h.map_get Entry.parent (fun _ _ => rfl) i
    have hbind (o : Option Entry) : o.bind (·.parent) = (o.map Entry.parent).join := by
      cases o <;> rfl
    rw [NodeTable.parent, NodeTable.parent, hbind, hparent, ← hbind]
  modifiers := by
    funext i
    rw [NodeTable.modifiers, NodeTable.modifiers,
      h.map_get Entry.modifiers (fun _ _ => rfl) i]
  data := funext h.data_eq
  tokens := h.tokens
  root := h.root

end Matches

/-! ## Questions that do not look at spans -/

namespace Congruent

variable {t u : NodeTable}

section

variable (h : Congruent t u)

include h

theorem token_eq : t.token? = u.token? := by
  funext i
  rw [token?, token?, h.kind]

theorem node_eq : t.node? = u.node? := by
  funext i
  rw [node?, node?, h.kind]

theorem isNode_eq : t.isNode = u.isNode := by
  funext p i
  rw [isNode, isNode, h.node_eq]

theorem isStatic_eq : t.isStatic = u.isStatic := by
  funext i
  rw [isStatic, isStatic, h.modifiers]

theorem walk_eq (n : Nat) (i : Ref) : t.walk n i = u.walk n i := by
  induction n generalizing i with
  | zero => rfl
  | succ n ih =>
    rw [walk, walk, h.parent]
    cases u.parent i with
    | none => rfl
    | some p => exact congrArg (p :: ·) (ih _)

theorem ancestors_eq : t.ancestors = u.ancestors := funext (h.walk_eq walkLimit)

theorem nodeAbove_eq : t.nodeAbove = u.nodeAbove := by
  funext i p
  rw [nodeAbove, nodeAbove, ancestor?, ancestor?, h.ancestors_eq, h.kind]

theorem declaredName_eq : t.declaredName? = u.declaredName? := by
  funext i
  simp only [declaredName?, name?, h.data]

/-! ### What is around a token -/

theorem containingType_eq : t.containingType = u.containingType := by
  funext i
  rw [containingType, containingType, h.nodeAbove_eq, h.token_eq, h.parent]

theorem containingMember_eq : t.containingMember = u.containingMember := by
  funext i
  rw [containingMember, containingMember, h.nodeAbove_eq, h.isNode_eq, h.parent]

theorem inInstance_eq : t.inInstance = u.inInstance := by
  funext i
  rw [inInstance, inInstance, h.containingMember_eq, h.isStatic_eq]

theorem inAttribute_eq : t.inAttribute = u.inAttribute := by
  funext i
  rw [inAttribute, inAttribute, h.nodeAbove_eq]

theorem allowsStatement_eq : t.allowsStatement = u.allowsStatement := by
  funext i
  rw [allowsStatement, allowsStatement, h.parent, h.kind, h.isNode_eq, h.token_eq]

theorem allowsExpression_eq : t.allowsExpression = u.allowsExpression := by
  funext i
  rw [allowsExpression, allowsExpression, h.parent, h.token_eq, h.node_eq]

theorem isParameterList_eq : t.isParameterList = u.isParameterList := by
  funext i
  rw [isParameterList, isParameterList, h.parent, h.node_eq, h.isNode_eq]

theorem allowsArgumentModifier_eq : t.allowsArgumentModifier = u.allowsArgumentModifier := by
  funext i
  rw [allowsArgumentModifier, allowsArgumentModifier, h.parent, h.token_eq, h.node_eq,
    h.inAttribute_eq]

theorem constructorOfColon_eq : t.constructorOfColon = u.constructorOfColon := by
  funext i
  rw [constructorOfColon, constructorOfColon, h.parent, h.token_eq, h.node_eq]

/-! ### Declared types -/

theorem resultType_eq : t.resultType = u.resultType := by
  funext i
  simp only [resultType, method?, property?, h.node_eq, h.data]

theorem declaresVariable_eq : t.declaresVariable = u.declaresVariable := by
  funext i name
  simp only [declaresVariable, variableList?, declarator?, name?, h.data]

theorem variableType_eq : t.variableType = u.variableType := by
  funext i name
  simp only [variableType, variableList?, h.declaresVariable_eq, h.data]

theorem parametersOf_eq : t.parametersOf = u.parametersOf := by
  funext i
  simp only [parametersOf, method?, constructor?, list?, h.data]

theorem parameterType_eq : t.parameterType = u.parameterType := by
  funext name i
  simp only [parameterType, parameter?, name?, h.parametersOf_eq, h.data]

theorem memberTypeIn_eq : t.memberTypeIn = u.memberTypeIn := by
  funext name i
  simp only [memberTypeIn, property?, name?, h.node_eq, h.variableType_eq, h.data]

theorem memberType_eq : t.memberType = u.memberType := by
  funext i name
  simp only [memberType, type?, h.memberTypeIn_eq, h.data]

/-! ### Types of the text -/

theorem declaredType_eq : t.declaredType? = u.declaredType? := by
  funext i
  rw [declaredType?, declaredType?, h.node_eq, h.declaredName_eq]

theorem types_eq : (Binding.ofTable t).types = (Binding.ofTable u).types := by
  rw [Binding.ofTable, Binding.ofTable, h.declaredType_eq, h.size]

theorem membersOf_eq : Binding.membersOf t = Binding.membersOf u := by
  funext i
  simp only [Binding.membersOf, space?, list?, type?, h.node_eq, h.data]

theorem typeIn_eq : Binding.typeIn t = Binding.typeIn u := by
  funext name i
  rw [Binding.typeIn, Binding.typeIn, h.membersOf_eq, h.isNode_eq, h.declaredName_eq]

theorem ofDeclaration_eq :
    (Binding.ofTable t).ofDeclaration? = (Binding.ofTable u).ofDeclaration? := by
  funext i
  rw [Binding.ofDeclaration?, Binding.ofDeclaration?, h.types_eq]

theorem lookupFrom_eq : (Binding.ofTable t).lookupFrom = (Binding.ofTable u).lookupFrom := by
  funext i name
  have htable (t : NodeTable) : (Binding.ofTable t).table = t := rfl
  simp only [Binding.lookupFrom, Binding.lookup?, htable, h.ancestors_eq, h.typeIn_eq, h.types_eq,
    h.ofDeclaration_eq]

/-- The types that references name are the same. -/
theorem resolve_eq : (Binding.ofTable t).resolve = (Binding.ofTable u).resolve := by
  funext i
  have htable (t : NodeTable) : (Binding.ofTable t).table = t := rfl
  simp only [Binding.resolve, h.lookupFrom_eq, htable, typeReference?, name?, h.token_eq, h.data]

end

end Congruent

end Caret.NodeTable
