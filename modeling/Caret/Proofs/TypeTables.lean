import Caret.Proofs.NameResolution
import Mathlib.Data.List.AList
/-!
# The tables of the types

Binding (`bind`) goes through the entries once. A type with a name gets the next identity and is put
into three tables: the list of the types, the identity of each name, which stays that of the first
type of the name, and the identity of each declaration (`Binding.Tables.add`). Every other entry is
passed over. `Binding.ofTable` has the list alone and searches it instead. After every entry the
three tables answer like that search (`Binding.Tables.Mirrors.enter`), so they do when binding is
done, and the request is polled as often (`Binding.exists_fill`). What the answers have to do with
each other is said in `Binding.Consistent` (`Binding.bind_consistent`).
-/

namespace Caret

open NodeTable Request

namespace Binding

/-! ## One pass over the entries -/

/-- What is known of the types among the entries so far. -/
structure Tables where
  types : List DeclaredType
  byName : AList fun _ : List Char => TypeId
  byDeclaration : AList fun _ : Nat => TypeId

namespace Tables

/-- No type is known yet. -/
def empty : Tables := ⟨[], ∅, ∅⟩

/-- One more type gets the next identity. Its name keeps an identity that it has. -/
def add (s : Tables) (e : DeclaredType) : Tables where
  types := s.types ++ [e]
  byName :=
    if e.name ∈ s.byName then s.byName else s.byName.insert e.name (idAt s.types.length)
  byDeclaration := s.byDeclaration.insert e.declaration (idAt s.types.length)

/-- One more entry, which is passed over unless it declares a type with a name. -/
def enter (t : NodeTable) (i : Nat) (s : Tables) : Tables :=
  match t.declaredType? i with
  | some e => s.add e
  | none => s

/-- The tables after the next `count` entries from `i` on. Before every entry whose number is a
multiple of the interval the request is polled. -/
def fillFrom (t : NodeTable) : (count i : Nat) → Tables → Request (Except ModelError Tables)
  | 0, _, s => return .ok s
  | n + 1, i, s => do
    let cancelled ← if i % pollInterval = 0 then Request.poll else pure false
    if cancelled then return .error .cancelled else fillFrom t n (i + 1) (s.enter t i)

/-- The tables of all entries. -/
def fill (t : NodeTable) : Request (Except ModelError Tables) := fillFrom t t.size 0 empty

/-- The tables answer like a binding that searches its list. -/
structure Mirrors (s : Tables) (b : Binding) : Prop where
  types : s.types = b.types
  byName : ∀ name, s.byName.lookup name = b.lookup? name
  byDeclaration : ∀ d, s.byDeclaration.lookup d = b.ofDeclaration? (some d)

end Tables

/-! ## One more type -/

/-- The binding of the first entries. -/
def ofFirst (t : NodeTable) (n : Nat) : Binding := ⟨t, (List.range n).filterMap t.declaredType?⟩

section Types

variable {t : NodeTable} {types : List DeclaredType} {e : DeclaredType} {n : Nat}

/-- An earlier type is found before the last one. -/
theorem map_findIdx?_concat (p : DeclaredType → Bool) :
    ((types ++ [e]).findIdx? p).map idAt =
      ((types.findIdx? p).map idAt).or (if p e then some (idAt types.length) else none) := by
  rw [List.findIdx?_append, Option.map_or]
  by_cases h : p e
  · simp [h]
  · simp [h]

theorem lookup?_concat (name : List Char) : (Binding.mk t (types ++ [e])).lookup? name =
    ((Binding.mk t types).lookup? name).or
      (if e.name == name then some (idAt types.length) else none) := map_findIdx?_concat _

theorem ofDeclaration?_concat (d : Nat) : (Binding.mk t (types ++ [e])).ofDeclaration? (some d) =
    ((Binding.mk t types).ofDeclaration? (some d)).or
      (if some e.declaration == some d then some (idAt types.length) else none) :=
  map_findIdx?_concat _

theorem types_ofFirst_succ :
    (ofFirst t (n + 1)).types = (ofFirst t n).types ++ (t.declaredType? n).toList := by
  unfold ofFirst
  rw [List.range_succ, List.filterMap_append]
  cases h : t.declaredType? n <;> simp [h]

/-- The next entry is not among the first ones. -/
theorem ofDeclaration?_ofFirst : (ofFirst t n).ofDeclaration? (some n) = none := by
  rw [ofDeclaration?, Option.map_eq_none_iff, List.findIdx?_eq_none_iff]
  intro e he
  obtain ⟨i, hi, hdeclared⟩ := List.mem_filterMap.1 he
  have hdeclaration := (declaredType?_eq_some hdeclared).1
  have hlt := List.mem_range.1 hi
  simp only [beq_eq_false_iff_ne, ne_eq, Option.some.injEq]
  omega

end Types

namespace Tables

variable {t : NodeTable} {types : List DeclaredType} {e : DeclaredType} {s : Tables} {n i : Nat}

theorem mirrors_empty (t : NodeTable) : empty.Mirrors (ofFirst t 0) := by
  constructor
  · rfl
  · intro name
    simp [empty, ofFirst, lookup?]
  · intro d
    simp [empty, ofFirst, ofDeclaration?]

/-- A type that is not declared yet can be added. -/
theorem Mirrors.add (h : s.Mirrors ⟨t, types⟩)
    (hnew : (Binding.mk t types).ofDeclaration? (some e.declaration) = none) :
    (s.add e).Mirrors ⟨t, types ++ [e]⟩ := by
  have htypes : s.types = types := h.types
  constructor
  case types => simp [Tables.add, htypes]
  case byName =>
    intro name
    rw [lookup?_concat, ← h.byName, Tables.add, htypes]
    by_cases hknown : e.name ∈ s.byName
    · -- the name keeps its identity
      obtain ⟨id, hid⟩ := Option.isSome_iff_exists.1 (AList.lookup_isSome.2 hknown)
      rw [if_pos hknown]
      by_cases hname : e.name = name
      · subst hname
        simp [hid]
      · simp [hname]
    · rw [if_neg hknown]
      by_cases hname : e.name = name
      · subst hname
        rw [AList.lookup_insert, AList.lookup_eq_none.2 hknown]
        simp
      · rw [AList.lookup_insert_ne (Ne.symm hname)]
        simp [hname]
  case byDeclaration =>
    intro d
    rw [ofDeclaration?_concat, ← h.byDeclaration, Tables.add, htypes]
    by_cases hd : e.declaration = d
    · -- the table would forget an earlier identity, but there is none
      subst hd
      rw [AList.lookup_insert, h.byDeclaration, hnew]
      simp
    · rw [AList.lookup_insert_ne (Ne.symm hd)]
      simp [hd]

/-- What one entry does. -/
theorem Mirrors.enter (h : s.Mirrors (ofFirst t n)) :
    (s.enter t n).Mirrors (ofFirst t (n + 1)) := by
  have hsucc : ofFirst t (n + 1) = ⟨t, (ofFirst t n).types ++ (t.declaredType? n).toList⟩ := by
    rw [← types_ofFirst_succ]
    rfl
  rw [hsucc, Tables.enter]
  cases hdeclared : t.declaredType? n with
  | none =>
    rw [Option.toList_none, List.append_nil]
    exact h
  | some e =>
    apply h.add
    rw [(declaredType?_eq_some hdeclared).1]
    exact ofDeclaration?_ofFirst

/-! ## Polls -/

/-- How often the request is polled before an entry is reached. -/
def pollsBefore (i : Nat) : Nat := (i + pollInterval - 1) / pollInterval

theorem pollsBefore_succ (i : Nat) :
    pollsBefore (i + 1) = pollsBefore i + if i % pollInterval = 0 then 1 else 0 := by
  unfold pollsBefore pollInterval
  split <;> omega

theorem pollsBefore_le (n i : Nat) : pollsBefore i ≤ pollsBefore (i + n) :=
  Nat.div_le_div_right (by omega)

/-- One more poll comes first. -/
theorem pollTimes_succ_bind {α : Type} (k : Nat) (stop next : Request α) :
    (do if ← pollTimes (k + 1) then stop else next) =
      (do if ← Request.poll then stop else if ← pollTimes k then stop else next) := by
  rw [pollTimes, bind_assoc]
  congr 1
  funext cancelled
  cases cancelled <;> simp

/-- What the next entries do: the request is polled, and then the tables are those of all entries so
far. -/
theorem exists_fillFrom (h : s.Mirrors (ofFirst t i)) :
    ∃ s' : Tables, s'.Mirrors (ofFirst t (i + n)) ∧ fillFrom t n i s = do
      if ← pollTimes (pollsBefore (i + n) - pollsBefore i) then return .error .cancelled
      else return .ok s' := by
  induction n generalizing i s with
  | zero =>
    refine ⟨s, h, ?_⟩
    simp [fillFrom, pollTimes]
  | succ n ih =>
    obtain ⟨s', hs', heq⟩ := ih h.enter
    have hle := pollsBefore_le n (i + 1)
    have hsucc := pollsBefore_succ i
    rw [show i + 1 + n = i + (n + 1) by omega] at hs' heq hle
    refine ⟨s', hs', ?_⟩
    rw [fillFrom, heq]
    by_cases hpoll : i % pollInterval = 0
    · rw [if_pos hpoll] at hsucc
      rw [show pollsBefore (i + (n + 1)) - pollsBefore i =
        pollsBefore (i + (n + 1)) - pollsBefore (i + 1) + 1 by omega,
        pollTimes_succ_bind, if_pos hpoll]
    · rw [if_neg hpoll, Nat.add_zero] at hsucc
      rw [hsucc, if_neg hpoll]
      simp

end Tables

/-- Binding is one pass over the entries. -/
theorem exists_fill (t : NodeTable) : ∃ s : Tables, s.Mirrors (ofTable t) ∧ Tables.fill t = do
    if ← pollTimes ((t.size + pollInterval - 1) / pollInterval) then return .error .cancelled
    else return .ok s := by
  obtain ⟨s, hs, heq⟩ := Tables.exists_fillFrom (n := t.size) (Tables.mirrors_empty t)
  rw [Nat.zero_add] at hs heq
  exact ⟨s, hs, heq⟩

/-! ## What the look-ups tell each other -/

/-- One of the look-ups gives the identity. -/
def HandsOut (b : Binding) (i : TypeId) : Prop :=
  i ∈ b.ids ∨ (∃ d, b.ofDeclaration? d = some i) ∨ (∃ name, b.lookup? name = some i) ∨
    ∃ offset, b.enclosing offset = some i

/-- The look-ups of a binding agree with each other and with its table. -/
structure Consistent (b : Binding) : Prop where
  /-- A type has the identity that stands for its declaration. -/
  inverse : ∀ d i, b.ofDeclaration? (some d) = some i ↔ b.declaration? i = some d
  /-- No two declarations have one identity. -/
  injective : ∀ d d' i, b.ofDeclaration? d = some i → b.ofDeclaration? d' = some i → d = d'
  /-- The classes, structs and interfaces with a name have identities, and nothing else has. -/
  bound : ∀ d, (∃ i, b.ofDeclaration? (some d) = some i) ↔ ∃ name, b.table.IsType name d
  /-- The identities are numbered one after the other. -/
  consecutive : b.ids.map (·.number) = List.range' TypeId.firstDeclared b.ids.length
  /-- Those and no others stand for declarations. -/
  numbered : ∀ i, i ∈ b.ids ↔ ∃ d, b.declaration? i = some d
  /-- A type is called as its declaration says. -/
  name : ∀ i d, b.declaration? i = some d → b.typeName? i = b.table.declaredName? (some d)
  /-- A type is of the kind of its declaration. -/
  kind : ∀ i d, b.declaration? i = some d →
    b.kind? i = (b.table.node? (some d)).bind declaredKind? ∧ b.kind? i ≠ none
  /-- A name means the type of the name with the lowest number. -/
  lookup : ∀ name i, b.lookup? name = some i ↔ i ∈ b.ids ∧ b.typeName? i = some name ∧
    ∀ j ∈ b.ids, b.typeName? j = some name → i.number ≤ j.number
  /-- A name means nothing if no type has it. -/
  unknown : ∀ name, b.lookup? name = none ↔ ∀ i ∈ b.ids, b.typeName? i ≠ some name
  /-- The numbers of built-in types are kept for them. -/
  builtIn : ∀ i : TypeId, i.number < TypeId.firstDeclared → b.declaration? i = none ∧ ¬b.HandsOut i
  /-- Only the keyword of a built-in type gives its identity. -/
  resolved : ∀ reference i, b.resolve reference = some i → i ∈ b.ids ∨ ∃ parts k,
    b.table.typeReference? reference = some parts ∧ b.table.token? parts.name = some k ∧
      TypeId.ofPredefined? k = some i

section LookUps

variable {t : NodeTable} {b : Binding} {i : TypeId} {d : Nat} {name : List Char}

theorem mem_ids : i ∈ b.ids ↔ ∃ d, b.declaration? i = some d := by
  unfold ids
  simp only [List.mem_map, List.mem_range, declaration?_eq_some]
  constructor
  · rintro ⟨place, hplace, rfl⟩
    exact ⟨_, place, _, rfl, List.getElem?_eq_getElem hplace, rfl⟩
  · rintro ⟨d, place, e, rfl, he, -⟩
    exact ⟨place, (List.getElem?_eq_some_iff.1 he).1, rfl⟩

theorem number_ids (b : Binding) :
    b.ids.map (·.number) = List.range' TypeId.firstDeclared b.ids.length := by
  unfold ids
  rw [List.map_map, List.length_map, List.length_range, List.range'_eq_map_range]
  rfl

theorem firstDeclared_le (h : i ∈ b.ids) : TypeId.firstDeclared ≤ i.number := by
  have hnumber : i.number ∈ b.ids.map (·.number) := List.mem_map_of_mem h
  rw [number_ids, List.mem_range'_1] at hnumber
  exact hnumber.1

theorem kind?_idAt (b : Binding) (place : Nat) :
    b.kind? (idAt place) = b.types[place]?.map (·.kind) := by
  unfold kind? declared? TypeId.isIntrinsic idAt
  simp only [Nat.not_lt.2 (Nat.le_add_right _ _), decide_false, Bool.false_eq_true, if_false,
    Nat.add_sub_cancel_left]

theorem kind_of_mem_types {e : DeclaredType} (h : e ∈ (ofTable t).types) :
    (t.node? (some e.declaration)).bind declaredKind? = some e.kind := by
  obtain ⟨n, -, hn⟩ := List.mem_filterMap.1 h
  simp only [declaredType?, Option.bind_eq_bind, Option.bind_eq_some_iff, Option.pure_def,
    Option.some.injEq] at hn
  obtain ⟨k, hk, kind, hkind, -, -, rfl⟩ := hn
  simp [hk, hkind]

/-- The type of an identity is in the list, and what is said of it is read off there. -/
theorem exists_type_of_declaration? (h : (ofTable t).declaration? i = some d) :
    ∃ e ∈ (ofTable t).types, e.declaration = d ∧ (ofTable t).typeName? i = some e.name ∧
      (ofTable t).kind? i = some e.kind := by
  obtain ⟨place, e, rfl, he, hd⟩ := declaration?_eq_some.1 h
  refine ⟨e, List.mem_of_getElem? he, hd, ?_, ?_⟩
  · rw [typeName?_idAt, he]
    rfl
  · rw [kind?_idAt, he]
    rfl

/-- A type with a name has an identity. -/
theorem exists_ofDeclaration? :
    (∃ i, (ofTable t).ofDeclaration? (some d) = some i) ↔ ∃ name, t.IsType name d := by
  constructor
  · rintro ⟨i, hi⟩
    obtain ⟨e, he, rfl, -⟩ := exists_type_of_declaration? (ofDeclaration?_eq_some.1 hi)
    exact ⟨e.name, isType_of_mem_types he, name_of_mem_types he⟩
  · rintro ⟨name, htype, hname⟩
    apply Option.ne_none_iff_exists'.1
    intro hnone
    rw [ofDeclaration?_eq_none htype, hname] at hnone
    cases hnone

/-- The type that a name means has the lowest number. -/
theorem lookup?_eq_some_iff : b.lookup? name = some i ↔ i ∈ b.ids ∧ b.typeName? i = some name ∧
    ∀ j ∈ b.ids, b.typeName? j = some name → i.number ≤ j.number := by
  rw [lookup?_eq_some]
  constructor
  · rintro ⟨place, e, rfl, he, rfl, hfirst⟩
    refine ⟨mem_ids.2 ⟨_, declaration?_eq_some.2 ⟨place, e, rfl, he, rfl⟩⟩, ?_, ?_⟩
    · rw [typeName?_idAt, he]
      rfl
    · intro j hj hname
      obtain ⟨d, hd⟩ := mem_ids.1 hj
      obtain ⟨place', e', rfl, he', -⟩ := declaration?_eq_some.1 hd
      rw [typeName?_idAt, he'] at hname
      exact Nat.add_le_add_left (hfirst place' e' he' (Option.some.inj hname)) _
  · rintro ⟨hi, hname, hfirst⟩
    obtain ⟨d, hd⟩ := mem_ids.1 hi
    obtain ⟨place, e, rfl, he, -⟩ := declaration?_eq_some.1 hd
    rw [typeName?_idAt, he] at hname
    refine ⟨place, e, rfl, he, Option.some.inj hname, fun place' e' he' hname' => ?_⟩
    have hmem : idAt place' ∈ b.ids :=
      mem_ids.2 ⟨_, declaration?_eq_some.2 ⟨place', e', rfl, he', rfl⟩⟩
    have hle := hfirst _ hmem (by rw [typeName?_idAt, he', ← hname']; rfl)
    exact Nat.le_of_add_le_add_left hle

theorem lookup?_eq_none_iff : b.lookup? name = none ↔ ∀ i ∈ b.ids, b.typeName? i ≠ some name := by
  constructor
  · intro hnone i hi hname
    obtain ⟨d, hd⟩ := mem_ids.1 hi
    have hsome := lookup?_isSome hd hname
    rw [hnone] at hsome
    cases hsome
  · intro hno
    by_contra hsome
    obtain ⟨i, hi⟩ := Option.ne_none_iff_exists'.1 hsome
    obtain ⟨hmem, hname, -⟩ := lookup?_eq_some_iff.1 hi
    exact hno i hmem hname

theorem mem_ids_of_ofDeclaration? {d : Ref} (h : (ofTable t).ofDeclaration? d = some i) :
    i ∈ (ofTable t).ids := by
  cases d with
  | none =>
    rw [ofDeclaration?_none] at h
    cases h
  | some d => exact mem_ids.2 ⟨d, ofDeclaration?_eq_some.1 h⟩

theorem mem_ids_of_handsOut (h : (ofTable t).HandsOut i) : i ∈ (ofTable t).ids := by
  rcases h with h | ⟨d, h⟩ | ⟨name, h⟩ | ⟨offset, h⟩
  · exact h
  · exact mem_ids_of_ofDeclaration? h
  · exact (lookup?_eq_some_iff.1 h).1
  · rw [enclosing_eq] at h
    exact mem_ids_of_ofDeclaration? h

theorem mem_ids_of_lookupFrom {entry : Ref} (h : (ofTable t).lookupFrom entry name = some i) :
    i ∈ (ofTable t).ids := by
  unfold lookupFrom at h
  split at h
  · exact mem_ids_of_ofDeclaration? h
  · exact (lookup?_eq_some_iff.1 h).1

/-- A type reference means a declared type unless it is a keyword. -/
theorem resolve_cases {reference : Ref} (h : (ofTable t).resolve reference = some i) :
    i ∈ (ofTable t).ids ∨ ∃ parts k, t.typeReference? reference = some parts ∧
      t.token? parts.name = some k ∧ TypeId.ofPredefined? k = some i := by
  unfold resolve at h
  split at h
  · cases h
  · rename_i parts hparts
    split at h
    · cases h
    · split at h
      · rename_i id hid
        obtain ⟨k, hk, hpredefined⟩ := Option.bind_eq_some_iff.1 hid
        exact .inr ⟨parts, k, hparts, hk, hpredefined.trans h⟩
      · obtain ⟨name, -, hname⟩ := Option.bind_eq_some_iff.1 h
        exact .inl (mem_ids_of_lookupFrom hname)

theorem consistent_ofTable (t : NodeTable) : (ofTable t).Consistent := by
  constructor
  case inverse => exact fun d i => ofDeclaration?_eq_some
  case injective =>
    intro d d' i h h'
    cases d with
    | none => rw [ofDeclaration?_none] at h; cases h
    | some d =>
      cases d' with
      | none => rw [ofDeclaration?_none] at h'; cases h'
      | some d' => rw [← ofDeclaration?_eq_some.1 h, ← ofDeclaration?_eq_some.1 h']
  case bound => exact fun d => exists_ofDeclaration?
  case consecutive => exact number_ids _
  case numbered => exact fun i => mem_ids
  case name =>
    intro i d h
    obtain ⟨e, he, rfl, hname, -⟩ := exists_type_of_declaration? h
    rw [hname]
    exact (name_of_mem_types he).symm
  case kind =>
    intro i d h
    obtain ⟨e, he, rfl, -, hkind⟩ := exists_type_of_declaration? h
    rw [hkind]
    exact ⟨(kind_of_mem_types he).symm, by simp⟩
  case lookup => exact fun name i => lookup?_eq_some_iff
  case unknown => exact fun name => lookup?_eq_none_iff
  case builtIn =>
    intro i hi
    have hnot : i ∉ (ofTable t).ids := fun h => Nat.not_lt.2 (firstDeclared_le h) hi
    refine ⟨?_, fun h => hnot (mem_ids_of_handsOut h)⟩
    by_contra hsome
    exact hnot (mem_ids.2 (Option.ne_none_iff_exists'.1 hsome))
  case resolved => exact fun reference i => resolve_cases

end LookUps

/-- If nobody cancels the request then binding succeeds, its look-ups agree, and the tables that one
pass over the entries fills answer like them. -/
theorem bind_consistent (t : NodeTable) {r : RequestState} (hr : r.Untroubled) :
    ∃ (b : Binding) (s : Tables), (bind t r).1 = .ok b ∧ b.table = t ∧ b.Consistent ∧
      (Tables.fill t r).1 = .ok s ∧ s.Mirrors b := by
  obtain ⟨s, hs, hfill⟩ := exists_fill t
  have hanswers : Answers (Tables.fill t) (.ok s) := by
    rw [hfill]
    exact .bind (pollTimes_answers _) (.pure _)
  exact ⟨ofTable t, s, (bind_answers t r hr).1, rfl, consistent_ofTable t, (hanswers r hr).1, hs⟩

/-- A class, a struct without a name, and an interface with the name of the class. -/
def twiceText : List Char := "class A\x7b\x7dstruct\x7b\x7dinterface A\x7b\x7d".toList

/-- The interface has the number after that of the class, the struct has none, and the name means the
class. -/
theorem bind_consistent_twice : ∃ (b : Binding) (s : Tables),
    (bind (.ofText twiceText) .quiet).1 = .ok b ∧
      (Tables.fill (.ofText twiceText) .quiet).1 = .ok s ∧
      s.byDeclaration.lookup 13 = some ⟨101⟩ ∧ b.kind? ⟨101⟩ = some .interfaceType ∧
      b.typeName? ⟨101⟩ = some ['A'] ∧ (∀ i, b.ofDeclaration? (some 8) ≠ some i) ∧
      s.byName.lookup ['A'] = some ⟨100⟩ := by
  obtain ⟨b, s, hb, -, hconsistent, hs, hmirrors⟩ :=
    bind_consistent (.ofText twiceText) RequestState.untroubled_quiet
  obtain rfl : ofTable (.ofText twiceText) = b :=
    Except.ok.inj ((bind_answers _ _ RequestState.untroubled_quiet).1.symm.trans hb)
  have hdeclared : (ofTable (.ofText twiceText)).declaration? ⟨101⟩ = some 13 := by decide +kernel
  refine ⟨_, s, hb, hs, ?_, ?_, ?_, ?_, ?_⟩
  · rw [hmirrors.byDeclaration]
    exact (hconsistent.inverse 13 ⟨101⟩).2 hdeclared
  · rw [(hconsistent.kind _ _ hdeclared).1]
    decide +kernel
  · rw [hconsistent.name _ _ hdeclared]
    decide +kernel
  · intro i hi
    obtain ⟨name, -, hname⟩ := (hconsistent.bound 8).1 ⟨i, hi⟩
    have hnone : (NodeTable.ofText twiceText).declaredName? (some 8) = none := by decide +kernel
    change (NodeTable.ofText twiceText).declaredName? (some 8) = some name at hname
    rw [hnone] at hname
    cases hname
  · rw [hmirrors.byName]
    decide +kernel

end Binding

end Caret
