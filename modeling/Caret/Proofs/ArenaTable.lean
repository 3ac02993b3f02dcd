import Caret.Arena.Basic
/-!
# Arenas as tables

What a step does to an arena it does to the table of the arena: the steps on tables
(`Caret.Table.Edit`) are the steps on arenas, as they look from outside (`table_addToken`,
`table_addNode`, `table_adopt`). For that the arena has to be sound: as many parents as headers,
and all data that headers point to in their pools. Every step keeps it so.
-/

namespace Caret

namespace Pools

theorem count_push (p : Pools) (d : Data) (s : Shape) :
    (p.push d).count s = p.count s + if d.shape? = some s then 1 else 0 := by
  cases d <;> cases s <;> simp [push, count, Data.shape?]

theorem count_le_push (p : Pools) (d : Data) (s : Shape) : p.count s ≤ (p.push d).count s := by
  rw [count_push]
  exact Nat.le_add_right _ _

/-- Data stay where they are. -/
theorem get?_push_of_lt {p : Pools} {s : Shape} {n : Nat} (h : n < p.count s) (d : Data) :
    (p.push d).get? s n = p.get? s n := by
  have hn := Nat.ne_of_lt h
  cases s <;> cases d <;> simp only [push, get?, count, Array.getElem?_push] at hn ⊢ <;>
    rw [if_neg hn]

/-- New data stand at the end of their pool. -/
theorem get?_push_count {d : Data} {s : Shape} (p : Pools) (h : d.shape? = some s) :
    (p.push d).get? s (p.count s) = some d := by
  cases d <;> cases h <;> simp [push, get?, count]

end Pools

namespace Arena

structure Sound (a : Arena) : Prop where
  infos : a.infos.size = a.headers.size
  places : ∀ {i : Nat} {h : Header} {s : Shape} {n : Nat}, a.headers[i]? = some h →
    h.kind.shape? = some s → h.place = some n → n < a.pools.count s

theorem sound_empty : empty.Sound := ⟨rfl, by simp [empty]⟩

variable {a : Arena}

theorem getElem?_entries (a : Arena) (i : Nat) : a.table.entries[i]? =
    a.headers[i]?.bind fun h => a.infos[i]?.map (entry a.pools h) := by
  rw [table, Array.getElem?_zipWith]
  cases a.headers[i]? <;> cases a.infos[i]? <;> rfl

theorem size_table (h : a.Sound) : a.table.size = a.size := by
  simp [NodeTable.size, table, size, h.infos]

theorem token?_table (h : a.Sound) (i : Ref) : a.table.token? i = a.token? i := by
  cases i with
  | none => rfl
  | some n =>
    simp only [NodeTable.token?, NodeTable.kind?, NodeTable.get?, token?, Option.bind_some,
      getElem?_entries]
    cases hh : a.headers[n]? with
    | none => rfl
    | some header =>
      have hn : n < a.infos.size := by
        rw [h.infos]
        exact (Array.getElem?_eq_some_iff.1 hh).1
      simp [hn, entry]

/-! ## One more entry -/

/-- Data fit a kind if accessors for the kind look for them in the right pool. -/
def Fits (kind : Kind) (data : Data) : Prop := ∀ s, data.shape? = some s → kind.shape? = some s

section Push

variable {kind : Kind} {data : Data} (h : a.Sound) (hd : Fits kind data) (span : Span)

theorem data_of_fits (p : Pools) (hd : Fits kind data) :
    Arena.data (p.push data) ⟨kind, span, data.shape?.map p.count⟩ = data := by
  cases hs : data.shape? with
  | none =>
    have hnone : data = .none := by
      cases data <;> first | rfl | cases hs
    rw [hnone, Arena.data]
    simp
  | some s =>
    rw [Arena.data, hd s hs]
    simp [Pools.get?_push_count _ hs]

include h

theorem sound_push (kind : Kind) (span : Span) (hd : Fits kind data) :
    (a.push kind span data).Sound := by
  refine ⟨by simp [push, h.infos], fun {i header s n} hi hs hn => ?_⟩
  simp only [push, Array.getElem?_push] at hi
  split at hi
  · cases hi
    simp only [Option.map_eq_some_iff] at hn
    obtain ⟨s', hs', rfl⟩ := hn
    obtain rfl : s' = s := Option.some.inj ((hd s' hs').symm.trans hs)
    simp [push, Pools.count_push, hs']
  · exact Nat.lt_of_lt_of_le (h.places hi hs hn) (Pools.count_le_push _ _ _)

theorem data_push (d : Data) {i : Nat} {header : Header} (hi : a.headers[i]? = some header) :
    Arena.data (a.pools.push d) header = Arena.data a.pools header := by
  unfold Arena.data
  split
  · rename_i s n hs hn
    simp only [Pools.get?_push_of_lt (h.places hi hs hn)]
  · rfl

theorem entries_push (hd : Fits kind data) : (a.push kind span data).table.entries =
    a.table.entries.push { kind, span, parent := none, modifiers := .none, data } := by
  have hsize : a.table.entries.size = a.headers.size := size_table h
  refine Array.ext_getElem? fun i => ?_
  rw [getElem?_entries, Array.getElem?_push, hsize, getElem?_entries]
  simp only [push, Array.getElem?_push, h.infos]
  by_cases hi : i = a.headers.size
  · simp only [if_pos hi, Option.bind_some, Option.map_some, entry, data_of_fits span _ hd]
  · simp only [if_neg hi]
    cases hh : a.headers[i]? with
    | none => rfl
    | some header =>
      simp only [Option.bind_some]
      congr 1
      funext info
      simp only [entry, data_push h data hh]

end Push

section Steps

variable (h : a.Sound)

include h

/-! ## Tokens and nodes -/

omit h in
theorem modify_push_size {α : Type} (xs : Array α) (x : α) (f : α → α) :
    (xs.push x).modify xs.size f = xs.push (f x) := by
  refine Array.ext_getElem? fun i => ?_
  rw [Array.getElem?_modify, Array.getElem?_push, Array.getElem?_push]
  by_cases hi : xs.size = i
  · simp [hi]
  · simp [hi, Ne.symm hi]

omit h in
theorem fits_ofToken (kind : TokenKind) (text : Option (List Char)) :
    Fits (.token kind) (.ofToken kind text) := by
  intro s hs
  unfold Data.ofToken at hs
  split at hs
  · exact hs
  · cases hs

theorem sound_addToken (kind : TokenKind) (span : Span) (text : Option (List Char)) :
    (a.addToken kind span text).Sound := by
  have hs := sound_push h _ span (fits_ofToken kind text)
  exact ⟨hs.infos, hs.places⟩

theorem table_addToken (kind : TokenKind) (span : Span) (text : Option (List Char)) :
    (a.addToken kind span text).table = a.table.addToken kind span text := by
  have hsize : a.table.entries.size = a.size := size_table h
  have hentries := entries_push h span (fits_ofToken kind text)
  simp only [NodeTable.addToken, hsize, ← hentries]
  rfl

omit h in
theorem entries_flag (a : Arena) (i : Nat) (listed : Option (List Ref)) :
    (a.flag i listed).table.entries = a.table.entries.modify i fun e =>
      { e with modifiers := .ofKinds ((listed.getD []).filterMap a.token?) } := by
  refine Array.ext_getElem? fun j => ?_
  rw [Array.getElem?_modify, getElem?_entries, getElem?_entries]
  simp only [flag, Array.getElem?_modify]
  by_cases hj : i = j
  · simp only [if_pos hj]
    cases a.headers[j]? <;> cases a.infos[j]? <;> rfl
  · simp only [if_neg hj]

theorem sound_addNode {kind : NodeKind} {data : Data} (span : Span) (hd : Fits (.node kind) data) :
    (a.addNode kind span data).Sound := by
  have hs := sound_push h _ span hd
  exact ⟨by simpa [addNode, flag] using hs.infos, hs.places⟩

theorem table_addNode {kind : NodeKind} {data : Data} (span : Span) (hd : Fits (.node kind) data) :
    (a.addNode kind span data).table = a.table.addNode (.node kind) span data.modifiers? data := by
  have hsize : a.table.entries.size = a.size := size_table h
  let e : Entry := { kind := .node kind, span, parent := none, modifiers := .none, data }
  have htable : (a.push (.node kind) span data).table =
      { a.table with entries := a.table.entries.push e } := by
    rw [← entries_push h span hd]
    rfl
  have htoken := funext (token?_table (sound_push h _ span hd))
  have hentries := entries_flag (a.push (.node kind) span data) a.size data.modifiers?
  rw [← htoken, htable, ← hsize, modify_push_size] at hentries
  simp only [NodeTable.addNode, ← hentries, hsize, e]
  rfl

/-! ## Adoption -/

omit h in
/-- A loop over some places changes what stands there, and nothing else. -/
theorem getElem?_modifyAll {α : Type} (xs : Array α) (f : α → α) (first count i : Nat) :
    ((List.range' first count).foldl (fun xs i => xs.modify i f) xs)[i]? =
      if first ≤ i ∧ i < first + count then xs[i]?.map f else xs[i]? := by
  induction count with
  | zero => simp [show ¬(first ≤ i ∧ i < first) by omega]
  | succ count ih =>
    rw [List.range'_concat, List.foldl_append, Nat.one_mul]
    simp only [List.foldl_cons, List.foldl_nil, Array.getElem?_modify, ih]
    by_cases hi : first + count = i
    · simp [hi, show first ≤ i by omega, show i < first + (count + 1) by omega]
    · rw [if_neg hi]
      congr 1
      exact propext (by omega)

theorem sound_adopt (first : Nat) (parent : Ref) : (a.adopt first parent).Sound := by
  have hsize (is : List Nat) (infos : Array Info) :
      (is.foldl (fun infos i => infos.modify i (Info.adoptedBy parent)) infos).size =
        infos.size := by
    induction is generalizing infos with
    | nil => rfl
    | cons i is ih => rw [List.foldl_cons, ih, Array.size_modify]
  exact ⟨(hsize _ _).trans h.infos, h.places⟩

theorem table_adopt (first : Nat) (parent : Ref) :
    (a.adopt first parent).table = a.table.adopt first parent := by
  have hsize : a.table.entries.size = a.infos.size := (size_table h).trans h.infos.symm
  have hentries : (a.adopt first parent).table.entries =
      (a.table.adopt first parent).entries := by
    refine Array.ext_getElem? fun i => ?_
    simp only [NodeTable.adopt, Array.getElem?_mapIdx, getElem?_entries, adopt, getElem?_modifyAll,
      hsize]
    cases a.headers[i]? with
    | none => rfl
    | some header =>
      cases hinfo : a.infos[i]? with
      | none => simp
      | some info =>
        have hi : i < a.infos.size := (Array.getElem?_eq_some_iff.1 hinfo).1
        by_cases hrange : first ≤ i ∧ i < parent.getD a.infos.size
        · rw [if_pos (by omega)]
          cases hp : info.parent <;> simp [hrange, entry, Info.adoptedBy, hp]
        · rw [if_neg (by omega)]
          have hrange' : ¬(first ≤ i && i < parent.getD a.infos.size) = true := by simpa using hrange
          simp [hrange', entry]
  have htable : (a.adopt first parent).table =
      { a.table with entries := (a.adopt first parent).table.entries } := rfl
  rw [htable, hentries]
  rfl

end Steps

end Arena

end Caret
