import Caret.Builder.SourceFile
import Caret.Proofs.BuiltDeclarations
/-!
# The arena of a text

When a text is read, each entry is put into the arena without a parent, and gets one when the node
is finished that holds it. What is left in the end is the table of the syntax tree of the text
(`NodeTable.ofText_eq`), with the diagnostics of the parser (`State.diagnostics_ofText`). So the
entries stand in post-order, and all but the root have got a parent (`NodeTable.ofText_postOrder`).

A text that is read again from where it ends adds an empty root to the arena (`State.table_again`).
-/

namespace Caret

namespace Builder

variable {a : Arena} {d : Cursor}

theorem builds_declarations {P : Cursor → Prop} :
    Builds P Grammar.declarations declarations (Gathers .item) := by
  refine .look fun c _ => ?_
  rw [c.length_rest_withEnd]
  exact (builds_parts (Grammar.declares_namespaceMember c.rest) (builds_namespaceMember c.rest) rfl
    (by decide) rfl _).mono (by rintro _ rfl; exact Nat.le_refl _)

/-- The end of the file is read where no other token is left. -/
theorem token_endOfFile (h : d.rest = []) : (token (d.state a)).2 =
    { d with arena := a.plant (.leaf .loose (.endOfFile d.length)) } := by
  simp only [token, Cursor.state, Cursor.withEnd, h, List.nil_append]
  cases d
  cases h
  rfl

/-- The state in which a file is read to its end, where the root is planted in the arena. -/
def readThrough (d : Cursor) (root : Tree) : State :=
  { d with arena := { Arena.empty.plant root with root := some (root.size - 1) } }

/-- The root of a file holds the parts that are listed and the end of the file. -/
theorem run_root {ts : List Tree} {refs : List Ref} (offset : Nat) (t : Token)
    (h : Gathers .item (Tree.placed 0 ts) refs) (d : Cursor) :
    (root ⟨0, offset⟩ refs
      { d with arena := (Arena.empty.plantAll ts).plant (.leaf .loose t) }).2 =
        readThrough d (.node .loose .compilationUnit ⟨offset, d.length⟩ (ts ++ [.leaf .loose t])) := by
  have hdata : .list refs = Data.ofChildren .compilationUnit
      (Tree.placed Arena.empty.size (ts ++ [.leaf .loose t])) := by
    rw [Tree.placed_append]
    exact list_ofChildren (h.append_idle (by simp [Tree.placed, Tree.slot, Idle])) rfl
  have hplanted : (Arena.empty.plantAll ts).plant (.leaf .loose t) =
      Arena.empty.plantAll (ts ++ [.leaf .loose t]) := by
    rw [Arena.plantAll_append, Arena.plantAll, Arena.plantAll]
  have hsize : Tree.sizes (ts ++ [.leaf .loose t]) =
      (Arena.empty.plantAll (ts ++ [.leaf .loose t])).size := by
    rw [Arena.size_plantAll]
    exact (Nat.zero_add _).symm
  rw [hplanted, readThrough, Tree.size, Nat.add_sub_cancel, hsize, Arena.plant, ← hdata]
  rfl

/-- A file that ends where its declarations do is read as a whole, and the arena is filled with its
tree. -/
theorem run_sourceFile {c : Cursor} {ts : List Tree} (h : Grammar.declarations c = (ts, d))
    (hend : d.rest = []) :
    (sourceFile (c.state .empty)).2 = readThrough d (.node .loose .compilationUnit
      ⟨c.next.start, d.length⟩ (ts ++ [.leaf .loose (.endOfFile d.length)])) := by
  obtain ⟨hstate, hitems⟩ := builds_declarations (P := Parser.Any) .empty c trivial
  rw [h] at hstate hitems
  have hdeclarations : (declarations (c.state .empty)).2 = d.state (Arena.empty.plantAll ts) := hstate
  have hrun := Makes.run_bind hdeclarations fun members => token >>= fun _ =>
    root ⟨0, c.next.start⟩ members
  have hroot := Makes.run_bind (token_endOfFile (a := Arena.empty.plantAll ts) hend) fun _ =>
    root ⟨0, c.next.start⟩ (declarations (c.state .empty)).1
  unfold sourceFile
  rw [Builds.run_start]
  exact (congrArg Prod.snd (hrun.trans hroot)).trans (run_root _ _ hitems d)

end Builder

namespace State

variable (text : List Char)

theorem startOf_eq : startOf text = (Grammar.startOf text).state .empty := by
  unfold startOf Cursor.state Cursor.withEnd Grammar.startOf
  rw [← scan_eq_concat]

theorem ofText_eq : ofText text = Builder.readThrough (Grammar.declarations (Grammar.startOf text)).2
    (SourceFile.ofText text).root := by
  have hlength := (SourceFile.reads_declarations text).length_eq
  have hrest := SourceFile.rest_declarations text
  rw [ofText, startOf_eq, SourceFile.ofText]
  cases h : Grammar.declarations (Grammar.startOf text) with
  | mk ts d =>
    rw [h] at hlength hrest
    rw [Builder.run_sourceFile h hrest]
    rw [hlength]

theorem diagnostics_ofText :
    (ofText text).diagnostics.reverse = (SourceFile.ofText text).diagnostics := by
  rw [ofText_eq]
  rfl

end State

namespace NodeTable

/-- What the parser leaves in the arena is the table of the syntax tree. -/
theorem ofText_eq (text : List Char) : ofText text = ofTree (SourceFile.ofText text).root := by
  rw [ofText, State.ofText_eq, ← Arena.table_plant (SourceFile.root_wellFormed text)]
  rfl

/-- The table of a text is a tree in post-order: all entries but the last have a parent behind them,
and what is below an entry stands right before it. -/
theorem ofText_postOrder (text : List Char) :
    0 < (ofText text).size ∧
    (ofText text).root = some ((ofText text).size - 1) ∧
    (ofText text).parent (ofText text).root = none ∧
    (∀ i, i + 1 < (ofText text).size →
      ∃ p, (ofText text).parent (some i) = some p ∧ i < p ∧ p < (ofText text).size) ∧
    ∀ n < (ofText text).size, ∃ first ≤ n, ∀ m,
      (ofText text).Below m n ↔ first ≤ m ∧ m ≤ n := by
  rw [ofText_eq]
  generalize (SourceFile.ofText text).root = root
  have hsize := size_ofTree root
  have hpos := root.size_pos
  have hroot := Tree.self_mem_sites none 0 root
  have hindex : Site.index ⟨none, 0, root⟩ = (ofTree root).size - 1 := by
    simp [Site.index, hsize]
  refine ⟨by omega, by rw [root_ofTree, hsize], ?_, fun i hi => ?_, fun n hn => ?_⟩
  · rw [root_ofTree, ← hsize, ← hindex, parent_ofTree hroot]
  · obtain ⟨s, hs, rfl⟩ := exists_site_of_lt (by omega : i < (ofTree root).size)
    rcases Tree.exists_childOf hs with rfl | ⟨u, hu, hc⟩
    · omega
    · have hlast := (Tree.index_mem_sites hu).2
      have hbounds := hc.bounds
      obtain ⟨_, _, _, _, _, -, hp, -⟩ := hc
      exact ⟨u.index, by rw [parent_ofTree hs, hp], hbounds.2, by omega⟩
  · obtain ⟨u, hu, rfl⟩ := exists_site_of_lt hn
    exact ⟨u.base, u.base_le_index, below_iff hu⟩


end NodeTable

/-! ## Reading again -/

namespace State

/-- A state in which nothing is left to read. -/
structure Finished (s : State) (length : Nat) : Prop where
  rest : s.rest = []
  length : s.length = length
  sound : s.arena.Sound

theorem finished_ofText (text : List Char) : (ofText text).Finished (byteLength text) := by
  rw [ofText_eq]
  have hsound := Arena.sound_plant Arena.sound_empty (SourceFile.ofText text).root
  exact ⟨SourceFile.rest_declarations text, (SourceFile.reads_declarations text).length_eq,
    hsound.infos, hsound.places⟩

variable {s : State} {length : Nat}

/-- Where nothing is left to read, the root alone is added, and adopts nothing. -/
theorem run_again (h : s.Finished length) : (Builder.sourceFile s).2 =
    { s with arena :=
      { s.arena.addNode .compilationUnit ⟨length, length⟩ (.list []) with
        root := some s.arena.size } } := by
  have hstart : s.next.start = length := by
    rw [Cursor.next, h.rest, ← h.length]
    rfl
  have hnone : (Arena.adopt (s.arena.addNode .compilationUnit ⟨length, length⟩ (.list []))
      s.arena.size (some s.arena.size)) =
        s.arena.addNode .compilationUnit ⟨length, length⟩ (.list []) := by
    have hfew (n : Nat) : min s.arena.size n - s.arena.size = 0 := by omega
    simp [Arena.adopt, hfew]
  have hdeclarations : Builder.declarations s = ([], s) := by
    simp only [Builder.declarations, Builder.look, Builder.many, h.rest]
    rfl
  have htoken : Builder.token s = (none, s) := by simp only [Builder.token, h.rest]
  have hrun := Builder.Makes.run_bind (congrArg Prod.snd hdeclarations) fun members =>
    Builder.token >>= fun _ => Builder.root ⟨s.arena.size, s.next.start⟩ members
  have hroot := Builder.Makes.run_bind (congrArg Prod.snd htoken) fun _ =>
    Builder.root ⟨s.arena.size, s.next.start⟩ (Builder.declarations s).1
  have hall : (Builder.sourceFile s).2 =
      (Builder.root ⟨s.arena.size, s.next.start⟩ (Builder.declarations s).1 s).2 :=
    congrArg Prod.snd (hrun.trans hroot)
  rw [hall, hdeclarations, hstart, ← hnone, ← h.length]
  rfl

/-- The table with another empty root, and nothing is left to read again. -/
theorem table_again (h : s.Finished length) : (Builder.sourceFile s).2.Finished length ∧
    (Builder.sourceFile s).2.arena.table = s.arena.table.readOn length := by
  have hfits : Arena.Fits (.node .compilationUnit) (.list []) := fun _ h => h
  have hsound := Arena.sound_addNode h.sound ⟨length, length⟩ hfits
  have htable := Arena.table_addNode h.sound ⟨length, length⟩ hfits
  have hsize := Arena.size_table h.sound
  rw [run_again h]
  refine ⟨⟨h.rest, h.length, hsound.infos, hsound.places⟩, ?_⟩
  show { (s.arena.addNode .compilationUnit ⟨length, length⟩ (.list [])).table with
    root := some s.arena.size } = _
  rw [htable, ← hsize]
  rfl

end State

end Caret
