import Caret.Proofs.DeclarationsSideBySide
import Caret.Proofs.Renumbering
import Caret.Proofs.Spacing
import Caret.Proofs.TokenBefore
/-!
# A block that is not closed

Two texts are the same, but that one lacks the closing braces of a block and of the blocks in it
that are open, and goes on with a modifier instead. `UnclosedBlock` holds the tokens of both from
the brace of the block on.

In the block (`UnclosedBlock.inside`) both runs see the same tokens, until the first is at the
modifier and the second at the closing braces. From there on each block that the runs are in
(`parse_block`) ends in both: the first run reports that a brace is missing, and the second reads
it. So both are at the modifier when the block itself ends, and see the same tokens again. This is
what the comparison of whole files (`UnclosedBlock.around`) needs to know.

The braces of the tokens are not the blocks of the parser where blocks nest too deeply, since the
tokens are then passed over one by one. A run that has reported this is lost.

So the trees differ in no more than the block (`UnclosedBlock.sameBut_roots`), and all that stands
behind it has the same place in both tables (`NodeTable.ofText_unclosed_block`).
-/

namespace Caret

open Caret.Parser Caret.Grammar
open Comparison hiding take report next

/-- How many braces are open behind some tokens, if `opened` are before them. No token may close
more than are open. -/
def braceDepth : List TokenKind → (opened : Nat) → Option Nat
  | [], n => some n
  | .openBrace :: ks, n => braceDepth ks (n + 1)
  | .closeBrace :: ks, n =>
    match n with
    | 0 => none
    | n + 1 => braceDepth ks n
  | _ :: ks, n => braceDepth ks n

theorem braceDepth_plain {k : TokenKind} (hk : k.isPlain) (ks : List TokenKind) (n : Nat) :
    braceDepth (k :: ks) n = braceDepth ks n := by
  cases k <;> first | rfl | cases hk

/-- The tokens of two texts from the brace of a block on. -/
structure UnclosedBlock where
  brace : Token
  brace' : Token
  /-- What stands in the block. -/
  body : List Token
  body' : List Token
  /-- The closing braces of the second text. -/
  closers : List Token
  /-- What stands behind the block. -/
  after : List Token
  after' : List Token
  kind_brace : brace.kind = .openBrace
  word_brace : brace.word = brace'.word
  words_body : body.map Token.word = body'.map Token.word
  words_after : after.map Token.word = after'.map Token.word
  starts : ∀ y ∈ body, startsDeclaration y.kind = false
  ends : ∀ y ∈ body, y.kind ≠ .endOfFile
  depth : (braceDepth (body.map Token.kind) 0).map (· + 1) = some closers.length
  closing : ∀ y ∈ closers, y.kind = .closeBrace
  resumes : ∃ m rest, after = m :: rest ∧ m.kind.isModifier
  sorted : (brace :: (body ++ after)).Pairwise fun t u => t.start < u.start

/-! ## Where problems are reported -/

/-- The unread tokens stand in order, and no problem is reported behind the next token. -/
structure Cursor.Orderly (c : Cursor) : Prop where
  sorted : c.rest.Pairwise fun t u => t.start < u.start
  reported : ∀ g ∈ c.diagnostics, ∀ t ∈ c.rest.tail, g.span.start < t.start

/-- No problem is reported at the next token. -/
def Cursor.Fresh (c : Cursor) : Prop :=
  ∀ g ∈ c.diagnostics, ∀ t ∈ c.rest.head?, g.span.start < t.start

namespace Cursor

variable {c d : Cursor}

theorem diagnostics_report_cases (c : Cursor) (problem : Problem) :
    (c.report problem).diagnostics = c.diagnostics ∨
      (c.report problem).diagnostics = ⟨c.next.span, problem⟩ :: c.diagnostics := by
  unfold Cursor.report
  split
  · exact .inl rfl
  · exact .inr rfl

/-- What is reported where nothing was reported yet is kept. -/
theorem Fresh.mem_report (h : c.Fresh) (hc : c.rest ≠ []) (problem : Problem) :
    ⟨c.next.span, problem⟩ ∈ (c.report problem).diagnostics := by
  obtain ⟨x, rest, hx⟩ := List.exists_cons_of_ne_nil hc
  have hnext : c.next = x := by simp [Cursor.next, hx]
  have hlast : (c.diagnostics.head?.any fun last => last.span.start == c.next.start) = false := by
    cases hd : c.diagnostics with
    | nil => rfl
    | cons g more =>
      have hlt := h g (hd ▸ List.mem_cons_self ..) x (by rw [hx]; rfl)
      rw [hnext]
      exact beq_eq_false_iff_ne.2 (Nat.ne_of_lt hlt)
  rw [Cursor.report, hlast]
  exact List.mem_cons_self ..

theorem rest_take (c : Cursor) : (Parser.take c).2.rest = c.rest.tail := by
  unfold Parser.take
  cases h : c.rest with
  | nil => simp [h]
  | cons => rfl

theorem Orderly.report (h : c.Orderly) (problem : Problem) : (c.report problem).Orderly := by
  have hrest : (c.report problem).rest = c.rest := Reads.rest_report c problem
  refine ⟨by rw [hrest]; exact h.sorted, ?_⟩
  rw [hrest]
  rcases c.diagnostics_report_cases problem with hd | hd
  · rw [hd]
    exact h.reported
  · rw [hd]
    refine List.forall_mem_cons.2 ⟨fun t ht => ?_, h.reported⟩
    obtain ⟨x, rest, hx⟩ := List.exists_cons_of_ne_nil (List.ne_nil_of_mem (List.mem_of_mem_tail ht))
    have hsorted := h.sorted
    have hnext : c.next = x := by simp [Cursor.next, hx]
    rw [hx] at hsorted ht
    rw [hnext]
    exact (List.pairwise_cons.1 hsorted).1 t ht

/-- What is read is behind all that was reported. -/
theorem Orderly.fresh_take (h : c.Orderly) : (Parser.take c).2.Fresh := by
  intro g hg t ht
  rw [diagnostics_take] at hg
  rw [rest_take] at ht
  exact h.reported g hg t (List.mem_of_mem_head? ht)

theorem Orderly.take (h : c.Orderly) : (Parser.take c).2.Orderly := by
  refine ⟨by rw [rest_take]; exact h.sorted.tail, fun g hg t ht => ?_⟩
  rw [diagnostics_take] at hg
  rw [rest_take] at ht
  exact h.reported g hg t (List.mem_of_mem_tail ht)

theorem Orderly.reads {ts : List Tree} (h : Reads c ts d) : c.Orderly → d.Orderly := by
  induction h with
  | refl => exact id
  | report c problem => exact (·.report problem)
  | @take c t rest hr =>
    intro ho
    have htake : (Parser.take c).2 = { c with rest, readEnd := t.stop } := by
      simp only [Parser.take, hr]
    exact htake ▸ ho.take
  | append _ _ ih ih' => exact fun h => ih' (ih h)
  | relabel _ _ ih => exact ih
  | close _ _ _ _ ih => exact ih

end Cursor

namespace UnclosedBlock

variable (s : UnclosedBlock)

/-- Nesting was reported to be too deep at a token of the body. -/
def Deep (c : Cursor) : Prop :=
  ∃ g ∈ c.diagnostics, g.problem = .nestingTooDeep ∧ ∃ y ∈ s.body, g.span.start = y.start

variable {s} {c d : Cursor} {i : Nat}

theorem Deep.report (h : s.Deep c) (problem : Problem) : s.Deep (c.report problem) := by
  obtain ⟨g, hg, hdeep⟩ := h
  refine ⟨g, ?_, hdeep⟩
  rcases c.diagnostics_report_cases problem with hd | hd
  · rwa [hd]
  · rw [hd]
    exact List.mem_cons_of_mem _ hg

theorem Deep.take (h : s.Deep c) : s.Deep (Parser.take c).2 := by
  obtain ⟨g, hg, hdeep⟩ := h
  exact ⟨g, by rwa [diagnostics_take], hdeep⟩

theorem Deep.reads {ts : List Tree} (h : Reads c ts d) : s.Deep c → s.Deep d := by
  induction h with
  | refl => exact id
  | report c problem => exact (·.report problem)
  | take => exact id
  | append _ _ ih ih' => exact fun h => ih' (ih h)
  | relabel _ _ ih => exact ih
  | close _ _ _ _ ih => exact ih

/-! ## In the block -/

/-- The runs have read as much of the body, `i` braces that were opened in it are open, and the
second run is to read the braces `left`. -/
structure Inside (s : UnclosedBlock) (i : Nat) (unread unread' left : List Token)
    (c d : Cursor) : Prop where
  orderly : c.Orderly
  rest : c.rest = unread ++ s.after
  rest' : d.rest = unread' ++ (left ++ s.after')
  words : unread.map Token.word = unread'.map Token.word
  suffix : unread <:+ s.body
  depth : (braceDepth (unread.map Token.kind) i).map (· + 1) = some left.length
  closing : ∀ y ∈ left, y.kind = .closeBrace

namespace Inside

variable {unread unread' left us us' : List Token} {y y' : Token}

theorem report (h : s.Inside i unread unread' left c d) (problem : Problem) :
    s.Inside i unread unread' left (c.report problem) d :=
  { h with orderly := h.orderly.report problem, rest := (Reads.rest_report c problem).trans h.rest }

theorem report' (h : s.Inside i unread unread' left c d) (problem : Problem) :
    s.Inside i unread unread' left c (d.report problem) :=
  { h with rest' := (Reads.rest_report d problem).trans h.rest' }

/-- A token of the body, after which `j` braces are open. -/
theorem take {j : Nat} (h : s.Inside i (y :: us) (y' :: us') left c d)
    (hj : braceDepth ((y :: us).map Token.kind) i = braceDepth (us.map Token.kind) j) :
    s.Inside j us us' left (Parser.take c).2 (Parser.take d).2 where
  orderly := h.orderly.take
  rest := by rw [c.rest_take, h.rest]; rfl
  rest' := by rw [d.rest_take, h.rest']; rfl
  words := (List.cons.inj h.words).2
  suffix := (List.suffix_cons y us).trans h.suffix
  depth := hj ▸ h.depth
  closing := h.closing

/-- The block itself is open, so the second run is still to read a brace that closes it. -/
theorem exists_closer (h : s.Inside i unread unread' left c d) : ∃ z more, left = z :: more := by
  refine List.exists_cons_of_ne_nil fun hnil => ?_
  have hdepth := h.depth
  rw [hnil] at hdepth
  simp at hdepth

/-- The next tokens are of the body, or the first run is behind it and the second at a closing
brace. -/
theorem next_cases (h : s.Inside i unread unread' left c d) :
    (unread = [] ∧ unread' = [] ∧ c.kind.isModifier ∧ d.kind = .closeBrace) ∨
      ∃ y us y' us', unread = y :: us ∧ unread' = y' :: us' ∧ y.word = y'.word ∧ c.next = y ∧
        d.next = y' := by
  have hwords := h.words
  cases unread with
  | nil =>
    obtain rfl := List.map_eq_nil_iff.1 hwords.symm
    obtain ⟨m, rest, hafter, hm⟩ := s.resumes
    obtain ⟨z, more, rfl⟩ := h.exists_closer
    have hc : c.kind = m.kind := kind_of_rest (h.rest.trans hafter)
    have hd : d.kind = z.kind := kind_of_rest h.rest'
    exact .inl ⟨rfl, rfl, hc ▸ hm, hd.trans (h.closing z (List.mem_cons_self ..))⟩
  | cons y us =>
    obtain ⟨y', us', rfl, hword, -⟩ := List.map_eq_cons_iff.1 hwords.symm
    refine .inr ⟨y, us, y', us', rfl, rfl, hword.symm, ?_, ?_⟩
    · rw [Cursor.next, h.rest]
      rfl
    · rw [Cursor.next, h.rest']
      rfl

end Inside

/-- How the runs are compared in the block, with `i` braces that were opened in its body. -/
def inside (s : UnclosedBlock) (i : Nat) : Comparison where
  beside c d := ∃ unread unread' left, s.Inside i unread unread' left c d
  lost := s.Deep
  hole _ _ := True
  marked _ := False
  next := by
    rintro c d ⟨unread, unread', left, h⟩
    rcases h.next_cases with ⟨-, -, hm, hd⟩ | ⟨y, us, y', us', -, -, hword, rfl, rfl⟩
    · exact .inr ⟨hm, hd⟩
    · exact .inl hword
  report := fun problem ⟨unread, unread', left, h⟩ => ⟨unread, unread', left, h.report problem⟩
  report' := fun problem ⟨unread, unread', left, h⟩ => ⟨unread, unread', left, h.report' problem⟩
  take := by
    rintro c d ⟨unread, unread', left, h⟩ hplain
    rcases h.next_cases with ⟨-, -, hm, -⟩ | ⟨y, us, y', us', rfl, rfl, -, rfl, -⟩
    · rw [(TokenKind.isPlain_iff.1 hplain).2.2.2] at hm
      cases hm
    · exact ⟨us, us', left, h.take (braceDepth_plain hplain _ _)⟩
  lost_report := fun problem h => h.report problem
  lost_take := Deep.take

theorem not_spoilt {ts : List Tree} : ¬(s.inside i).Spoilt ts := by
  rintro ⟨t, -, h⟩
  induction h with
  | leaf _ h => exact h
  | node _ _ _ _ _ _ ih => exact ih

/-! ## Blocks in the block -/

theorem sees_continuesBlock {r : Comparison} : r.Sees continuesBlock := by
  refine sees_of fun k hm => ?_
  cases k <;> first | rfl | cases hm

theorem not_modifier_of_continuesBlock {k : TokenKind} (h : continuesBlock k) :
    k.isModifier = false := by
  cases k <;> first | rfl | cases h

/-- Where a statement starts no other token than a plain one is passed over. -/
theorem follows_statements_succ {depth n n' : Nat} {ok : Cursor → Prop}
    (hs : Keeps (s.inside i) (statement (depth + 1))) : (s.inside i).Follows n n' ok
      (statements (statement (depth + 1))) (statements (statement (depth + 1))) := by
  have hyields : ReadsStatement (statement (depth + 1)) := yields_statement _
  refine .many sees_continuesBlock ?_ (.of_at sees_continuesBlock (yields_blockPart hyields) rfl)
  refine .orSkip (·.isPlain) (hs.into _) (takes_plain fun _ => id) ?_ _
  intro c hc _ hnone
  have hinto : Yields Any ((statement (depth + 1)).into .item) (Pattern.statement .item) :=
    hyields.into_opt
  have hbrace : c.kind ≠ .openBrace := by
    intro hk
    have hblock : statement (depth + 1) c = block (statement depth) c := by
      rw [statement, Parser.look, hk]
    simp only [Parser.into, hblock] at hnone
    cases hnone
  rw [kind_of_nil hinto hnone]
  refine TokenKind.isPlain_iff.2 ⟨hbrace, ?_, ?_, not_modifier_of_continuesBlock hc⟩ <;>
    (intro hk; rw [At, hk] at hc; cases hc)

/-- Where no statement may be nested any more, the first token of a block is too deep. -/
theorem follows_statements_zero {n n' : Nat} : (s.inside i).Follows n n' Cursor.Fresh
    (statements (statement 0)) (statements (statement 0)) := by
  have hpart (c : Cursor) (h : s.Deep (c.report .nestingTooDeep)) :
      s.Deep ((((statement 0).into .item).orSkip .expectedStatement) c).2 :=
    (h.report .expectedStatement).take
  intro c hfresh
  refine ⟨lost_manyAtMost (r := s.inside i) (fun c h => hpart c (Deep.report h _)) _ c, ?_⟩
  rintro d ⟨unread, unread', left, h⟩ - -
  cases ht : continuesBlock c.kind with
  | false =>
    have htest := sees_continuesBlock c d (.inl (show (s.inside i).beside c d from ⟨_, _, _, h⟩))
    have hstop {c : Cursor} (h : continuesBlock c.kind = false) :
        statements (statement 0) c = ([], c) := Parser.manyAtMost_stop _ h
    rw [hstop ht, hstop (htest ▸ ht)]
    exact .stay ⟨_, _, _, h⟩ (.refl _)
  | true =>
    rcases h.next_cases with ⟨-, -, hm, -⟩ | ⟨y, us, y', us', rfl, rfl, -, hy, -⟩
    · rw [not_modifier_of_continuesBlock ht] at hm
      cases hm
    · have hne : c.rest ≠ [] := by rw [h.rest]; exact List.cons_ne_nil _ _
      have hdeep : s.Deep (c.report .nestingTooDeep) := ⟨_, hfresh.mem_report hne _, rfl, y,
        h.suffix.mem (List.mem_cons_self ..), congrArg Token.start hy⟩
      refine .inl (.inl ?_)
      rw [statements, many_go h.rest ht]
      exact lost_manyAtMost (r := s.inside i) (fun c h => hpart c (Deep.report h _)) _ _
        (hpart c hdeep)

/-- The runs are in one block more. -/
theorem beside_enter (h : (s.inside i).beside c d) (hk : c.kind = .openBrace) :
    (s.inside (i + 1)).beside (take c).2 (take d).2 := by
  obtain ⟨unread, unread', left, h⟩ := h
  rcases h.next_cases with ⟨-, -, hm, -⟩ | ⟨y, us, y', us', rfl, rfl, -, rfl, -⟩
  · rw [hk] at hm
    cases hm
  · have hy : c.next.kind = .openBrace := hk
    exact ⟨us, us', left, h.take (by rw [List.map_cons, hy, braceDepth])⟩

theorem expect_eq_take {k : TokenKind} (h : c.kind = k) : expect k c = take c := by
  rw [expect, ifNext_pos (by rw [h]; exact beq_self_eq_true k)]

theorem expect_eq_report {k : TokenKind} (h : c.kind ≠ k) :
    expect k c = ([], c.report (.expected k)) := by
  rw [expect, ifNext_neg (by simpa using h)]
  rfl

/-- A token of the body that ends a block is a closing brace. -/
theorem closeBrace_of_mem {y : Token} (hy : y ∈ s.body) (ht : continuesBlock y.kind = false) :
    y.kind = .closeBrace := by
  have hend := s.ends y hy
  simp only [continuesBlock, s.starts y hy] at ht
  simpa [hend] using ht

/-- A block ends in both runs: with a token of the body, or before the modifier in the first and
with a closing brace in the second. -/
theorem beside_leave (h : (s.inside (i + 1)).beside c d) (ht : continuesBlock c.kind = false) :
    (s.inside i).beside (expect .closeBrace c).2 (expect .closeBrace d).2 := by
  obtain ⟨unread, unread', left, h⟩ := h
  rcases h.next_cases with ⟨rfl, rfl, hm, hd⟩ | ⟨y, us, y', us', rfl, rfl, hword, rfl, hy'⟩
  · have hc : c.kind ≠ .closeBrace := fun hk => by
      rw [hk] at hm
      cases hm
    obtain ⟨z, more, rfl⟩ := h.exists_closer
    rw [expect_eq_take hd, expect_eq_report hc]
    refine ⟨[], [], more, h.orderly.report _, (Reads.rest_report c _).trans h.rest, ?_, rfl,
      List.nil_suffix, ?_, fun y hy => h.closing y (List.mem_cons_of_mem z hy)⟩
    · rw [d.rest_take, h.rest']
      rfl
    · have hdepth := h.depth
      simp only [List.map_nil, braceDepth, Option.map_some, List.length_cons,
        Option.some.injEq] at hdepth ⊢
      omega
  · have hc : c.kind = .closeBrace :=
      closeBrace_of_mem (h.suffix.mem (List.mem_cons_self ..)) ht
    have hd : d.kind = .closeBrace := by
      rw [← hc]
      exact (congrArg Token.kind hy').trans (congrArg Prod.fst hword.symm)
    have hnext : c.next.kind = .closeBrace := hc
    rw [expect_eq_take hc, expect_eq_take hd]
    exact ⟨us, us', left, h.take (by rw [List.map_cons, hnext, braceDepth])⟩

/-- The block itself ends in both runs. -/
theorem rest_of_end (h : (s.inside 0).beside c d) (ht : continuesBlock c.kind = false) :
    (expect .closeBrace c).2.rest = s.after ∧ (expect .closeBrace d).2.rest = s.after' := by
  obtain ⟨unread, unread', left, h⟩ := h
  have hdepth := h.depth
  rcases h.next_cases with ⟨rfl, rfl, hm, hd⟩ | ⟨y, us, y', us', rfl, rfl, -, rfl, -⟩
  · have hc : c.kind ≠ .closeBrace := fun hk => by
      rw [hk] at hm
      cases hm
    obtain ⟨z, rfl⟩ : ∃ z, left = [z] := by
      rw [← List.length_eq_one_iff]
      simpa [braceDepth] using hdepth.symm
    rw [expect_eq_take hd, expect_eq_report hc]
    refine ⟨(Reads.rest_report c _).trans h.rest, ?_⟩
    rw [d.rest_take, h.rest']
    rfl
  · -- a closing brace of the body closes a block in it
    have hclose := closeBrace_of_mem (h.suffix.mem (List.mem_cons_self ..)) ht
    rw [List.map_cons, hclose, braceDepth] at hdepth
    cases hdepth

section Blocks

variable {depth n n' : Nat}

/-- What stands in a block is read to its end in both runs. -/
theorem run_statements (hs : Keeps (s.inside i) (statement depth)) (hb : (s.inside i).beside c d)
    (hf : c.Fresh) : s.Deep (statements (statement depth) c).2 ∨
      ((s.inside i).beside (statements (statement depth) c).2 (statements (statement depth) d).2 ∧
        continuesBlock (statements (statement depth) c).2.kind = false) := by
  have hstops : continuesBlock (statements (statement depth) c).2.kind = false :=
    Yields.many_stops kept_any ((yields_blockPart (yields_statement depth)).mono fun _ h => h.2)
      rfl rfl trivial
  have hfollows : (s.inside i).Follows (c.rest.length + 1) (d.rest.length + 1) Cursor.Fresh
      (statements (statement depth)) (statements (statement depth)) := by
    cases depth with
    | zero => exact follows_statements_zero
    | succ depth => exact follows_statements_succ hs
  rcases (hfollows c hf).2 d hb (Nat.lt_succ_self _) (Nat.lt_succ_self _) with
    (hdeep | hspoilt) | ⟨hb, -, -, -⟩
  · exact .inl hdeep
  · exact absurd hspoilt not_spoilt
  · exact .inr ⟨hb, hstops⟩

theorem block_eq {s : Parser} (hc : c.kind = .openBrace) :
    (block s c).2 = (expect .closeBrace (statements s (take c).2).2).2 := by
  rw [← expect_eq_take hc]
  rfl

/-- Where a block stands both runs read it to its end. -/
theorem length_block_le (hc : At (· == .openBrace) c) :
    (block (statement depth) c).2.rest.length ≤ c.rest.length := by
  have := (yields_block (yields_statement depth) c hc).1.length_rest
  omega

theorem follows_block (hs : Keeps (s.inside (i + 1)) (statement depth)) :
    (s.inside i).Follows n n' (At (· == .openBrace)) (block (statement depth))
      (block (statement depth)) := by
  intro c hc
  refine ⟨Deep.reads (yields_block (yields_statement depth) c hc).1, fun d hb _ _ => ?_⟩
  have hk : c.kind = .openBrace := eq_of_beq hc
  have hd : d.kind = .openBrace := by
    rcases (s.inside i).next hb with hw | ⟨hm, -⟩
    · rw [← kind_of_word hw, hk]
    · rw [hk] at hm
      cases hm
  have hfresh : (take c).2.Fresh := by
    obtain ⟨unread, unread', left, h⟩ := hb
    exact h.orderly.fresh_take
  rcases run_statements hs (beside_enter hb hk) hfresh with hdeep | ⟨hb, hstops⟩
  · refine .inl (.inl ?_)
    rw [block_eq hk]
    exact Deep.reads (Yields.expect (P := Any) (by decide) _ trivial).1 hdeep
  · refine .inr ⟨?_, .cons (.hole .loose _ _ trivial) .nil, length_block_le hc,
      length_block_le (beq_iff_eq.2 hd)⟩
    rw [block_eq hk, block_eq hd]
    exact beside_leave hb hstops

theorem keeps_statement (depth : Nat) : ∀ i, Keeps (s.inside i) (statement depth) := by
  induction depth with
  | zero => exact fun _ => .report _ _
  | succ depth ih => exact fun i => keeps_statement_succ (ih i) (follows_block (ih (i + 1)))

end Blocks

/-! ## Around the block -/

/-- The runs have not come to the block. -/
def Before (s : UnclosedBlock) (c d : Cursor) : Prop :=
  ∃ init init', c.rest = init ++ s.brace :: (s.body ++ s.after) ∧
    d.rest = init' ++ s.brace' :: (s.body' ++ (s.closers ++ s.after')) ∧
    init.map Token.word = init'.map Token.word

/-- The runs are behind the block. -/
def Behind (s : UnclosedBlock) (c d : Cursor) : Prop :=
  c.rest <:+ s.after ∧ c.rest.map Token.word = d.rest.map Token.word

theorem next_word (h : s.Before c d ∨ s.Behind c d) : c.next.word = d.next.word := by
  have hcons {ts us : List Token} (hc : c.rest = ts) (hd : d.rest = us)
      (hw : ts.map Token.word = us.map Token.word) : c.next.word = d.next.word := by
    unfold Cursor.next
    rw [hc, hd]
    cases ts with
    | nil =>
      obtain rfl := List.map_eq_nil_iff.1 hw.symm
      rfl
    | cons t ts =>
      obtain ⟨u, us, rfl, hu, -⟩ := List.map_eq_cons_iff.1 hw.symm
      exact hu.symm
  rcases h with ⟨init, init', hc, hd, hw⟩ | ⟨-, hw⟩
  · cases init with
    | nil =>
      obtain rfl := List.map_eq_nil_iff.1 hw.symm
      simp only [Cursor.next, hc, hd]
      exact s.word_brace
    | cons t init =>
      obtain ⟨u, init', rfl, hu, -⟩ := List.map_eq_cons_iff.1 hw.symm
      simp only [Cursor.next, hc, hd]
      exact hu.symm
  · exact hcons rfl rfl hw

/-- Any token but the brace itself is read in both runs. -/
theorem take_cases (h : s.Before c d ∨ s.Behind c d) : c.next = s.brace ∨
    s.Before (take c).2 (take d).2 ∨ s.Behind (take c).2 (take d).2 := by
  unfold Before Behind
  rw [c.rest_take, d.rest_take]
  rcases h with ⟨init, init', hc, hd, hw⟩ | ⟨hsuffix, hw⟩
  · cases init with
    | nil => exact .inl (by simp [Cursor.next, hc])
    | cons t init =>
      obtain ⟨u, init', rfl, -, hus⟩ := List.map_eq_cons_iff.1 hw.symm
      exact .inr (.inl ⟨init, init', by rw [hc]; rfl, by rw [hd]; rfl, hus.symm⟩)
  · refine .inr (.inr ⟨(List.tail_suffix _).trans hsuffix, ?_⟩)
    rw [List.map_tail, List.map_tail, hw]

/-- The trees hold the tokens of the block, the brace first. -/
def Holds (s : UnclosedBlock) (ts : List Tree) : Prop :=
  Tree.tokensAll ts = s.brace :: s.body ∧ ∃ slot us, ts = .leaf slot s.brace :: us

/-- How the runs are compared around the block. The brace has to open a block, and what is in the
block may differ. -/
def around (s : UnclosedBlock) : Comparison where
  beside c d := c.Orderly ∧ (s.Before c d ∨ s.Behind c d)
  lost := s.Deep
  hole ts _ := s.Holds ts
  marked y := y = s.brace
  next := fun ⟨_, h⟩ => .inl (next_word h)
  report := by
    rintro c d problem ⟨ho, h⟩
    refine ⟨ho.report problem, ?_⟩
    unfold Before Behind
    rwa [Reads.rest_report]
  report' := by
    rintro c d problem ⟨ho, h⟩
    refine ⟨ho, ?_⟩
    unfold Before Behind
    rwa [Reads.rest_report]
  take := by
    rintro c d ⟨ho, h⟩ hplain
    rcases take_cases h with hbrace | h
    · have hk : c.kind = .openBrace := (congrArg Token.kind hbrace).trans s.kind_brace
      exact absurd hk (TokenKind.isPlain_iff.1 hplain).1
    · exact ⟨ho.take, h⟩
  lost_report := fun problem h => h.report problem
  lost_take := Deep.take

/-- The brace is read only where the block begins. -/
theorem rest_of_brace (h : s.around.beside c d) (hc : c.next = s.brace) :
    c.rest = s.brace :: (s.body ++ s.after) ∧
      d.rest = s.brace' :: (s.body' ++ (s.closers ++ s.after')) := by
  obtain ⟨ho, ⟨init, init', hr, hr', hw⟩ | ⟨hsuffix, -⟩⟩ := h
  · cases init with
    | nil =>
      obtain rfl := List.map_eq_nil_iff.1 hw.symm
      exact ⟨hr, hr'⟩
    | cons t init =>
      have hsorted := ho.sorted
      rw [hr] at hsorted
      have hlt := (List.pairwise_cons.1 hsorted).1 s.brace (by simp)
      have ht : c.next = t := by simp [Cursor.next, hr]
      rw [← ht, hc] at hlt
      exact absurd hlt (Nat.lt_irrefl _)
  · have hend : c.kind ≠ .endOfFile := by
      intro hk
      have hbrace := s.kind_brace
      rw [← hc] at hbrace
      rw [Cursor.kind, hbrace] at hk
      cases hk
    obtain ⟨rest, hr⟩ := exists_rest hend
    have hmem : s.brace ∈ s.body ++ s.after :=
      List.mem_append_right _ (hsuffix.mem (hc ▸ hr ▸ List.mem_cons_self ..))
    exact absurd ((List.pairwise_cons.1 s.sorted).1 _ hmem) (Nat.lt_irrefl _)

theorem tokensAll_block (s : Parser) (c : Cursor) :
    Tree.tokensAll (block s c).1 = Tree.tokensAll (blockParts s c).1 := List.append_nil _

/-- A block begins with its brace. -/
theorem exists_blockParts (s : Parser) {x : Token} {rest : List Token} (hr : c.rest = x :: rest)
    (hx : x.kind = .openBrace) : ∃ us, (blockParts s c).1 = .leaf .loose x :: us := by
  have hk : c.kind = .openBrace := (kind_of_rest hr).trans hx
  have htake : (expect .openBrace c).1 = [.leaf .loose x] := by
    rw [expect_eq_take hk]
    simp only [take, hr]
  refine ⟨(statements s (expect .openBrace c).2).1 ++
    (expect .closeBrace (statements s (expect .openBrace c).2).2).1, ?_⟩
  rw [← List.singleton_append, ← htake, ← List.append_assoc]
  rfl

theorem even_around (s : UnclosedBlock) : s.around.Even where
  next h := next_word h.2
  take := by
    rintro c d ⟨ho, h⟩ hend
    rcases take_cases h with hbrace | h
    · obtain ⟨rest, hr⟩ := exists_rest hend
      have htake : (take c).1 = [.leaf .loose c.next] := by simp only [take, hr]
      refine .inl (.inr ⟨.leaf .loose c.next, ?_, .leaf _ hbrace⟩)
      rw [htake]
      exact List.mem_singleton_self _
    · exact .inr ⟨ho.take, h⟩

section Blocks

variable {depth n n' : Nat}

/-- The block of which the second run reads the closing braces. -/
theorem ends_brace (hb : s.around.beside c d) (hc : c.next = s.brace) :
    s.around.Ends c d (block (statement depth) c) (block (statement depth) d) := by
  obtain ⟨hr, hr'⟩ := rest_of_brace hb hc
  have hk : c.kind = .openBrace := (congrArg Token.kind hc).trans s.kind_brace
  have hd : d.kind = .openBrace := by rw [← kind_of_word (next_word hb.2), hk]
  have hinside : (s.inside 0).beside (take c).2 (take d).2 := by
    refine ⟨s.body, s.body', s.closers, hb.1.take, ?_, ?_, s.words_body, List.suffix_rfl, s.depth,
      s.closing⟩
    · rw [c.rest_take, hr]
      rfl
    · rw [d.rest_take, hr']
      rfl
  have hreads := (yields_block (yields_statement depth) c (beq_iff_eq.2 hk)).1
  rcases run_statements (keeps_statement depth 0) hinside hb.1.fresh_take with hdeep | ⟨hb', hstops⟩
  · refine .inl (.inl ?_)
    rw [block_eq hk]
    exact Deep.reads (Yields.expect (P := Any) (by decide) _ trivial).1 hdeep
  · obtain ⟨hrest, hrest'⟩ := rest_of_end hb' hstops
    rw [← block_eq hk] at hrest
    rw [← block_eq hd] at hrest'
    refine .inr ⟨⟨hb.1.reads hreads, .inr ?_⟩, .cons (.hole .loose _ _ ?_) .nil,
      length_block_le (beq_iff_eq.2 hk), length_block_le (beq_iff_eq.2 hd)⟩
    · rw [Behind, hrest, hrest']
      exact ⟨List.suffix_rfl, s.words_after⟩
    · have htokens := hreads.tokens
      rw [hrest, hr, ← List.cons_append, List.append_left_inj] at htokens
      refine ⟨(tokensAll_block _ c).symm.trans htokens, .loose, ?_⟩
      exact exists_blockParts _ hr s.kind_brace

/-- Any other block. -/
theorem ends_block (hs : Keeps s.around (statement depth)) (hb : s.around.beside c d)
    (hk : At (· == .openBrace) c) (hc : c.next ≠ s.brace) :
    s.around.Ends c d (block (statement depth) c) (block (statement depth) d) := by
  have hreads := (yields_block (yields_statement depth) c hk).1
  have hparts : s.around.Follows (c.rest.length + 1) (d.rest.length + 1) Any
      (blockParts (statement depth)) (blockParts (statement depth)) :=
    keeps_blockParts (even_around s) hs (yields_statement depth)
  rcases (hparts c trivial).2 d hb (Nat.lt_succ_self _) (Nat.lt_succ_self _) with
    (hdeep | ⟨t, ht, hstrays⟩) | ⟨hb', halike, hle⟩
  · exact .inl (.inl hdeep)
  · refine .inl (.inr ⟨_, List.mem_singleton_self _, .node .loose .block _ ?_ ht hstrays⟩)
    rintro ⟨-, slot, x, us, hts, rfl⟩
    -- the first child would be the next token
    have hrest := hreads.tokens
    rw [tokensAll_block,
      show (blockParts (statement depth) c).1 = .leaf slot s.brace :: us from hts] at hrest
    exact hc (by simp [Cursor.next, ← hrest, Tree.tokensAll, Tree.tokens])
  · exact .inr ⟨hb', .cons (.node .loose .block _ _ halike) .nil, hle⟩

theorem follows_block_around (hs : Keeps s.around (statement depth)) :
    s.around.Follows n n' (At (· == .openBrace)) (block (statement depth))
      (block (statement depth)) := by
  refine fun c hc => ⟨Deep.reads (yields_block (yields_statement depth) c hc).1,
    fun d hb _ _ => ?_⟩
  by_cases hbrace : c.next = s.brace
  · exact ends_brace hb hbrace
  · exact ends_block hs hb hc hbrace

theorem keeps_statement_around (s : UnclosedBlock) (depth : Nat) :
    Keeps s.around (statement depth) := by
  induction depth with
  | zero => exact .report _ _
  | succ depth ih => exact keeps_statement_succ ih (follows_block_around ih)

theorem keepsBody_around (s : UnclosedBlock) : KeepsBody s.around :=
  follows_block_around (keeps_statement_around s _)

end Blocks

/-! ## Files -/

/-- The trees of two texts that are the same but for the closing braces of a block differ in no
more than this block, unless nesting in it is too deep, or its brace opens no block. -/
theorem sameBut_roots {init init' : List Token} {text text' : List Char}
    (h : (scan text).dropLast = init ++ s.brace :: (s.body ++ s.after))
    (h' : (scan text').dropLast = init' ++ s.brace' :: (s.body' ++ (s.closers ++ s.after')))
    (hw : init.map Token.word = init'.map Token.word) :
    (∃ g ∈ (SourceFile.ofText text).diagnostics, g.problem = .nestingTooDeep ∧
      ∃ y ∈ s.body, g.span.start = y.start) ∨
    Tree.Strays (· = s.brace) (SourceFile.ofText text).root ∨
    Tree.SameBut (fun ts _ => s.Holds ts)
      (SourceFile.ofText text).root (SourceFile.ofText text').root := by
  have horderly : (startOf text).Orderly :=
    ⟨(scan_sorted text).sublist (List.dropLast_sublist _), fun g hg => nomatch hg⟩
  have hb : s.around.beside (startOf text) (startOf text') :=
    ⟨horderly, .inl ⟨init, init', h, h', hw⟩⟩
  have hfollows : s.around.Follows ((startOf text).rest.length + 1)
      ((startOf text').rest.length + 1) Any declarations declarations :=
    follows_declarations (even_around s) (keepsBody_around s)
  rcases (hfollows _ trivial).2 _ hb (Nat.lt_succ_self _) (Nat.lt_succ_self _) with
    (⟨g, hg, hdeep⟩ | ⟨t, ht, hstrays⟩) | ⟨-, halike, -⟩
  · exact .inl ⟨g, List.mem_reverse.2 hg, hdeep⟩
  · exact .inr (.inl (.node _ _ _ (fun ho => nomatch ho.1) (List.mem_append_left _ ht) hstrays))
  · exact .inr (.inr (.node _ _ _ _ (halike.append (.cons (.leaf _ rfl) .nil))))

end UnclosedBlock

/-! ## Tables -/

/-- A token that strays stands in the tree, and right in no block that it opens. -/
theorem Tree.Strays.exists_site {marked : Token → Prop} {t : Tree} (h : Strays marked t)
    (parent : Ref) (base : Nat) : ∃ s ∈ t.sites parent base, ∃ x, s.token? = some x ∧ marked x ∧
      (s = ⟨parent, base, t⟩ ∨ ∃ u ∈ t.sites parent base, ChildOf s u ∧
        ∀ k, u.tree.kind = .node k → ¬Opens marked k u.tree.children) := by
  induction h generalizing parent base with
  | @leaf slot x hx => exact ⟨_, self_mem_sites _ _ _, x, rfl, hx, .inl rfl⟩
  | @node slot k span t ts hopen ht _ ih =>
    obtain ⟨before, after, rfl⟩ := List.append_of_mem ht
    obtain ⟨s, hs, x, hx, hmarked, hcase⟩ :=
      ih (some (base + sizes (before ++ t :: after))) (base + sizes before)
    have hsub {u : Site} (hu : u ∈ t.sites (some (base + sizes (before ++ t :: after)))
        (base + sizes before)) :
        u ∈ (Tree.node slot k span (before ++ t :: after)).sites parent base :=
      List.mem_append_left _ (mem_sitesAll.2 ⟨before, t, after, rfl, hu⟩)
    refine ⟨s, hsub hs, x, hx, hmarked, .inr ?_⟩
    rcases hcase with rfl | ⟨u, hu, hcase⟩
    · refine ⟨_, self_mem_sites _ _ _, ⟨slot, k, span, before, after, rfl, ?_, rfl⟩, ?_⟩
      · simp [Site.index, size]
      · rintro _ ⟨⟩
        exact hopen
    · exact ⟨u, hsub hu, hcase⟩

namespace NodeTable

/-- The entry is the first child of a block. -/
structure OpensBlock (t : NodeTable) (i block : Nat) : Prop where
  node : t.node? (some block) = some .block
  parent : t.parent (some i) = some block
  first : ∀ j < i, t.parent (some j) ≠ some block

section Opens

variable {root : Tree} {s : Site} {x : Token} {block : Nat}

theorem OpensBlock.not_strays (h : (ofTree root).OpensBlock s.index block)
    (hsorted : root.tokens.Pairwise fun t u => t.start < u.start) (hs : s ∈ root.sites none 0)
    (hx : s.token? = some x) : ¬Tree.Strays (· = x) root := by
  intro hstrays
  obtain ⟨s', hs', x', hx', rfl, hcase⟩ := hstrays.exists_site none 0
  obtain rfl := site_eq hsorted hs hs' hx hx'
  have hparent := h.parent
  rw [parent_ofTree hs] at hparent
  rcases hcase with rfl | ⟨u, hu, ⟨slot, k, span, before, after, hu', hp, hbase⟩, hclosed⟩
  · cases hparent
  · rw [hp, Option.some.injEq] at hparent
    obtain rfl := hparent
    have hnode := h.node
    rw [node?_ofTree hu, hu'] at hnode
    obtain rfl : k = .block := Option.some.inj hnode
    rw [hu'] at hclosed
    refine hclosed .block rfl ⟨rfl, ?_⟩
    obtain ⟨leafSlot, hleaf⟩ : ∃ slot, s.tree = .leaf slot x' := by
      unfold Site.token? at hx
      split at hx
      · exact ⟨_, by rw [← Option.some.inj hx]; assumption⟩
      · cases hx
    cases before with
    | nil => exact ⟨leafSlot, x', after, by rw [← hleaf]; rfl, rfl⟩
    | cons c before =>
      -- the first child would have a smaller number
      have hc : ⟨some u.index, u.base + Tree.sizes [], c⟩ ∈ root.sites none 0 :=
        Tree.child_mem_sites hu hu'
      have hpos := c.size_pos
      have hle := s.base_le_index
      refine absurd (parent_ofTree hc) (h.first _ ?_)
      simp only [hbase, Tree.sizes, Site.index] at hle ⊢
      omega

end Opens

variable {text text' : List Char} {H B D : List Token} {brace : Token} {m i block : Nat}

theorem nodup_root_tokens (text : List Char) : (SourceFile.ofText text).root.tokens.Nodup := by
  refine (SourceFile.root_sorted text).imp ?_
  rintro x _ hlt rfl
  exact Nat.lt_irrefl _ hlt

/-- The tokens of the texts from the brace of the block on. -/
theorem exists_unclosedBlock (h : (scan text).dropLast = H ++ brace :: (B ++ D))
    (h' : (scan text').dropLast.map Token.word = (H ++ brace :: B).map Token.word ++
      (List.replicate (m + 1) TokenKind.closeBrace.word ++ D.map Token.word))
    (hbrace : brace.kind = .openBrace) (hstarts : ∀ y ∈ B, startsDeclaration y.kind = false)
    (hdepth : braceDepth (B.map Token.kind) 0 = some m)
    (hD : ∃ y rest, D = y :: rest ∧ y.kind.isModifier) :
    ∃ (s : UnclosedBlock) (H' : List Token), s.brace = brace ∧ s.body = B ∧ s.after = D ∧
      (scan text').dropLast = H' ++ s.brace' :: (s.body' ++ (s.closers ++ s.after')) ∧
      H.map Token.word = H'.map Token.word ∧ s.closers.length = m + 1 := by
  rw [List.map_append, List.map_cons, List.append_assoc, List.cons_append] at h'
  obtain ⟨H', rest, hscan, hH, hrest⟩ := List.map_eq_append_iff.1 h'
  obtain ⟨brace', rest, rfl, hword, hrest⟩ := List.map_eq_cons_iff.1 hrest
  obtain ⟨B', rest, rfl, hB, hrest⟩ := List.map_eq_append_iff.1 hrest
  obtain ⟨closers, D', rfl, hclosers, hDD⟩ := List.map_eq_append_iff.1 hrest
  have hlength : closers.length = m + 1 := by
    rw [← List.length_map, hclosers, List.length_replicate]
  have hsorted : (scan text).dropLast.Pairwise fun t u => t.start < u.start :=
    (scan_sorted text).sublist (List.dropLast_sublist _)
  have hkind : ∀ y ∈ (scan text).dropLast, y.kind ≠ .endOfFile := scan_dropLast_kind text
  rw [h] at hsorted hkind
  refine ⟨{
    brace, brace', body := B, body' := B', closers, after := D, after' := D'
    kind_brace := hbrace
    word_brace := hword.symm
    words_body := hB.symm
    words_after := hDD.symm
    starts := hstarts
    ends := fun y hy => hkind y (by simp [hy])
    depth := by rw [hdepth, hlength]; rfl
    closing := fun y hy => ?_
    resumes := hD
    sorted := (List.pairwise_append.1 hsorted).2.1 }, H', rfl, rfl, rfl, hscan, hH.symm, hlength⟩
  have hmem : y.word ∈ List.replicate (m + 1) TokenKind.closeBrace.word :=
    hclosers ▸ List.mem_map_of_mem hy
  exact congrArg Prod.fst (List.eq_of_mem_replicate hmem)

section Whole

variable {s : UnclosedBlock} {H' : List Token}
  (h : (scan text).dropLast = H ++ s.brace :: (s.body ++ s.after))

include h

theorem root_tokens_of_scan : (SourceFile.ofText text).root.tokens =
    H ++ s.brace :: (s.body ++ (s.after ++ [.endOfFile (byteLength text)])) := by
  rw [SourceFile.root_tokens, scan_eq_concat, h]
  simp

variable (h' : (scan text').dropLast = H' ++ s.brace' :: (s.body' ++ (s.closers ++ s.after')))
  (hH : H.map Token.word = H'.map Token.word)

include h' hH

/-- The closing braces are all that the second text has more. -/
theorem length_root_tokens : (SourceFile.ofText text').root.tokens.length =
    (SourceFile.ofText text).root.tokens.length + s.closers.length := by
  have hwords := congrArg List.length hH
  have hbody := congrArg List.length s.words_body
  have hafter := congrArg List.length s.words_after
  rw [List.length_map, List.length_map] at hwords hbody hafter
  rw [root_tokens_of_scan h, SourceFile.root_tokens, scan_eq_concat, h']
  simp only [List.length_append, List.length_cons, List.length_nil]
  omega

/-- The trees differ in the block that the brace opens. -/
theorem exists_oneHole (hi : (ofText text).tokens[H.length]? = some i)
    (hopens : (ofText text).OpensBlock i block)
    (hdeep : ∀ g ∈ (SourceFile.ofText text).diagnostics, g.problem = .nestingTooDeep →
      ∀ y ∈ s.body, g.span.start ≠ y.start) :
    ∃ ts us first, s.Holds ts ∧ block = first + Tree.sizes ts ∧
      Tree.OneHole ts us first (SourceFile.ofText text).root (SourceFile.ofText text').root := by
  rw [ofText_eq] at hi hopens
  have hsorted := SourceFile.root_sorted text
  obtain ⟨opening, hopening, hx, hn⟩ := exists_leafSite
    (show (SourceFile.ofText text).root.tokens[H.length]? = some s.brace by
      simp [root_tokens_of_scan h])
  obtain rfl : opening.index = i := Option.some.inj (hn.symm.trans hi)
  rcases UnclosedBlock.sameBut_roots h h' hH with ⟨g, hg, hproblem, y, hy, hstart⟩ | hstrays | hsame
  · exact absurd hstart (hdeep g hg hproblem y hy)
  · exact absurd hstrays (hopens.not_strays hsorted hopening hx)
  rcases Tree.oneHole_of_nodup (x := s.brace)
    (fun ts us (hts : s.Holds ts) => by rw [hts.1]; exact List.mem_cons_self ..) hsame
    (nodup_root_tokens text) with hsame | ⟨ts, us, first, hts, hole⟩
  · have hlength := length_root_tokens h h' hH
    have hclosers := s.depth
    rw [Tree.OneHole.length_tokens_same hsame] at hlength
    rw [show s.closers.length = 0 by omega] at hclosers
    obtain ⟨n, -, hn⟩ := Option.map_eq_some_iff.1 hclosers
    exact absurd hn (Nat.succ_ne_zero n)
  · refine ⟨ts, us, first, hts, ?_, hole⟩
    -- the brace is the first entry of the block
    obtain ⟨-, slot, inner, rfl⟩ := hts
    have hfirst := hole.head_mem_sites
    obtain rfl := site_eq hsorted hfirst hopening rfl hx
    have hparent := hopens.parent
    rw [parent_ofTree hfirst, Option.some.injEq] at hparent
    exact hparent.symm

end Whole

/-- A block that is not closed does not swallow what follows. Let a text go on with a modifier
behind `B`, which stands in a block, and another text have the closing braces there that `B` and the
block lack. Then the tables differ in no more than this block: all that is behind it has the same
parents, and these have the same parents, names and modifiers. -/
theorem ofText_unclosed_block (h : (scan text).dropLast = H ++ brace :: (B ++ D))
    (h' : (scan text').dropLast.map Token.word = (H ++ brace :: B).map Token.word ++
      (List.replicate (m + 1) TokenKind.closeBrace.word ++ D.map Token.word))
    (hbrace : brace.kind = .openBrace) (hi : (ofText text).tokens[H.length]? = some i)
    (hopens : (ofText text).OpensBlock i block)
    (hstarts : ∀ y ∈ B, startsDeclaration y.kind = false)
    (hdepth : braceDepth (B.map Token.kind) 0 = some m)
    (hdeep : ∀ g ∈ (SourceFile.ofText text).diagnostics, g.problem = .nestingTooDeep →
      ∀ y ∈ B, g.span.start ≠ y.start)
    (hD : ∃ y rest, D = y :: rest ∧ y.kind.isModifier) :
    ∃ φ, SameOutside (ofText text) (ofText text') block φ ∧
      ∀ n j, H.length + B.length < n → (ofText text).tokens[n]? = some j →
        ¬(ofText text).Below j block ∧ (ofText text').tokens[n + (m + 1)]? = some (φ j) := by
  obtain ⟨s, H', hs, rfl, rfl, hscan', hH, hclosers⟩ :=
    exists_unclosedBlock h h' hbrace hstarts hdepth hD
  subst hs
  obtain ⟨ts, us, first, hts, rfl, hole⟩ := exists_oneHole h hscan' hH hi hopens hdeep
  have hlength := length_root_tokens h hscan' hH
  rw [hclosers] at hlength
  rw [ofText_eq, ofText_eq]
  refine ⟨_, sameOutside_ofTree hole, fun n j hn' hj => ?_⟩
  obtain ⟨hlt, hj'⟩ :=
    hole.tokens_shift (root_tokens_of_scan h) hts.1 (nodup_root_tokens text) hlength hn' hj
  refine ⟨fun hbelow => ?_, hj'⟩
  obtain ⟨site, hsite, -, hindex, -⟩ := hole.exists_block
  rw [← hindex] at hbelow hlt
  exact absurd ((below_iff hsite j).1 hbelow).2 (Nat.not_le.2 hlt)

/-- A body that ends in the middle of an argument list, in a block of its own. -/
def cutText : List Char := "class A\x7bvoid M()\x7bif(x)\x7bf(1,public int y;\x7d".toList

/-- The same with both blocks closed. -/
def closedText : List Char := "class A\x7bvoid M()\x7bif(x)\x7bf(1,\x7d\x7dpublic int y;\x7d".toList

theorem ofText_unclosed_block_method : ∃ φ,
    (ofText cutText).node? ((ofText cutText).parent (some 27)) = some .methodDeclaration ∧
      SameOutside (ofText cutText) (ofText closedText) 27 φ ∧
      ∀ n j, 16 < n → (ofText cutText).tokens[n]? = some j →
        ¬(ofText cutText).Below j 27 ∧ (ofText closedText).tokens[n + 2]? = some (φ j) := by
  have hlength : ((scan cutText).take 7).length = 7 ∧
      (((scan cutText).drop 8).take 9).length = 9 := by decide +kernel
  have hcut : (scan cutText).dropLast = (scan cutText).take 7 ++ ⟨.openBrace, 16, "\x7b".toList⟩ ::
      (((scan cutText).drop 8).take 9 ++ ((scan cutText).drop 17).dropLast) := by decide +kernel
  have hclosed : (scan closedText).dropLast.map Token.word = ((scan cutText).take 7 ++
      ⟨.openBrace, 16, "\x7b".toList⟩ :: ((scan cutText).drop 8).take 9).map Token.word ++
        (List.replicate (1 + 1) TokenKind.closeBrace.word ++
          ((scan cutText).drop 17).dropLast.map Token.word) := by decide +kernel
  have hplace : (ofText cutText).tokens[((scan cutText).take 7).length]? = some 9 := by
    rw [hlength.1]
    decide +kernel
  have hopens : (ofText cutText).OpensBlock 9 27 :=
    ⟨by decide +kernel, by decide +kernel, by decide +kernel⟩
  obtain ⟨φ, hsame, htokens⟩ := ofText_unclosed_block hcut hclosed rfl hplace hopens
    (by decide +kernel) (by decide +kernel) (by decide +kernel)
    ⟨⟨.publicKeyword, 27, "public".toList⟩, _, rfl, rfl⟩
  rw [hlength.1, hlength.2] at htokens
  exact ⟨φ, by decide +kernel, hsame, htokens⟩

end NodeTable

end Caret
