import Caret.Proofs.TokenBefore
/-!
# One report a token

A problem is reported at the next token, unless the last report was made there
(`parse_error_at_current_token`). Only the last report is looked at; but no parser goes back, and no
two tokens start at the same place. So the spans of the reports are those of some tokens of the
text, each of them once and in their order (`SourceFile.ofText_reportsOnce`).
-/

namespace Caret

open Tree

namespace Cursor

/-- The reports were made at some of the tokens that are read, the last one first, or at the next
one, at each of them once at most and in their order. -/
def ReportsOnce (read : List Token) (c : Cursor) : Prop :=
  (c.diagnostics.map (·.span)).Sublist ((c.next :: read).map Token.span)

variable {c : Cursor} {read : List Token}

theorem ReportsOnce.report (h : c.ReportsOnce read) (problem : Problem) :
    (c.report problem).ReportsOnce read := by
  unfold Cursor.report
  split
  · exact h
  · rename_i hlast
    -- what was reported last does not start where the next token does, so that token is spared
    have hread : (c.diagnostics.map (·.span)).Sublist (read.map Token.span) := by
      rcases List.sublist_cons_iff.1 h with h | ⟨spans, hspans, -⟩
      · exact h
      · obtain ⟨last, reports, hreports, hspan, -⟩ := List.map_eq_cons_iff.1 hspans
        refine absurd ?_ hlast
        rw [hreports, List.head?_cons, Option.any_some, hspan]
        exact beq_self_eq_true c.next.start
    exact hread.cons_cons c.next.span

/-- A token that is taken is one that is read. -/
theorem ReportsOnce.take {t : Token} {rest : List Token} (h : c.ReportsOnce read)
    (hr : c.rest = t :: rest) :
    ({ c with rest, readEnd := t.stop } : Cursor).ReportsOnce (t :: read) := by
  have hnext : c.next = t := by rw [Cursor.next, hr]; rfl
  rw [ReportsOnce, hnext] at h
  exact h.cons _

end Cursor

namespace Reads

variable {c d : Cursor} {ts : List Tree} {read : List Token}

/-- Reading on keeps the reports in the order of the tokens. -/
theorem reportsOnce (h : Reads c ts d) (hc : c.ReportsOnce read) :
    d.ReportsOnce ((tokensAll ts).reverse ++ read) := by
  induction h generalizing read with
  | refl => exact hc
  | report c problem => exact hc.report problem
  | take hr => exact hc.take hr
  | append _ _ ih ih' =>
    rw [tokensAll_append, List.reverse_append, List.append_assoc]
    exact ih' (ih hc)
  | relabel _ hr ih =>
    rw [← tokensAll_map_bare, hr, tokensAll_map_bare]
    exact ih hc
  | close _ _ _ _ ih =>
    rw [tokensAll, Tree.tokens, tokensAll, List.append_nil]
    exact ih hc

end Reads

namespace SourceFile

open Grammar

/-- The spans of the reports are those of some tokens, in the order of the text. -/
theorem spans_sublist (text : List Char) :
    ((ofText text).diagnostics.map (·.span)).Sublist ((scan text).map Token.span) := by
  have hreads := reads_declarations text
  have hstart : (startOf text).ReportsOnce [] := List.nil_sublist _
  have hreports := hreads.reportsOnce hstart
  have htokens := hreads.tokens
  have hend : (declarations (startOf text)).2.next = .endOfFile (byteLength text) := by
    rw [Cursor.next, rest_declarations, hreads.length_eq]
    rfl
  rw [rest_declarations, List.append_nil] at htokens
  rw [Cursor.ReportsOnce, htokens, hend, List.append_nil] at hreports
  have hreversed := hreports.reverse
  rw [← List.map_reverse, ← List.map_reverse, List.reverse_cons, List.reverse_reverse] at hreversed
  rw [scan_eq_concat]
  exact hreversed

/-- The reports stand in the order of the text, each of them at a token, and no two at the same
one. -/
theorem ofText_reportsOnce (text : List Char) :
    (ofText text).diagnostics.Pairwise (fun d e => d.span.start < e.span.start) ∧
    (∀ d ∈ (ofText text).diagnostics, ∃ t ∈ scan text, t.span = d.span) ∧
    (ofText text).diagnostics.length ≤ (scan text).length := by
  have hspans := spans_sublist text
  have hsorted : ((scan text).map Token.span).Pairwise fun s s' => s.start < s'.start :=
    List.pairwise_map.2 (scan_sorted text)
  have hordered := hsorted.sublist hspans
  rw [List.pairwise_map] at hordered
  refine ⟨hordered, fun d hd => ?_, ?_⟩
  · exact List.mem_map.1 (hspans.subset (List.mem_map_of_mem hd))
  · simpa using hspans.length_le

/-- A name, a parenthesis, a body and a brace are missing at the end of this text. -/
example : (ofText "class C\x7bvoid M(int".toList).diagnostics.map (·.span) = [⟨18, 18⟩] := by
  decide +kernel

end SourceFile

end Caret
