import FuncSpans.Run
import FuncSpans.Proofs.Source.Declarations
import Mathlib.Algebra.Ring.Nat

/-!
# Spans of functions

The functions of a source file have names, lie on the lines of the text and stand one after the
other (`SourceFile.parse_spans`).
-/

namespace FuncSpans.Go

namespace SourceFile

/-- The spans together are no longer than the lines between. -/
theorem Lined.sum_le {lo hi : Nat} {fs : List FunctionSpan} (h : Lined lo hi fs) :
    lo ≤ hi → (fs.map fun f => f.last - f.first).sum ≤ hi - lo := by
  induction fs generalizing lo with
  | nil => simp
  | cons f fs ih =>
    intro hLe
    obtain ⟨_, hFirst, hFl, hLast⟩ := h.span f List.mem_cons_self
    have hRest : Lined f.last hi fs := by
      refine ⟨fun g hg => ?_, h.ordered.of_cons⟩
      obtain ⟨hName, _, hGl, hGlast⟩ := h.span g (List.mem_cons_of_mem _ hg)
      exact ⟨hName, List.rel_of_pairwise_cons h.ordered hg, hGl, hGlast⟩
    have hSum := ih hRest hLast
    rw [List.map_cons, List.sum_cons]
    omega

theorem lined_parse {text : List Char} {file : SourceFile} (h : parse text = .ok file) :
    Lined 1 (1 + text.count '\n') file.functions := by
  obtain ⟨ds, hDs, -, hFunctions⟩ := parse_eq_ok.mp h
  exact hFunctions ▸ lined_declarations hDs

/-- The functions of a text with fewer line feeds than a line number can tell: their names are not
empty, they lie on lines of the text in order, none begins before the one before it ends, and so
their spans are just the differences of their lines and come to no more than the line feeds. -/
theorem parse_spans {text : List Char} {file : SourceFile} (h : parse text = .ok file)
    (hFeeds : text.count '\n' < 2 ^ 32 - 1) (grouping : Grouping) (path : Path) :
    (∀ f ∈ file.functions, f.name ≠ [] ∧ 1 ≤ f.first ∧ f.first ≤ f.last ∧
      f.last ≤ 1 + text.count '\n' ∧ f.last < 2 ^ 32) ∧
    (file.functions.Pairwise fun f g => f.first ≤ g.first ∧ f.last ≤ g.first) ∧
    (∀ r ∈ Run.recordsOf grouping path file, r.startsAt + r.lines = r.endsAt) ∧
    ((Run.recordsOf grouping path file).map Record.lines).sum ≤ text.count '\n' := by
  have hLined := lined_parse h
  refine ⟨fun f hf => ?_, ?_, fun r hr => ?_, ?_⟩
  · obtain ⟨hName, hFirst, hLe, hLast⟩ := hLined.span f hf
    exact ⟨hName, hFirst, hLe, hLast, by omega⟩
  · refine hLined.ordered.imp_of_mem fun {f g} hf _ hFg => ?_
    obtain ⟨_, _, hLe, _⟩ := hLined.span f hf
    exact ⟨by omega, hFg⟩
  · obtain ⟨f, hf, rfl⟩ := List.mem_map.mp hr
    obtain ⟨_, _, hLe, _⟩ := hLined.span f hf
    exact Nat.add_sub_cancel' hLe
  · have hSum := hLined.sum_le (by omega)
    rw [Nat.add_sub_cancel_left] at hSum
    rw [Run.recordsOf, List.map_map]
    exact hSum

/-- A file with one function, which goes over two lines. -/
theorem parse_spans_block :
    parse "package p\nfunc f(\n)".toList = .ok ⟨['p'], [⟨['f'], 2, 3⟩]⟩ ∧
    "package p\nfunc f(\n)".toList.count '\n' < 2 ^ 32 - 1 ∧
    ((Run.recordsOf .package [] ⟨['p'], [⟨['f'], 2, 3⟩]⟩).map Record.lines).sum ≤
      "package p\nfunc f(\n)".toList.count '\n' := by
  have hParse : parse "package p\nfunc f(\n)".toList = .ok ⟨['p'], [⟨['f'], 2, 3⟩]⟩ :=
    parse_eq_ok.mpr ⟨_, texts_read.1.2.2.2, rfl, rfl⟩
  have hFeeds : "package p\nfunc f(\n)".toList.count '\n' < 2 ^ 32 - 1 := by decide
  exact ⟨hParse, hFeeds, (parse_spans hParse hFeeds .package []).2.2.2⟩

end SourceFile

end FuncSpans.Go
