import FuncSpans.Proofs.Number.Notation
import FuncSpans.Report.Table
import Mathlib.Algebra.Ring.Nat
import Mathlib.Data.List.Forall2
import Mathlib.Order.Bounds.Basic

/-!
# Tables

A column of a table is as wide as its widest cell (`widths_isGreatest`), and so it begins at the
same place in all lines, its `offset`. A line shows its cells at these places and blanks everywhere
else (`Aligned`). This is proved column by column of a line that does not pad its last cell
(`aligned_flush`). That all that is cut off a line is this padding is a matter of reports: their
last cells are neither empty nor end in white space (`visible_last`).
-/

namespace FuncSpans

namespace Decimal

/-- A numeral ends in a digit. -/
theorem Numeral.getLast?_isDigit {cs : List Char} (h : Numeral cs) :
    ∃ c, cs.getLast? = some c ∧ c.isDigit = true := by
  have hDigits {ds : List Char} (h : Digits ds) (front : List Char) :
      ∃ c, (front ++ ds).getLast? = some c ∧ c.isDigit = true :=
    ⟨ds.getLast h.1, by rw [List.getLast?_append_of_ne_nil _ h.1, List.getLast?_eq_some_getLast h.1],
      h.2 _ (List.getLast_mem h.1)⟩
  obtain ⟨whole, fraction, exponent, hWhole, hFraction, hExponent, rfl⟩ := h
  rcases hExponent with rfl | ⟨mark, sign, ds, -, -, hds, rfl⟩
  · rcases hFraction with rfl | ⟨ds, hds, rfl⟩
    · simpa using hDigits hWhole.digits []
    · simpa using hDigits hds (whole ++ ['.'])
  · simpa using hDigits hds (whole ++ fraction ++ mark :: sign)

end Decimal

namespace Report.Table

/-! ## Widths -/

theorem getElem?_wider (ms ns : List Nat) (c : Nat) :
    (wider ms ns)[c]? = Option.merge max ms[c]? ns[c]? := by
  induction ms generalizing ns c with
  | nil => cases h : ns[c]? <;> simp [wider, h]
  | cons m ms ih =>
    cases ns with
    | nil => cases h : (m :: ms)[c]? <;> simp [wider, h]
    | cons n ns =>
      cases c with
      | zero => rfl
      | succ c => exact ih ns c

/-- The numbers of characters of the cells in a column. -/
def lengthsAt (rows : List (List (List Char))) (c : Nat) : Set Nat :=
  {n | ∃ row ∈ rows, ∃ cell, row[c]? = some cell ∧ cell.length = n}

theorem lengthsAt_cons (row : List (List Char)) (rows : List (List (List Char))) (c : Nat) :
    lengthsAt (row :: rows) c = {n | (row.map List.length)[c]? = some n} ∪ lengthsAt rows c := by
  ext n
  simp [lengthsAt, List.getElem?_map, Option.map_eq_some_iff]

theorem isGreatest_merge {a b : Option Nat} {s : Set Nat} {w : Nat}
    (h : IsGreatest ({n | Option.merge max a b = some n} ∪ s) w) :
    IsGreatest ({n | a = some n} ∪ ({n | b = some n} ∪ s)) w := by
  cases a with
  | none => simpa using h
  | some m =>
    cases b with
    | none => simpa using h
    | some n =>
      simp only [Option.merge, Option.some.injEq, Set.ofPred_eq_eq_singleton',
        Set.singleton_union] at h ⊢
      obtain ⟨hMem, hBound⟩ := h
      have hMax : max m n ≤ w := hBound (Set.mem_insert _ _)
      refine ⟨?_, ?_⟩
      · rcases hMem with rfl | hMem
        · rcases le_total m n with h | h <;> simp [h]
        · exact Or.inr (Or.inr hMem)
      · rintro k (rfl | rfl | hk)
        · exact (le_max_left _ _).trans hMax
        · exact (le_max_right _ _).trans hMax
        · exact hBound (Or.inr hk)

/-- The widths that some rows have come to, taken further over more rows. -/
theorem foldl_isGreatest {rows : List (List (List Char))} {ws : List Nat} {c w : Nat}
    (h : (rows.foldl (fun ws row => wider ws (row.map List.length)) ws)[c]? = some w) :
    IsGreatest ({n | ws[c]? = some n} ∪ lengthsAt rows c) w := by
  induction rows generalizing ws with
  | nil => exact ⟨Or.inl h, by simp [lengthsAt, upperBounds, show ws[c]? = some w from h]⟩
  | cons row rows ih =>
    have hRest := ih h
    rw [getElem?_wider] at hRest
    rw [lengthsAt_cons]
    exact isGreatest_merge hRest

/-- A column is as wide as the widest cell in it. -/
theorem widths_isGreatest {rows : List (List (List Char))} {c w : Nat}
    (h : (widths rows)[c]? = some w) : IsGreatest (lengthsAt rows c) w := by
  simpa using foldl_isGreatest h

theorem length_wider (ms ns : List Nat) : (wider ms ns).length = max ms.length ns.length := by
  induction ms generalizing ns with
  | nil => simp [wider]
  | cons m ms ih =>
    cases ns with
    | nil => simp [wider]
    | cons n ns => simp [wider, ih, Nat.add_max_add_right]

theorem length_widths {rows : List (List (List Char))} {n : Nat} (hNe : rows ≠ [])
    (h : ∀ row ∈ rows, row.length = n) : (widths rows).length = n := by
  have hFold (rows : List (List (List Char))) (ws : List Nat) (hws : ws.length = n)
      (h : ∀ row ∈ rows, row.length = n) :
      (rows.foldl (fun ws row => wider ws (row.map List.length)) ws).length = n := by
    induction rows generalizing ws with
    | nil => exact hws
    | cons row rows ih =>
      obtain ⟨hRow, hRows⟩ := List.forall_mem_cons.mp h
      exact ih _ (by rw [length_wider, List.length_map, hws, hRow, max_self]) hRows
  obtain ⟨first, rows, rfl⟩ := List.exists_cons_of_ne_nil hNe
  obtain ⟨hFirst, hRows⟩ := List.forall_mem_cons.mp h
  exact hFold rows _ ((List.length_map _).trans hFirst) hRows

/-- No cell is wider than its column. -/
theorem fits_widths {rows : List (List (List Char))} {row : List (List Char)} (hRow : row ∈ rows)
    (hLength : row.length = (widths rows).length) :
    List.Forall₂ (fun cell w => cell.length ≤ w) row (widths rows) :=
  List.forall₂_iff_get.mpr ⟨hLength, fun _ hCell hWidth =>
    (widths_isGreatest (List.getElem?_eq_getElem hWidth)).2
      ⟨row, hRow, _, List.getElem?_eq_getElem hCell, rfl⟩⟩

/-! ## Lines -/

/-- Where a column begins: behind the columns before it, with two blanks behind each. -/
def offset (ws : List Nat) (c : Nat) : Nat := ((ws.take c).map (· + 2)).sum

theorem offset_zero (ws : List Nat) : offset ws 0 = 0 := rfl

theorem offset_succ (w : Nat) (ws : List Nat) (c : Nat) :
    offset (w :: ws) (c + 1) = w + 2 + offset ws c := by
  simp [offset]

/-- A line shows the cells of a row in columns of some widths. -/
structure Aligned (ws : List Nat) (row : List (List Char)) (shown : List Char) : Prop where
  columns : row.length = ws.length
  /-- Every cell stands where its column begins. -/
  at_offset : ∀ c cell, row[c]? = some cell → cell <+: shown.drop (offset ws c)
  /-- All else are blanks. -/
  blank : ∀ i x, shown[i]? = some x → (∀ c cell, row[c]? = some cell →
    ¬ (offset ws c ≤ i ∧ i < offset ws c + cell.length)) → x = ' '
  /-- At least two of them stand between neighbouring cells. -/
  apart : ∀ c cell, row[c]? = some cell → c + 1 < row.length →
    offset ws c + cell.length + 2 ≤ offset ws (c + 1)
  /-- The line ends with its last cell. -/
  ends : ∀ c cell, row[c]? = some cell → c + 1 = row.length →
    offset ws c + cell.length = shown.length
  /-- What stands in the width of a column is its cell and the blanks that fill it up. -/
  filled : ∀ c cell w, row[c]? = some cell → ws[c]? = some w →
    ∃ n, (shown.drop (offset ws c)).take w = cell ++ List.replicate n ' '

/-- A line without the padding of its last cell. -/
def flush : List Nat → List (List Char) → List Char
  | _, [] => []
  | _, [cs] => cs
  | ws, cs :: rest => pad (ws.headD 0) cs ++ ' ' :: ' ' :: flush ws.tail rest

/-- The first column of a line, up to the next one. -/
theorem flush_cons (w : Nat) (ws : List Nat) (cs next : List Char) (rest : List (List Char)) :
    flush (w :: ws) (cs :: next :: rest) =
      (cs ++ List.replicate (w - cs.length + 2) ' ') ++ flush ws (next :: rest) := by
  simp [flush, pad, List.replicate_succ', List.append_assoc]

theorem aligned_singleton {w : Nat} {cs : List Char} (h : cs.length ≤ w) :
    Aligned [w] [cs] cs := by
  have hOnly {c : Nat} {cell : List Char} (hCell : [cs][c]? = some cell) : c = 0 ∧ cell = cs := by
    cases c with
    | zero => exact ⟨rfl, (Option.some.inj hCell).symm⟩
    | succ c => cases hCell
  refine ⟨rfl, fun c cell hCell => ?_, fun i x hx hOut => ?_, fun c cell hCell hc => ?_,
    fun c cell hCell _ => ?_, fun c cell w' hCell hWidth => ?_⟩
  · obtain ⟨rfl, rfl⟩ := hOnly hCell
    exact List.prefix_rfl
  · have hi : i < cs.length := (List.getElem?_eq_some_iff.mp hx).1
    exact (hOut 0 cs rfl ⟨Nat.zero_le i, (Nat.zero_add _).symm ▸ hi⟩).elim
  · cases hc
    obtain ⟨-, rfl⟩ := hOnly hCell
    contradiction
  · obtain ⟨rfl, rfl⟩ := hOnly hCell
    exact Nat.zero_add _
  · obtain ⟨rfl, rfl⟩ := hOnly hCell
    obtain rfl : w = w' := Option.some.inj hWidth
    exact ⟨0, by rw [offset_zero, List.drop_zero, List.take_of_length_le h]; simp⟩

/-- A cell and its padding fill the width of their column. -/
theorem take_padded {w : Nat} {cs : List Char} (hFits : cs.length ≤ w) (rest : List Char) :
    (cs ++ List.replicate (w - cs.length + 2) ' ' ++ rest).take w =
      cs ++ List.replicate (w - cs.length) ' ' := by
  have hSplit : cs ++ List.replicate (w - cs.length + 2) ' ' ++ rest =
      cs ++ List.replicate (w - cs.length) ' ' ++ ([' ', ' '] ++ rest) := by
    simp [List.replicate_add, List.append_assoc]
  have hWhole : w = (cs ++ List.replicate (w - cs.length) ' ').length := by
    rw [List.length_append, List.length_replicate, Nat.add_sub_cancel' hFits]
  rw [hSplit]
  exact List.take_left' hWhole.symm

/-- Behind a cell its padding is all blanks. -/
theorem eq_blank_of_padded {cs : List Char} {n i : Nat} {x : Char}
    (hx : (cs ++ List.replicate n ' ')[i]? = some x) (hi : cs.length ≤ i) : x = ' ' := by
  rw [List.getElem?_append_right hi] at hx
  exact List.eq_of_mem_replicate (List.mem_of_getElem? hx)

/-- A cell with its padding goes before a line. -/
theorem Aligned.cons {w : Nat} {ws : List Nat} {cs : List Char} {row : List (List Char)}
    {shown : List Char} (h : Aligned ws row shown) (hRow : row ≠ []) (hFits : cs.length ≤ w) :
    Aligned (w :: ws) (cs :: row) (cs ++ List.replicate (w - cs.length + 2) ' ' ++ shown) := by
  have hFront : (cs ++ List.replicate (w - cs.length + 2) ' ').length = w + 2 := by
    rw [List.length_append, List.length_replicate]
    omega
  have hDrop (k : Nat) : (cs ++ List.replicate (w - cs.length + 2) ' ' ++ shown).drop (w + 2 + k) =
      shown.drop k := by rw [← hFront, List.drop_length_add_append]
  refine ⟨congrArg Nat.succ h.columns, fun c cell hCell => ?_, fun i x hx hOut => ?_,
    fun c cell hCell hc => ?_, fun c cell hCell hc => ?_, fun c cell w' hCell hWidth => ?_⟩
  · cases c with
    | zero =>
      obtain rfl : cs = cell := Option.some.inj hCell
      rw [List.append_assoc]
      exact List.prefix_append _ _
    | succ c =>
      rw [offset_succ, hDrop]
      exact h.at_offset c cell hCell
  · by_cases hi : i < w + 2
    · rw [List.getElem?_append_left (hFront ▸ hi)] at hx
      exact eq_blank_of_padded hx (Nat.le_of_not_lt fun hLt =>
        hOut 0 cs rfl ⟨Nat.zero_le i, (Nat.zero_add _).symm ▸ hLt⟩)
    · have hPast : w + 2 ≤ i := Nat.le_of_not_lt hi
      rw [List.getElem?_append_right (hFront.trans_le hPast), hFront] at hx
      refine h.blank _ x hx fun c cell hCell hIn => hOut (c + 1) cell hCell ?_
      rw [offset_succ]
      omega
  · cases c with
    | zero =>
      obtain rfl : cs = cell := Option.some.inj hCell
      rw [offset_zero, offset_succ, offset_zero]
      omega
    | succ c =>
      have := h.apart c cell hCell (Nat.lt_of_succ_lt_succ hc)
      rw [offset_succ, offset_succ]
      omega
  · cases c with
    | zero => exact (hRow (List.length_eq_zero_iff.mp (Nat.succ.inj hc).symm)).elim
    | succ c =>
      have := h.ends c cell hCell (Nat.succ.inj hc)
      rw [offset_succ, List.length_append, hFront]
      omega
  · cases c with
    | zero =>
      obtain rfl : cs = cell := Option.some.inj hCell
      obtain rfl : w = w' := Option.some.inj hWidth
      exact ⟨w - cs.length, by rw [offset_zero, List.drop_zero, take_padded hFits]⟩
    | succ c =>
      rw [offset_succ, hDrop]
      exact h.filled c cell w' hCell hWidth

/-- A line whose last cell is not padded. -/
theorem aligned_flush {ws : List Nat} {row : List (List Char)} (hNe : row ≠ [])
    (h : List.Forall₂ (fun cell w => cell.length ≤ w) row ws) : Aligned ws row (flush ws row) := by
  induction h with
  | nil => exact (hNe rfl).elim
  | @cons cs w row ws hFits hRest ih =>
    cases hRest with
    | nil => exact aligned_singleton hFits
    | cons =>
      rw [flush_cons]
      exact (ih (by simp)).cons (by simp) hFits

theorem suffix_flush {row : List (List Char)} {last : List Char} (h : row.getLast? = some last)
    (ws : List Nat) : last <:+ flush ws row := by
  induction row generalizing ws with
  | nil => cases h
  | cons cs row ih =>
    cases row with
    | nil =>
      obtain rfl : cs = last := Option.some.inj h
      exact List.suffix_rfl
    | cons next row =>
      rw [List.getLast?_cons_cons] at h
      exact (ih h ws.tail).trans ((List.suffix_append [' ', ' '] _).trans (List.suffix_append _ _))

theorem joined_eq_flush (ws : List Nat) (row : List (List Char)) :
    ∃ n, joined ws row = flush ws row ++ List.replicate n ' ' := by
  induction row generalizing ws with
  | nil => exact ⟨0, rfl⟩
  | cons cs row ih =>
    cases row with
    | nil => exact ⟨_, rfl⟩
    | cons next row =>
      obtain ⟨n, hn⟩ := ih ws.tail
      exact ⟨n, by simp only [joined, flush, hn, List.append_assoc, List.cons_append]⟩

/-! ## White space at the end -/

/-- A text is not empty and does not end in white space. -/
def Visible (cs : List Char) : Prop := ∃ c, cs.getLast? = some c ∧ Text.isBlank c = false

theorem Visible.ne_nil {cs : List Char} (h : Visible cs) : cs ≠ [] := by
  rintro rfl
  obtain ⟨c, hLast, -⟩ := h
  cases hLast

theorem Visible.append_left {cs : List Char} (h : Visible cs) (front : List Char) :
    Visible (front ++ cs) := by
  rwa [Visible, List.getLast?_append_of_ne_nil _ h.ne_nil]

/-- Blanks behind a text that does not end in white space are all that is cut off. -/
theorem Visible.trimEnd {cs : List Char} (h : Visible cs) (n : Nat) :
    Text.trimEnd (cs ++ List.replicate n ' ') = cs := by
  obtain ⟨c, hLast, hBlank⟩ := h
  obtain ⟨front, rfl⟩ := List.getLast?_eq_some_iff.mp hLast
  have hSpaces : ∀ x ∈ List.replicate n ' ', Text.isBlank x = true := fun x hx => by
    rw [List.eq_of_mem_replicate hx]
    rfl
  rw [Text.trimEnd, List.reverse_append, List.reverse_replicate,
    List.dropWhile_append_of_pos hSpaces, List.reverse_append, List.reverse_singleton,
    List.singleton_append, List.dropWhile_cons_of_neg (by simp [hBlank]), List.reverse_cons,
    List.reverse_reverse]

/-- Nothing but the padding of its last cell is cut off a line. -/
theorem line_eq {row : List (List Char)} {last : List Char} (hLast : row.getLast? = some last)
    (h : Visible last) (ws : List Nat) : line ws row = flush ws row ++ ['\n'] := by
  obtain ⟨n, hJoined⟩ := joined_eq_flush ws row
  obtain ⟨front, hFlush⟩ := suffix_flush hLast ws
  have hVisible : Visible (flush ws row) := hFlush ▸ h.append_left front
  rw [line, hJoined, hVisible.trimEnd]

theorem not_isBlank_of_isDigit {c : Char} (h : c.isDigit = true) : Text.isBlank c = false := by
  obtain ⟨hLow, hHigh⟩ : 48 ≤ c.toNat ∧ c.toNat ≤ 57 := by
    simpa [Char.isDigit, UInt32.le_iff_toNat_le] using h
  simp only [Text.isBlank, Bool.or_eq_false_iff, Bool.and_eq_false_iff, decide_eq_false_iff_not,
    beq_eq_false_iff_ne]
  omega

theorem visible_of_digits {cs : List Char} (h : Decimal.Digits cs) : Visible cs :=
  ⟨cs.getLast h.1, List.getLast?_eq_some_getLast h.1,
    not_isBlank_of_isDigit (h.2 _ (List.getLast_mem h.1))⟩

theorem visible_cell (x : Option Binary64) : Visible (cell x) := by
  cases x with
  | none => exact ⟨'-', rfl, by decide⟩
  | some x =>
    have hFinite (m : Nat) (q : Int) : Visible (numbers.finite m q) := by
      obtain ⟨c, hLast, hDigit⟩ := (numbers.numeral_finite m q).getLast?_isDigit
      exact ⟨c, hLast, not_isBlank_of_isDigit hDigit⟩
    rw [cell, NumberFormat.write]
    split
    · exact ⟨'N', rfl, by decide⟩
    · split
      · exact ⟨'f', rfl, by decide⟩
      · exact ⟨'f', rfl, by decide⟩
    · rename_i m q _
      split
      · exact (hFinite m q).append_left ['-']
      · exact hFinite m q

/-- The rows of a report have as many cells as its header, and their last cells are neither empty nor
end in white space. -/
theorem visible_last (r : Report) : ∀ row ∈ r.header headers :: r.rows cell,
    row.length = (r.header headers).length ∧ ∃ last, row.getLast? = some last ∧ Visible last := by
  cases r with
  | records s =>
    refine List.forall_mem_cons.mpr ⟨⟨rfl, _, rfl, 's', by decide, by decide⟩, fun row hRow => ?_⟩
    obtain ⟨g, -, hRow⟩ := List.mem_flatMap.mp hRow
    obtain ⟨f, -, rfl⟩ := List.mem_map.mp hRow
    exact ⟨rfl, _, rfl, visible_of_digits (Decimal.digits_natDigits f.lines)⟩
  | summaries gs =>
    refine List.forall_mem_cons.mpr ⟨⟨rfl, _, rfl, 'e', by decide, by decide⟩, fun row hRow => ?_⟩
    obtain ⟨g, -, rfl⟩ := List.mem_map.mp hRow
    exact ⟨rfl, _, rfl, visible_cell g.2.p99⟩

/-! ## Main statement -/

/-- A report is shown line by line, its header and its rows, with every column as wide as its widest
cell. Each line has its cells where their columns begin and blanks everywhere else, at least two
between neighbours, and ends with its last cell, of which it shows all. So what stands in a line in
the width of a column is the cell, and behind it the blanks that are missing in this width. -/
theorem render_aligned (r : Report) :
    let rows := r.header headers :: r.rows cell
    (∀ c w, (widths rows)[c]? = some w → IsGreatest (lengthsAt rows c) w) ∧
      ∃ lines, render r = lines.flatMap (· ++ ['\n']) ∧
        List.Forall₂ (fun row shown => Aligned (widths rows) row shown ∧
          ∃ last, row.getLast? = some last ∧ last ≠ [] ∧ last <:+ shown) rows lines := by
  intro rows
  have hRows := visible_last r
  refine ⟨fun c w => widths_isGreatest, rows.map (flush (widths rows)), ?_, ?_⟩
  · have hLine : ∀ row ∈ rows, line (widths rows) row = flush (widths rows) row ++ ['\n'] := by
      intro row hRow
      obtain ⟨-, last, hLast, hVisible⟩ := hRows row hRow
      exact line_eq hLast hVisible _
    rw [List.flatMap_map]
    exact List.flatMap_congr hLine
  · refine List.forall₂_map_right_iff.mpr (List.forall₂_same.mpr fun row hRow => ?_)
    obtain ⟨hLength, last, hLast, hVisible⟩ := hRows row hRow
    have hColumns : row.length = (widths rows).length :=
      hLength.trans (length_widths (List.cons_ne_nil _ _) fun row h => (hRows row h).1).symm
    have hNe : row ≠ [] := by
      rintro rfl
      cases hLast
    exact ⟨aligned_flush hNe (fits_widths hRow hColumns), last, hLast, hVisible.ne_nil,
      suffix_flush hLast _⟩

end Report.Table

end FuncSpans
