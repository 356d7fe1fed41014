import FuncSpans.Proofs.Number.Notation
import FuncSpans.Proofs.Record.Log
import FuncSpans.Report.Csv

/-!
# Reading comma-separated values

`Csv.read` reads the format of RFC 4180: rows end in CR LF, cells are separated by commas, and in a
quoted cell every character stands for itself but a quote, which is doubled. `read_rows` says that
any rows are read as they were written, whatever characters their cells hold, and `read_render` what
that means for a report.

The reader is a state machine over characters. A row is followed cell by cell: `run_field` tells
where a written cell and the comma or CR behind it lead.
-/

namespace FuncSpans.Report.Csv

/-! ## The reader -/

/-- Where a reader stands. -/
inductive Place where
  /-- Where a row begins, or ends the text. -/
  | row
  /-- Behind a comma. -/
  | cell
  /-- In a cell without quotes. -/
  | bare
  | quoted
  /-- Behind a quote in a quoted cell: the last one or the first of two. -/
  | closed
  /-- Behind the CR at the end of a row. -/
  | ending

/-- What has been read. -/
structure Reader where
  place : Place
  /-- The rows that have ended. -/
  rows : List (List (List Char))
  /-- The cells of the row that have ended. -/
  cells : List (List Char)
  /-- The characters of the cell. -/
  cell : List Char

namespace Reader

/-- Ends the cell at a comma or a CR. -/
def endCell? (r : Reader) (c : Char) : Option Reader :=
  if c = ',' then some ⟨.cell, r.rows, r.cells ++ [r.cell], []⟩
  else if c = '\r' then some ⟨.ending, r.rows, r.cells ++ [r.cell], []⟩
  else none

/-- Goes on with a cell without quotes. -/
def bare (r : Reader) (c : Char) : Option Reader :=
  if c = ',' ∨ c = '\r' then r.endCell? c
  else if c = '"' ∨ c = '\n' then none
  else some { r with place := .bare, cell := r.cell ++ [c] }

/-- Reads a character, if it may stand there. -/
def step (r : Reader) (c : Char) : Option Reader :=
  match r.place with
  | .row | .cell => if c = '"' then some { r with place := .quoted } else r.bare c
  | .bare => r.bare c
  | .quoted =>
    if c = '"' then some { r with place := .closed }
    else some { r with cell := r.cell ++ [c] }
  | .closed =>
    if c = '"' then some { r with place := .quoted, cell := r.cell ++ ['"'] }
    else r.endCell? c
  | .ending => if c = '\n' then some ⟨.row, r.rows ++ [r.cells], [], []⟩ else none

/-- The rows, if the text may end there. The last row need not have an end of its own. -/
def finish (r : Reader) : Option (List (List (List Char))) :=
  match r.place with
  | .row => some r.rows
  | .cell | .bare | .closed => some (r.rows ++ [r.cells ++ [r.cell]])
  | .quoted | .ending => none

end Reader

/-- The rows of a text, if it is in the format. -/
def read (cs : List Char) : Option (List (List (List Char))) :=
  (cs.foldlM Reader.step ⟨.row, [], [], []⟩).bind Reader.finish

/-! ## Cells -/

namespace Reader

variable {r : Reader}

theorem foldlM_cons {c : Char} {r' : Reader} (h : r.step c = some r') (cs : List Char) :
    (c :: cs).foldlM step r = cs.foldlM step r' := by
  rw [List.foldlM_cons, h]
  rfl

theorem foldlM_append {cs : List Char} {r' : Reader} (h : cs.foldlM step r = some r')
    (ds : List Char) : (cs ++ ds).foldlM step r = ds.foldlM step r' := by
  rw [List.foldlM_append, h]
  rfl

/-- A character that needs no quotes stands for itself. -/
theorem bare_of_not_special {c : Char} (h : isSpecial c = false) :
    r.bare c = some { r with place := .bare, cell := r.cell ++ [c] } := by
  simp only [isSpecial, Bool.or_eq_false_iff, beq_eq_false_iff_ne] at h
  obtain ⟨⟨⟨hComma, hQuote⟩, hReturn⟩, hFeed⟩ := h
  simp [bare, hComma, hQuote, hReturn, hFeed]

theorem run_bare {cs : List Char} (h : ∀ c ∈ cs, isSpecial c = false)
    (rows : List (List (List Char))) (cells : List (List Char)) (cell : List Char) :
    cs.foldlM step ⟨.bare, rows, cells, cell⟩ = some ⟨.bare, rows, cells, cell ++ cs⟩ := by
  induction cs generalizing cell with
  | nil => rw [List.append_nil]; rfl
  | cons c cs ih =>
    have hStep : step ⟨.bare, rows, cells, cell⟩ c = some ⟨.bare, rows, cells, cell ++ [c]⟩ :=
      bare_of_not_special (h c List.mem_cons_self)
    rw [foldlM_cons hStep, ih (fun d hd => h d (List.mem_cons_of_mem _ hd)), List.append_assoc,
      List.singleton_append]

/-- In quotes every character stands for itself, once quotes are doubled. -/
theorem run_quoted (cs : List Char) (rows : List (List (List Char))) (cells : List (List Char))
    (cell : List Char) : (doubleQuotes cs).foldlM step ⟨.quoted, rows, cells, cell⟩ =
      some ⟨.quoted, rows, cells, cell ++ cs⟩ := by
  induction cs generalizing cell with
  | nil => rw [List.append_nil]; rfl
  | cons c cs ih =>
    have hFirst : (if c = '"' then ['"', '"'] else [c]).foldlM step ⟨.quoted, rows, cells, cell⟩ =
        some ⟨.quoted, rows, cells, cell ++ [c]⟩ := by
      split_ifs with hQuote
      · simp [step, hQuote]
      · simp [step, hQuote]
    rw [doubleQuotes, List.flatMap_cons, foldlM_append hFirst]
    refine (ih (cell ++ [c])).trans ?_
    rw [List.append_assoc, List.singleton_append]

/-- A written cell is read as it was, up to the character that ends it. -/
theorem run_field (cs : List Char) {c : Char} (hc : c = ',' ∨ c = '\r') {place : Place}
    (hPlace : place = .row ∨ place = .cell) (rows : List (List (List Char)))
    (cells : List (List Char)) : (field cs ++ [c]).foldlM step ⟨place, rows, cells, []⟩ =
      endCell? ⟨place, rows, cells, cs⟩ c := by
  have hQuote : c ≠ '"' := by rcases hc with rfl | rfl <;> decide
  have hBare (r : Reader) : r.bare c = r.endCell? c := if_pos hc
  have hBegin (d : Char) : step ⟨place, rows, cells, []⟩ d =
      if d = '"' then some ⟨.quoted, rows, cells, []⟩ else bare ⟨place, rows, cells, []⟩ d := by
    rcases hPlace with rfl | rfl <;> rfl
  unfold field
  by_cases hNeeds : needsQuotes cs = true
  · have hOpen : step ⟨place, rows, cells, []⟩ '"' = some ⟨.quoted, rows, cells, []⟩ :=
      (hBegin '"').trans (if_pos rfl)
    rw [if_pos hNeeds, List.cons_append, List.cons_append, foldlM_cons hOpen, List.append_assoc,
      foldlM_append (run_quoted cs rows cells [])]
    simp [step, hQuote, endCell?]
  · rw [if_neg hNeeds]
    simp only [needsQuotes, Bool.or_eq_true, not_or, Bool.not_eq_true, List.any_eq_false] at hNeeds
    have hPlain : ∀ d ∈ cs, isSpecial d = false := fun d hd => by simpa using hNeeds.1.1 d hd
    cases cs with
    | nil => simp [hBegin, hQuote, hBare]
    | cons d ds =>
      have hd := hPlain d List.mem_cons_self
      have hFirst : step ⟨place, rows, cells, []⟩ d = some ⟨.bare, rows, cells, [d]⟩ := by
        rw [hBegin, if_neg, bare_of_not_special hd]
        · rfl
        · rintro rfl
          cases hd
      rw [List.cons_append, foldlM_cons hFirst,
        foldlM_append (run_bare (fun e he => hPlain e (List.mem_cons_of_mem _ he)) rows cells [d])]
      simp [step, hBare, endCell?]

/-! ## Rows -/

/-- A written row is read as it was. -/
theorem run_row {cells : List (List Char)} (h : cells ≠ []) {place : Place}
    (hPlace : place = .row ∨ place = .cell) (rows : List (List (List Char)))
    (before : List (List Char)) : (row cells).foldlM step ⟨place, rows, before, []⟩ =
      some ⟨.row, rows ++ [before ++ cells], [], []⟩ := by
  induction cells generalizing place before with
  | nil => exact (h rfl).elim
  | cons cs rest ih =>
    cases rest with
    | nil =>
      have hField := run_field cs (Or.inr rfl) hPlace rows before
      have hRow : row [cs] = (field cs ++ ['\r']) ++ ['\n'] := by simp [row, joined]
      rw [hRow, foldlM_append hField]
      rfl
    | cons next rest =>
      have hField := run_field cs (Or.inl rfl) hPlace rows before
      have hRow : row (cs :: next :: rest) = (field cs ++ [',']) ++ row (next :: rest) := by
        simp [row, joined]
      rw [hRow, foldlM_append hField]
      refine (ih (by simp) (Or.inr rfl) (before ++ [cs])).trans ?_
      rw [List.append_assoc, List.singleton_append]

theorem run_rows {rs : List (List (List Char))} (h : ∀ cells ∈ rs, cells ≠ [])
    (rows : List (List (List Char))) :
    (rs.flatMap row).foldlM step ⟨.row, rows, [], []⟩ = some ⟨.row, rows ++ rs, [], []⟩ := by
  induction rs generalizing rows with
  | nil => rw [List.append_nil]; rfl
  | cons cells rs ih =>
    have hRow := run_row (h cells List.mem_cons_self) (Or.inl rfl) rows []
    rw [List.flatMap_cons, foldlM_append hRow, ih fun ds hds => h ds (List.mem_cons_of_mem _ hds),
      List.nil_append, List.append_assoc, List.singleton_append]

end Reader

/-- Rows with at least one cell are read as they were, whatever their cells hold. -/
theorem read_rows {rs : List (List (List Char))} (h : ∀ cells ∈ rs, cells ≠ []) :
    read (rs.flatMap row) = some rs := by
  rw [read, Reader.run_rows h]
  rfl

/-! ## Reports -/

theorem cell_eq_nil_iff (x : Option Binary64) : cell x = [] ↔ x = none := by
  cases x with
  | none => simp [cell]
  | some x =>
    refine iff_of_false (fun h => ?_) (by simp)
    rw [cell, NumberFormat.write] at h
    split at h
    · cases h
    · split_ifs at h <;> cases h
    · rename_i m q _
      split_ifs at h
      exact (numbers.numeral_finite m q).ne_nil h

theorem render_eq (r : Report) : render r = (r.header headers :: r.rows cell).flatMap row := by
  rw [render, List.flatMap_cons]

theorem read_render_rows (r : Report) :
    read (render r) = some (r.header headers :: r.rows cell) := by
  rw [render_eq]
  refine read_rows (List.forall_mem_cons.mpr ⟨?_, fun cells hCells => ?_⟩)
  · cases r <;> exact List.cons_ne_nil _ _
  · cases r with
    | records s =>
      obtain ⟨group, _, hCells⟩ := List.mem_flatMap.mp hCells
      obtain ⟨_, _, rfl⟩ := List.mem_map.mp hCells
      exact List.cons_ne_nil _ _
    | summaries gs =>
      obtain ⟨_, _, rfl⟩ := List.mem_map.mp hCells
      exact List.cons_ne_nil _ _

/-- A report is read as just the rows that have been written. For records these are the header and a
row for each of them, group by group in the order of their bytes and within a group in the order in
which they have been inserted; for summaries the header and a row for each group. An undefined
statistic is the only empty cell, and reports with different rows have different texts. -/
theorem read_render :
    (∀ b : Store.Build, ∃ names : List String,
      (names.Pairwise fun m n => Utf8.ofString m < Utf8.ofString n) ∧
      (∀ name, name ∈ names ↔ ∃ e ∈ b.log, e.group = name) ∧
      read (render (.records b.store)) = some (
        ["package", "functionName", "fileName", "startsAt", "endsAt", "lines"].map String.toList ::
          names.flatMap fun name => (Store.insertedInto b.log name).map fun r =>
            [name.toList, r.name.toList, r.fileText.toList, Decimal.natDigits r.startsAt,
              Decimal.natDigits r.endsAt, Decimal.natDigits r.lines])) ∧
    (∀ gs : List (String × Summary Binary64), read (render (.summaries gs)) = some (
      ["package", "mean", "median", "95%ile", "99%ile"].map String.toList ::
        gs.map fun g => [g.1.toList, cell g.2.mean, cell g.2.median, cell g.2.p95, cell g.2.p99])) ∧
    (∀ x : Option Binary64, cell x = [] ↔ x = none) ∧
    ∀ r r' : Report, render r = render r' ↔
      r.header headers = r'.header headers ∧ r.rows cell = r'.rows cell := by
  refine ⟨fun b => ?_, fun gs => read_render_rows _, cell_eq_nil_iff, fun r r' => ⟨fun h => ?_, ?_⟩⟩
  · have hReplay := b.isReplay
    refine ⟨b.store.names, b.store.ordered.names.imp Utf8.ofString_lt_iff.mpr,
      fun _ => hReplay.mem_names_iff, (read_render_rows _).trans ?_⟩
    have hRows : Report.rows cell (.records b.store) =
        b.store.groups.flatMap fun g => g.2.map (recordCells g.1) := rfl
    rw [hRows, hReplay.groups_eq, List.flatMap_map]
    rfl
  · have hRead := congrArg read h
    rw [read_render_rows, read_render_rows, Option.some.injEq, List.cons.injEq] at hRead
    exact hRead
  · rintro ⟨hHeader, hRows⟩
    rw [render, render, hHeader, hRows]

end FuncSpans.Report.Csv
