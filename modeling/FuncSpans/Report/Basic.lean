import FuncSpans.Record.Store
import FuncSpans.Number.Format

/-!
# Reports

A report shows every record or one summary per group. As a table it is a list of rows of
cells; how a statistic is written is a matter of the format.
-/

namespace FuncSpans

/-- What is shown. -/
inductive Report where
  | records (store : Store)
  /-- Groups in the order of their names. -/
  | summaries (rows : List (String × Summary Binary64))

namespace Report

/-- Every record of a store, or the summary of each group. -/
def ofStore (s : Store) (stats : Bool) : Report :=
  if stats then .summaries s.summaries else .records s

/-- The cells of a record. -/
def recordCells (group : String) (r : Record) : List (List Char) :=
  [group.toList, r.name.toList, r.fileText.toList, Decimal.natDigits r.startsAt,
    Decimal.natDigits r.endsAt, Decimal.natDigits r.lines]

/-- The rows below the header, given how a statistic is written. -/
def rows (cell : Option Binary64 → List Char) : Report → List (List (List Char))
  | .records s => s.groups.flatMap fun (name, rs) => rs.map (recordCells name)
  | .summaries gs => gs.map fun (name, s) => name.toList :: s.fields.map cell

/-- A header for records and one for summaries. -/
structure Headers where
  records : List (List Char)
  summaries : List (List Char)

/-- The header that a report has. -/
def header (h : Headers) : Report → List (List Char)
  | .records _ => h.records
  | .summaries _ => h.summaries

end Report

end FuncSpans
