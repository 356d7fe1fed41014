import FuncSpans.Report.Basic
import FuncSpans.Json.Printer

/-!
# Reports as JSON

An object from groups to lists of records or to summaries. A statistic that is undefined or
not finite is `null`; others have the shortest digits, with an exponent where the number is
large or small.
-/

namespace FuncSpans.Report.Document

/-- How numbers are written. -/
def numbers : NumberFormat where
  places := .floating (-5) 15
  tiesToEven := true
  nan := ['n', 'u', 'l', 'l']
  infinite := ['n', 'u', 'l', 'l']
  negativeInfinite := ['n', 'u', 'l', 'l']

def ofStatistic : Option Binary64 → Json
  | none => .null
  | some x => match x.parts with
    | .finite .. => .number (numbers.write x)
    | _ => .null

def ofNat (n : Nat) : Json := .number (Decimal.natDigits n)

def ofRecord (r : Record) : Json := .object [
  ("group".toList, .string r.group.toList),
  ("package".toList, .string r.package.toList),
  ("function_name".toList, .string r.name.toList),
  ("file_name".toList, .string r.fileText.toList),
  ("starts_at".toList, ofNat r.startsAt),
  ("ends_at".toList, ofNat r.endsAt),
  ("lines".toList, ofNat r.lines)]

def ofSummary (s : Summary Binary64) : Json := .object [
  ("mean".toList, ofStatistic s.mean),
  ("median".toList, ofStatistic s.median),
  ("95%ile".toList, ofStatistic s.p95),
  ("99%ile".toList, ofStatistic s.p99)]

/-- The value that shows a report. -/
def ofReport : Report → Json
  | .records s => .object (s.groups.map fun (name, rs) =>
      (name.toList, .array (rs.map ofRecord)))
  | .summaries gs => .object (gs.map fun (name, s) => (name.toList, ofSummary s))

def render (r : Report) : List Char := (ofReport r).print 0 ++ ['\n']

end FuncSpans.Report.Document
