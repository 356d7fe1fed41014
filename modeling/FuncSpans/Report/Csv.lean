import FuncSpans.Report.Basic

/-!
# Comma-separated values

Rows end in CR LF and cells are separated by commas. A cell is quoted if it holds a comma, a
quote, CR or LF, or starts with a blank or a tab; in a quoted cell every quote is doubled.
Statistics have the shortest digits, never an exponent; an undefined one is an empty cell.
-/

namespace FuncSpans.Report.Csv

/-- How numbers are written. -/
def numbers : NumberFormat where
  places := .positional
  tiesToEven := false
  nan := ['N', 'a', 'N']
  infinite := ['i', 'n', 'f']
  negativeInfinite := ['-', 'i', 'n', 'f']

def cell : Option Binary64 → List Char
  | none => []
  | some x => numbers.write x

def headers : Headers where
  records := ["package", "functionName", "fileName", "startsAt", "endsAt", "lines"].map
    String.toList
  summaries := ["package", "mean", "median", "95%ile", "99%ile"].map String.toList

/-- Whether a character makes quotes necessary wherever it stands. -/
def isSpecial (c : Char) : Bool := c == ',' || c == '"' || c == '\r' || c == '\n'

def needsQuotes (cs : List Char) : Bool :=
  cs.any isSpecial || cs.head? == some ' ' || cs.head? == some '\t'

/-- The text with every quote doubled. -/
def doubleQuotes (cs : List Char) : List Char :=
  cs.flatMap fun c => if c = '"' then ['"', '"'] else [c]

def field (cs : List Char) : List Char :=
  if needsQuotes cs then '"' :: doubleQuotes cs ++ ['"'] else cs

/-- Cells with commas between them. -/
def joined : List (List Char) → List Char
  | [] => []
  | [cs] => field cs
  | cs :: rest => field cs ++ ',' :: joined rest

def row (cells : List (List Char)) : List Char := joined cells ++ ['\r', '\n']

def render (r : Report) : List Char :=
  row (r.header headers) ++ (r.rows cell).flatMap row

end FuncSpans.Report.Csv
