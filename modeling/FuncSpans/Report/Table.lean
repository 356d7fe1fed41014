import FuncSpans.Report.Basic
import FuncSpans.Text.Character

/-!
# Tables

A left-aligned table: every cell is padded to the widest cell of its column, two blanks stand
between columns, and white space at the end of a line is cut off. Statistics have two places;
an undefined one is a dash.
-/

namespace FuncSpans.Report.Table

/-- How numbers are written. -/
def numbers : NumberFormat where
  places := .fixed 2
  tiesToEven := true
  nan := ['N', 'a', 'N']
  infinite := ['i', 'n', 'f']
  negativeInfinite := ['-', 'i', 'n', 'f']

def cell : Option Binary64 → List Char
  | none => ['-']
  | some x => numbers.write x

def headers : Headers where
  records := ["group", "function_name", "file_name", "start_line", "end_line", "lines"].map
    String.toList
  summaries := ["group", "mean", "median", "95%ile", "99%ile"].map String.toList

/-- The wider of two rows, column by column. -/
def wider : List Nat → List Nat → List Nat
  | [], ns => ns
  | ms, [] => ms
  | m :: ms, n :: ns => max m n :: wider ms ns

/-- The width of every column. -/
def widths (rows : List (List (List Char))) : List Nat :=
  rows.foldl (fun ws row => wider ws (row.map List.length)) []

/-- A cell filled up with blanks. -/
def pad (width : Nat) (cs : List Char) : List Char :=
  cs ++ List.replicate (width - cs.length) ' '

/-- Padded cells with two blanks between them. -/
def joined : List Nat → List (List Char) → List Char
  | _, [] => []
  | ws, [cs] => pad (ws.headD 0) cs
  | ws, cs :: rest => pad (ws.headD 0) cs ++ ' ' :: ' ' :: joined ws.tail rest

def line (ws : List Nat) (cells : List (List Char)) : List Char :=
  Text.trimEnd (joined ws cells) ++ ['\n']

def layout (rows : List (List (List Char))) : List Char :=
  rows.flatMap (line (widths rows))

def render (r : Report) : List Char := layout (r.header headers :: r.rows cell)

end FuncSpans.Report.Table
