import FuncSpans.Report.Csv
import FuncSpans.Report.Document
import FuncSpans.Report.Table
import FuncSpans.Text.Character

/-!
# Formats

The formats of a report and their names. Rendering succeeds for every report and format.
-/

namespace FuncSpans

/-- The formats of a report. -/
inductive Format where
  | json
  | csv
  | text
  deriving DecidableEq, Repr

namespace Format

def name : Format → String
  | .json => "json"
  | .csv => "csv"
  | .text => "text"

/-- The format of exactly this name. -/
def named? (s : String) : Option Format := [Format.json, .csv, .text].find? (·.name == s)

/-- The format of a name, whatever its case. -/
def ofName? (s : String) : Option Format :=
  match Text.lowerCase s with
  | "json" => some .json
  | "csv" => some .csv
  | "text" | "txt" | "table" => some .text
  | _ => none

/-- What is said of a name that is none. -/
def unknownMessage (s : String) : String :=
  "Unknown format '" ++ s ++ "'. Valid formats: json, csv, text"

end Format

namespace Report

def render (r : Report) : Format → String
  | .json => String.ofList (Document.render r)
  | .csv => String.ofList (Csv.render r)
  | .text => String.ofList (Table.render r)

end Report

/-- What records are grouped by. -/
inductive Grouping where
  /-- The directory of the file. -/
  | directory
  /-- The package that the file names. -/
  | package
  deriving DecidableEq, Repr

namespace Grouping

def name : Grouping → String
  | .directory => "directory"
  | .package => "package"

/-- The grouping of exactly this name. -/
def named? (s : String) : Option Grouping := [Grouping.directory, .package].find? (·.name == s)

/-- The grouping of a name, whatever its case. -/
def ofName? (s : String) : Option Grouping :=
  match Text.lowerCase s with
  | "directory" | "dir" => some .directory
  | "package" | "pkg" => some .package
  | _ => none

/-- What is said of a name that is none. -/
def unknownMessage (s : String) : String :=
  "Unknown grouping '" ++ s ++ "'. Valid values: directory, package"

end Grouping

end FuncSpans
