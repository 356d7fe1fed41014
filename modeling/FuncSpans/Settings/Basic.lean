import FuncSpans.Report.Format

/-!
# Settings

What a run is told, and what it is told if nobody says otherwise.
-/

namespace FuncSpans

/-- The settings of a run. -/
structure RunSettings where
  /-- Whether a walk takes test files. -/
  includeTests : Bool
  grouping : Grouping
  /-- The patterns that keep entries out of a walk. -/
  exclude : List String
  /-- Whether ignore files count. -/
  respectIgnoreFiles : Bool
  /-- How many files may be read at a time; the answer does not depend on it. -/
  workers : Nat
  deriving DecidableEq, Repr

namespace RunSettings

/-- The patterns that are excluded unless a project says otherwise. -/
def builtInPatterns : List String := ["vendor/"]

/-- The settings if nobody says otherwise. -/
def standard : RunSettings where
  includeTests := false
  grouping := .directory
  exclude := builtInPatterns
  respectIgnoreFiles := true
  workers := 8

instance : Inhabited RunSettings := ⟨standard⟩

end RunSettings

end FuncSpans
