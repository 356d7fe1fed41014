import FuncSpans.Project.Value
import FuncSpans.Settings.Basic

/-!
# Settings of a project

A project file may leave everything open. What it says is read as a whole: one wrong value
makes all of it invalid, but names that mean nothing here are passed over. A table may also be
written as the list of its fields in their order.
-/

namespace FuncSpans

/-- What a project says. -/
structure ProjectSettings where
  /-- The name of the format, which is not checked here. -/
  format : Option String
  grouping : Option Grouping
  includeTests : Option Bool
  statistics : Option Bool
  workers : Option Nat
  /-- Patterns to exclude. -/
  paths : List String
  /-- Whether the built-in patterns do not count. -/
  skipBuiltIn : Bool
  respectIgnoreFiles : Bool
  deriving DecidableEq, Repr

namespace ProjectSettings

/-- A project that says nothing. -/
def silent : ProjectSettings where
  format := none
  grouping := none
  includeTests := none
  statistics := none
  workers := none
  paths := []
  skipBuiltIn := false
  respectIgnoreFiles := true

instance : Inhabited ProjectSettings := ⟨silent⟩

/-! ## Reading -/

/-- In what the notations of project files differ. -/
structure Dialect where
  /-- Whether a list of fields may go on after the last one. -/
  longLists : Bool
  /-- Whether a value says nothing. -/
  isNothing : ProjectValue → Bool

namespace Dialect

def json : Dialect where
  longLists := false
  isNothing
    | .null => true
    | _ => false

def toml : Dialect where
  longLists := true
  isNothing
    | .table [] | .list [] => true
    | _ => false

end Dialect

/-- The member of a name, if there is one; fails if there are two. -/
def member? (name : String) (ms : List (List Char × ProjectValue)) :
    Option (Option ProjectValue) :=
  match ms.filter (·.1 == name.toList) with
  | [] => some none
  | [(_, v)] => some (some v)
  | _ => none

/-- The fields of a table, or of a list in place of it. -/
def fields? (d : Dialect) (names : List String) : ProjectValue → Option (List (Option ProjectValue))
  | .table ms => names.mapM (member? · ms)
  | .list vs =>
    if vs.length ≤ names.length || d.longLists then
      some ((vs.take names.length).map some ++ List.replicate (names.length - vs.length) none)
    else none
  | _ => none

/-- A field that may be missing or left open. -/
def optional {α : Type} (read : ProjectValue → Option α) : Option ProjectValue → Option (Option α)
  | none | some .null => some none
  | some v => (read v).map some

/-- A field that may be missing. -/
def withDefault {α : Type} (standard : α) (read : ProjectValue → Option α) :
    Option ProjectValue → Option α
  | none => some standard
  | some v => read v

def text? : ProjectValue → Option String
  | .text cs => some (String.ofList cs)
  | _ => none

def bool? : ProjectValue → Option Bool
  | .bool b => some b
  | _ => none

def natural? : ProjectValue → Option Nat
  | .natural n => some n
  | _ => none

def texts? : ProjectValue → Option (List String)
  | .list vs => vs.mapM text?
  | _ => none

/-- A grouping: its name, or a table with its name and nothing under it. -/
def grouping? (d : Dialect) : ProjectValue → Option Grouping
  | .text name => Grouping.named? (String.ofList name)
  | .table [(name, v)] => if d.isNothing v then Grouping.named? (String.ofList name) else none
  | _ => none

/-- Reads what stands under `defaults` into a project's settings. -/
def readDefaults (d : Dialect) (p : ProjectSettings) (v : ProjectValue) : Option ProjectSettings :=
  match fields? d ["format", "group_by", "include_tests", "stats", "workers"] v with
  | some [format, grouping, includeTests, statistics, workers] => do
    let format ← optional text? format
    let grouping ← optional (grouping? d) grouping
    let includeTests ← optional bool? includeTests
    let statistics ← optional bool? statistics
    let workers ← optional natural? workers
    some { p with format, grouping, includeTests, statistics, workers }
  | _ => none

/-- Reads what stands under `exclude` into a project's settings. -/
def readExclude (d : Dialect) (p : ProjectSettings) (v : ProjectValue) : Option ProjectSettings :=
  match fields? d ["paths", "skip_defaults", "respect_gitignore"] v with
  | some [paths, skipBuiltIn, respectIgnoreFiles] => do
    let paths ← withDefault [] texts? paths
    let skipBuiltIn ← withDefault false bool? skipBuiltIn
    let respectIgnoreFiles ← withDefault true bool? respectIgnoreFiles
    some { p with paths, skipBuiltIn, respectIgnoreFiles }
  | _ => none

/-- The settings of a project file. -/
def ofValue? (d : Dialect) (v : ProjectValue) : Option ProjectSettings :=
  match fields? d ["defaults", "exclude"] v with
  | some [defaults, exclude] => do
    let p ← withDefault silent (readDefaults d silent) defaults
    withDefault p (readExclude d p) exclude
  | _ => none

/-! ## Use -/

/-- Patterns with others after them, each pattern once. -/
def addPatterns (ps : List String) (more : List String) : List String :=
  more.foldl (fun ps p => if p ∈ ps then ps else ps ++ [p]) ps

/-- The patterns that are excluded. -/
def effectivePatterns (p : ProjectSettings) : List String :=
  addPatterns (if p.skipBuiltIn then [] else RunSettings.builtInPatterns) p.paths

/-- The settings of a run with what is left open filled in. -/
def runSettings (p : ProjectSettings) : RunSettings where
  includeTests := p.includeTests.getD RunSettings.standard.includeTests
  grouping := p.grouping.getD RunSettings.standard.grouping
  exclude := p.effectivePatterns
  respectIgnoreFiles := p.respectIgnoreFiles
  workers := p.workers.getD RunSettings.standard.workers

end ProjectSettings

end FuncSpans
