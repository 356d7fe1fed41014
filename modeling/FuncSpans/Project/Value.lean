import FuncSpans.Json.Reader
import FuncSpans.Toml.Basic

/-!
# Values of project files

A project file is written in TOML or in JSON. What the settings need to know of a value is the
same in both: a `ProjectValue`.
-/

namespace FuncSpans

/-- A value of a project file. -/
inductive ProjectValue where
  /-- A value that is left open. -/
  | null
  | bool (b : Bool)
  | natural (n : Nat)
  | text (cs : List Char)
  | list (elements : List ProjectValue)
  | table (members : List (List Char × ProjectValue))
  /-- A value that no setting can have. -/
  | other

namespace ProjectValue

/-! ## From JSON -/

/-- The largest number that JSON keeps exactly. -/
def largestNatural : Nat := UInt64.size - 1

/-- The value of a number that is spelled with digits only. -/
def ofSpelling (spelling : List Char) : ProjectValue :=
  if spelling.all Char.isDigit then
    let n := spelling.foldl (fun n d => n * 10 + (d.toNat - '0'.toNat)) 0
    if n ≤ largestNatural then .natural n else .other
  else .other

mutual

def ofJson : Json → ProjectValue
  | .null => .null
  | .bool b => .bool b
  | .number spelling => ofSpelling spelling
  | .string cs => .text cs
  | .array elements => .list (ofJsonElements elements)
  | .object members => .table (ofJsonMembers members)
  | .broken => .other

def ofJsonElements : List Json → List ProjectValue
  | [] => []
  | v :: vs => ofJson v :: ofJsonElements vs

def ofJsonMembers : List (List Char × Json) → List (List Char × ProjectValue)
  | [] => []
  | (k, v) :: ms => (k, ofJson v) :: ofJsonMembers ms

end

/-! ## From TOML -/

/-- The name of the one member of a moment, which no table of settings has. -/
def momentName : List Char := ['m', 'o', 'm', 'e', 'n', 't']

mutual

/-- A moment counts as a table with one member. -/
def ofToml : Toml → ProjectValue
  | .text cs => .text cs
  | .integer n => if 0 ≤ n then .natural n.toNat else .other
  | .float _ => .other
  | .bool b => .bool b
  | .moment spelling => .table [(momentName, .text spelling)]
  | .array elements => .list (ofTomlElements elements)
  | .inline members => .table (ofTomlMembers members)
  | .table _ members => .table (ofTomlMembers members)
  | .tables elements => .list (ofTomlTables elements)

def ofTomlElements : List Toml → List ProjectValue
  | [] => []
  | v :: vs => ofToml v :: ofTomlElements vs

def ofTomlMembers : List (Toml.Key × Toml) → List (List Char × ProjectValue)
  | [] => []
  | (k, v) :: ms => (k, ofToml v) :: ofTomlMembers ms

def ofTomlTables : List (List (Toml.Key × Toml)) → List ProjectValue
  | [] => []
  | ms :: rest => .table (ofTomlMembers ms) :: ofTomlTables rest

end

end ProjectValue

end FuncSpans
