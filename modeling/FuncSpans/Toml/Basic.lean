/-!
# TOML values

Tables know how they came to be, because that decides what may still be added to them: a table
in braces is complete, and so is what a header or a dotted key has defined, each for the other.
-/

namespace FuncSpans

namespace Toml

/-- How a table that is not in braces came to be. -/
inductive Origin where
  /-- By a header of its own. -/
  | header
  /-- By the header of a table inside it. -/
  | implied
  /-- By a dotted key. -/
  | dotted
  deriving DecidableEq, Repr

/-- A part of a key between dots. -/
abbrev Key := List Char

end Toml

/-- A TOML value. Fractional numbers and moments are kept as they are spelled. -/
inductive Toml where
  | text (cs : List Char)
  | integer (n : Int)
  | float (spelling : List Char)
  | bool (b : Bool)
  /-- A date, a time, or both. -/
  | moment (spelling : List Char)
  | array (elements : List Toml)
  /-- A table in braces. -/
  | inline (members : List (Toml.Key × Toml))
  | table (origin : Toml.Origin) (members : List (Toml.Key × Toml))
  /-- The tables with headers in double brackets. -/
  | tables (elements : List (List (Toml.Key × Toml)))

namespace Toml

/-- The members of a table. -/
abbrev Members := List (Key × Toml)

end Toml

end FuncSpans
