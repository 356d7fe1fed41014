import FuncSpans.Path.Basic

/-!
# Records

A `Record` is one function with its place. Its span is the number of lines between its first
and its last line.
-/

namespace FuncSpans

/-- One function and where it stands. -/
structure Record where
  /-- The directory or package that it is counted under. -/
  group : String
  package : String
  name : String
  file : Path
  /-- The line of the keyword, from 1. -/
  startsAt : Nat
  /-- The line of the last token. -/
  endsAt : Nat
  deriving DecidableEq

namespace Record

/-- The span in lines, 0 if the end comes before the start. -/
def lines (r : Record) : Nat := r.endsAt - r.startsAt

/-- The file's path as text. -/
def fileText (r : Record) : String := r.file.display

/-- Whether two records agree, with paths compared by their components. -/
def agrees (r s : Record) : Bool :=
  r.group == s.group && r.package == s.package && r.name == s.name &&
    r.file.equivalent s.file && r.startsAt == s.startsAt && r.endsAt == s.endsAt

end Record

end FuncSpans
