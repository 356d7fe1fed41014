import FuncSpans.Toml.Basic

/-!
# Building tables of TOML

Nothing can be defined twice. A dotted key can add to a table that dotted keys have made; a
header can add to one that the headers of tables inside it have implied, once. A header in
double brackets adds one more table, which later headers lead into.
-/

namespace FuncSpans.Toml

namespace Members

/-- Puts a value under a key, in place of the one that is there. -/
def replace (key : Key) (v : Toml) : Members → Members
  | [] => []
  | (k, w) :: ms => if k = key then (k, v) :: ms else (k, w) :: replace key v ms

/-- Applies a change to the last of some tables. -/
def changeLast (f : Members → Option Members) : List Members → Option (List Members)
  | [] => none
  | [ms] => (f ms).map ([·])
  | ms :: rest => (changeLast f rest).map (ms :: ·)

/-- Defines a dotted key in a table. -/
def define : List Key → Toml → Members → Option Members
  | [], _, _ => none
  | [key], v, ms => match ms.lookup key with
    | none => some (ms ++ [(key, v)])
    | some _ => none
  | key :: keys, v, ms => match ms.lookup key with
    | none => (define keys v []).map fun inner => ms ++ [(key, .table .dotted inner)]
    | some (.table origin inner) =>
      if origin = .dotted ∨ (origin = .implied ∧ 1 < keys.length) then
        (define keys v inner).map fun inner => ms.replace key (.table origin inner)
      else none
    | some (.tables elements) =>
      if 1 < keys.length then
        (changeLast (define keys v) elements).map fun es => ms.replace key (.tables es)
      else none
    | some _ => none

/-- Defines dotted keys in turn. -/
def defineAll : List (List Key × Toml) → Members → Option Members
  | [], ms => some ms
  | (key, v) :: ds, ms => (define key v ms).bind (defineAll ds)

/-- Applies a change to the table that the parts of a header lead to; tables on the way are
implied. -/
def changeAt (f : Members → Option Members) : List Key → Members → Option Members
  | [], ms => f ms
  | key :: keys, ms => match ms.lookup key with
    | none => (changeAt f keys []).map fun inner => ms ++ [(key, .table .implied inner)]
    | some (.table origin inner) =>
      (changeAt f keys inner).map fun inner => ms.replace key (.table origin inner)
    | some (.tables elements) =>
      (changeLast (changeAt f keys) elements).map fun es => ms.replace key (.tables es)
    | some _ => none

end Members

/-- A header and the definitions after it. -/
structure Section where
  /-- Whether the header is in double brackets. -/
  isElement : Bool
  key : List Key
  definitions : List (List Key × Toml)

namespace Section

/-- Adds a table to the one that its header leads to. -/
def addTable (key : Key) (ds : List (List Key × Toml)) (ms : Members) : Option Members :=
  match ms.lookup key with
  | none => (Members.defineAll ds []).map fun inner => ms ++ [(key, .table .header inner)]
  | some (.table .implied inner) =>
    (Members.defineAll ds inner).map fun inner => ms.replace key (.table .header inner)
  | some _ => none

/-- Adds one more table under a header in double brackets. -/
def addElement (key : Key) (ds : List (List Key × Toml)) (ms : Members) : Option Members :=
  match ms.lookup key with
  | none => (Members.defineAll ds []).map fun inner => ms ++ [(key, .tables [inner])]
  | some (.tables es) =>
    (Members.defineAll ds []).map fun inner => ms.replace key (.tables (es ++ [inner]))
  | some _ => none

/-- Adds a section to a document. -/
def addTo (s : Section) (ms : Members) : Option Members :=
  match s.key.reverse with
  | [] => none
  | key :: path =>
    Members.changeAt ((if s.isElement then addElement else addTable) key s.definitions)
      path.reverse ms

end Section

/-- Adds sections to a document in turn. -/
def Members.addSections : List Section → Members → Option Members
  | [], ms => some ms
  | s :: ss, ms => (s.addTo ms).bind (addSections ss)

end FuncSpans.Toml
