import FuncSpans.Go.Repair.Search
import FuncSpans.Go.Stack

/-!
# Files

A file is a sequence of items up to the end of the text. It belongs to the package of its
first package clause, and its functions are those that its items declare.
-/

namespace FuncSpans.Go

/-- A function with the lines on which it starts and ends. -/
structure FunctionSpan where
  name : List Char
  first : Nat
  last : Nat
  deriving DecidableEq, Repr

namespace FunctionSpan

/-- Puts a function before those that start later, or on the same line. -/
def insert (f : FunctionSpan) : List FunctionSpan → List FunctionSpan
  | [] => [f]
  | g :: gs => if f.first ≤ g.first then f :: g :: gs else g :: insert f gs

/-- The functions by first line; those of one line stay in their order. -/
def sort (fs : List FunctionSpan) : List FunctionSpan := fs.foldr insert []

end FunctionSpan

/-- What a source text comes to. -/
structure SourceFile where
  package : List Char
  functions : List FunctionSpan
  deriving DecidableEq, Repr

namespace SourceFile

/-- A way to read the text up to a place: what the items before it declare. The place is neither
in blanks nor in comments. -/
structure Progress where
  place : Cursor
  declared : List Declared

/-- Adds a way to read the text, unless its place has been reached before. -/
def insert (w : Progress) : List Progress → List Progress
  | [] => [w]
  | v :: vs =>
    if v.place.remaining < w.place.remaining then w :: v :: vs
    else if v.place.remaining = w.place.remaining then v :: vs
    else v :: insert w vs

/-- The declarations of the whole text, if all of it can be read. -/
def items : Nat → List Progress → Option (List Declared)
  | 0, _ => none
  | _, [] => none
  | fuel + 1, w :: ws =>
    if w.place.rest.isEmpty then some w.declared
    else
      items fuel ((Item.readings w.place).foldl
        (fun ws (d, c) => insert ⟨Lexeme.pastBlanks c, w.declared ++ d.toList⟩ ws) ws)

def packageOf (ds : List Declared) : Option (List Char) :=
  ds.findSome? fun | .package name => some name | .function .. => none

def functionsOf (ds : List Declared) : List FunctionSpan :=
  ds.filterMap fun
    | .package _ => none
    | .function name first last => some ⟨name, first, last⟩

/-- Reads a source text. A fault is given by its line and column: they are those of the first
repair in the best repaired reading. -/
def parse (text : List Char) : Except (Nat × Nat) SourceFile :=
  match items (text.length + 2) [⟨Lexeme.pastBlanks (.start text), []⟩] with
  | none => .error (((Repair.faultOf? text).map (·.position)).getD (1, 1))
  | some ds => match packageOf ds with
    | none => .error (1, 1)
    | some package => .ok ⟨package, FunctionSpan.sort (functionsOf ds)⟩

end SourceFile

end FuncSpans.Go
