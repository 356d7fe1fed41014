import FuncSpans.Go.Cursor
import FuncSpans.Go.Grammar

/-!
# Trees of a repaired text

A text that the grammar does not allow is read with repairs: tokens are set aside, or a token
that is missing is supplied. A `Tree` is a part of such a reading. It knows what its repairs
cost, and where the first of them is.
-/

namespace FuncSpans.Go.Repair

/-! ## Costs -/

namespace Cost

/-- The cost of a repair of any kind. -/
def repair : Nat := 500

/-- What it costs to supply a token, on top of the repair. -/
def supplied : Nat := 110

/-- What it costs to set one tree aside, on top of the repair. -/
def tree : Nat := 100

def byte : Nat := 1

def line : Nat := 30

/-- The cost of the text between two places. -/
def text (a b : Cursor) : Nat := byte * (b.offset - a.offset) + line * (b.line - a.line)

end Cost

/-! ## Trees -/

/-- What a tree is. -/
inductive Kind where
  | symbol (s : Symbol)
  | comment
  /-- Trees that have been set aside, or characters that spell no token. -/
  | fault
  /-- Trees set aside so far, with more to come. -/
  | aside
  deriving DecidableEq

/-- Where a tree stands: the blanks before it, its first character, and its end. -/
structure Span where
  before : Cursor
  start : Cursor
  stop : Cursor

/-- Whether a phrase counts as a tree of its own, and is not just a name for a choice or for
the tail of a list. -/
def countsAlone : Phrase → Bool
  | .statement | .simpleStatement | .declaration | .expression | .simpleType
  | .typeSwitchHeader | .constSpecs | .varSpecs | .stringParts | .fileItems
  | .moreImports | .moreConstNames | .moreNames | .moreTypeParameters | .moreParameters
  | .moreTypeSpecs | .moreExpressions | .moreTypeArguments | .moreFields | .moreFieldNames
  | .moreInterfaceElements | .moreTypeTerms | .moreStatements | .moreExpressionCases
  | .moreTypeCases | .moreTypes | .moreSelectCases | .moreArguments | .moreElements => false
  | _ => true

/-- Whether a tree of a kind counts, and is not looked through. -/
def Kind.counts : Kind → Bool
  | .symbol (.token t) => t != .endOfFile
  | .symbol (.phrase x) => countsAlone x
  | .comment | .fault => true
  | .aside => false

/-- A part of a repaired reading. -/
structure Tree where
  kind : Kind
  parts : List Tree
  /-- Where it stands; an empty file stands nowhere. -/
  span : Option Span
  /-- Whether it may stand anywhere and belongs to no phrase. -/
  loose : Bool
  /-- What its repairs cost. -/
  cost : Nat
  /-- How far the grammar favours the productions in it. -/
  weight : Int
  /-- How many trees below it count. -/
  size : Nat
  /-- How many trees count that are directly below it, or below parts that do not count. -/
  width : Nat
  /-- Where its first repair is. -/
  fault : Option Cursor

namespace Tree

/-- A tree without parts. -/
def leaf (kind : Kind) (span : Span) : Tree where
  kind := kind
  parts := []
  span := some span
  loose := kind == .comment || kind == .symbol (.token .endOfFile)
  cost := 0
  weight := 0
  size := 0
  width := 0
  fault := if kind == .fault then some span.start else none

/-- A token supplied at a place. -/
def supplied (t : Token) (c : Cursor) : Tree :=
  { leaf (.symbol (.token t)) ⟨c, c, c⟩ with
    cost := Cost.repair + Cost.supplied
    fault := some c }

/-- The number of trees that count in a tree, itself included. -/
def count (t : Tree) : Nat :=
  t.size + (if t.kind.counts then 1 else 0) + (if t.kind = .aside then 1 else 0)

/-- What it costs to set a tree aside. -/
def asideCost (t : Tree) : Nat :=
  if t.loose || (t.kind == .fault && t.parts.isEmpty) then 0
  else if t.kind.counts then Cost.tree
  else Cost.tree * t.width

/-- The span of trees in a row. -/
def spanOf (parts : List Tree) : Option Span :=
  match parts.head?.bind (·.span), parts.getLast?.bind (·.span) with
  | some a, some b => some ⟨a.before, a.start, b.stop⟩
  | _, _ => none

/-- The cost of trees in a row, and of setting them aside if they are. -/
def costOf (kind : Kind) (span : Option Span) (parts : List Tree) : Nat :=
  let own := (parts.filter (·.kind ≠ .aside)).foldl (fun n t => n + t.cost) 0
  if kind = .fault ∨ kind = .aside then
    own + parts.foldl (fun n t => n + t.asideCost) 0 + Cost.repair +
      match span with
      | some s => Cost.text s.start s.stop
      | none => 0
  else own

/-- A tree of parts. -/
def group (kind : Kind) (parts : List Tree) : Tree :=
  let span := spanOf parts
  { kind, parts, span
    loose := false
    cost := costOf kind span parts
    weight := parts.foldl (fun n t => n + t.weight) 0
    size := parts.foldl (fun n t => n + t.size + if t.kind.counts then 1 else 0) 0
    width := parts.foldl (fun n t => n + if t.kind.counts then 1 else t.width) 0
    fault := if kind = .fault then span.map (·.start) else parts.findSome? (·.fault) }

/-- Whether two trees are as good as the same between the same neighbours. -/
def alike (a b : Tree) : Bool :=
  a.kind == b.kind &&
    ((0 < a.cost && 0 < b.cost) ||
      (offsets a == offsets b && a.parts.length == b.parts.length && a.loose == b.loose))
where
  offsets (t : Tree) : Option (Nat × Nat × Nat) :=
    t.span.map fun s => (s.before.offset, s.start.offset, s.stop.offset)

/-- Whether a tree gives way to another one for the same text. -/
def yieldsTo (a b : Tree) : Bool :=
  if b.cost < a.cost then true
  else if a.cost < b.cost then false
  else if a.weight < b.weight then true
  else if b.weight < a.weight then false
  else 0 < a.cost

/-- Divides trees in a row into those up to the last one that is not loose, and the rest. -/
def splitLoose (ts : List Tree) : List Tree × List Tree :=
  let back := ts.reverse
  ((back.dropWhile (·.loose)).reverse, (back.takeWhile (·.loose)).reverse)

/-- Replaces the last tree that is not loose by its parts; its kind becomes that of all. -/
def openLast (ts : List Tree) : Option Tree :=
  let back := ts.reverse
  match back.dropWhile (·.loose) with
  | [] => none
  | t :: before =>
    some (group t.kind (before.reverse ++ t.parts ++ (back.takeWhile (·.loose)).reverse))

end Tree

end FuncSpans.Go.Repair
