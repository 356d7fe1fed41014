import FuncSpans.Go.Repair.Reading

/-!
# Ending productions

A reading ends a production by putting its trees under one tree. The readings in one state can
have several rows of trees to put under it; the cheapest row is taken. Before a repair, every
production that could end before any token at all is ended, on a reading of its own.
-/

namespace FuncSpans.Go.Repair

/-- How far the grammar favours a production over others for the same text. -/
def favourOf (r : Production) : Int :=
  match r.phrase with
  | .genericType | .indexExpression => 1
  | .typeArguments => 2
  | .conversion | .instantiation => -1
  | .simpleType =>
    match r.symbols with
    | [.token _] => -1
    | [.phrase .mapType] => 3
    | _ => 0
  | _ => 0

/-- A way to end a production, as far as its effect goes. -/
structure Closing where
  phrase : Phrase
  length : Nat
  favour : Int

namespace Closing

def ofProduction (r : Production) : Closing := ⟨r.phrase, r.symbols.length, favourOf r⟩

def same (a b : Closing) : Bool := a.phrase == b.phrase && a.length == b.length

/-- The ways to end that some tokens allow, each once. -/
def distinct (cs : List Closing) : List Closing :=
  cs.foldl (fun acc c => if acc.any (·.same c) then acc else acc ++ [c]) []

/-- Puts a row of trees under one tree, and returns the loose trees that stay behind it. -/
def build (c : Closing) (row : List Tree) : Tree × List Tree :=
  let (inner, outer) := Tree.splitLoose row
  (Tree.group (.symbol (.phrase c.phrase)) inner, outer)

/-- The best of several rows under one tree. -/
def best (c : Closing) : List (List Tree) → Tree × List Tree
  | [] => c.build []
  | row :: rows => rows.foldl (fun acc row =>
      let new := c.build row
      if acc.1.yieldsTo new.1 then new else acc) (c.build row)

end Closing

namespace Repairing

/-- Ends a production on a reading, which stays as it is. The new readings come last; returns
the first of them if there is any. -/
def close (v : Nat) (c : Closing) : Repairing (Option Nat) := do
  let initial ← count
  let groups ← pop v c.length
  let finished := ((← get).readings.filter (·.phase.isOver)).size
  let mut removed := 0
  for (w, rows) in groups do
    let w := w - removed
    if maxReadings + overflow + finished < w then
      remove w
      removed := removed + 1
    else
      let (tree, loose) := c.best rows
      let stance ← move (← node w).stance (.phrase c.phrase)
      push w { tree with weight := tree.weight + c.favour } stance
      for t in loose do push w t stance
      if ← mergeInto ((List.range w).filter (· ≠ v)) w then removed := removed + 1
  return if initial < (← count) then some initial else none

/-- The productions that can end on a reading before some tokens, and whether one of the tokens
can be read. -/
def closings (v : Nat) (tokens : List Token) : Repairing (List Closing × Bool) := do
  let stance := (← node v).stance
  let mut all := #[]
  let mut shifts := stance == .lost
  for t in tokens do
    let c ← choice stance t
    all := all ++ (c.ended.map Closing.ofProduction).toArray
    shifts := shifts || c.shifts
  return (Closing.distinct all.toList, shifts)

/-- All tokens but the end of the text. -/
def allTokens : List Token :=
  (List.range Token.closeQuote.ctorIdx).map fun i => Token.ofNat (i + 1)

/-- Ends all productions that can end before a token, or before any token if none is given, on
readings `v` and from `next` on. Returns whether the token can be read on one of them. -/
def closeAllFrom (start first : Nat) (next : Option Token) :
    Nat → Nat → Nat → Bool → Repairing Bool
  | 0, _, _, shifted => return shifted
  | fuel + 1, step, v, shifted => do
    let total ← count
    if total ≤ v then return shifted
    else if ← mergeInto ((List.range v).drop first) v then
      closeAllFrom start first next fuel (step + 1) v shifted
    else
      let (cs, shifts) ← closings v ((next.map ([·])).getD allTokens)
      let mut new := none
      for c in cs do new ← close v c
      let onward := if v = start then total else v + 1
      if shifts then closeAllFrom start first next fuel (step + 1) onward true
      else
        match new with
        | some w =>
          if step < maxReadings then
            replace w v
            closeAllFrom start first next fuel (step + 1) v shifted
          else
            if next.isSome then remove v
            closeAllFrom start first next fuel (step + 1) onward shifted
        | none =>
          if next.isSome then remove v
          closeAllFrom start first next fuel (step + 1) onward shifted

/-- Bounds the number of steps in which productions are ended. -/
def maxSteps : Nat := 1000

/-- Ends all productions that can end on a reading before a token, or before any token if none
is given. Returns whether the token can then be read. -/
def closeAll (v : Nat) (next : Option Token) : Repairing Bool := do
  closeAllFrom v (← count) next maxSteps 0 v false

end Repairing

end FuncSpans.Go.Repair
