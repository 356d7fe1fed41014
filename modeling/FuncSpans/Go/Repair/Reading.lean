import FuncSpans.Go.Repair.Atlas
import FuncSpans.Go.Repair.Graph
import FuncSpans.Go.Repair.Lookahead

/-!
# Readings side by side

While a text is repaired, several `Reading`s of it are kept in the order of their merit. A
`Repair` holds them with the graph they share. Two readings that have come to the same stance at
the same place and cost become one; of two others, the better one may put an end to the worse.
-/

namespace FuncSpans.Go.Repair

/-- What becomes of a reading next. -/
inductive Phase where
  | going
  /-- It cannot go on with what comes next. -/
  | stuck (next : Lookahead)
  | over

def Phase.isGoing : Phase → Bool
  | .going => true
  | _ => false

def Phase.isStuck : Phase → Bool
  | .stuck _ => true
  | _ => false

def Phase.isOver : Phase → Bool
  | .over => true
  | _ => false

/-- One way to read the text so far. -/
structure Reading where
  top : Nat
  phase : Phase
  /-- How many trees counted at its last fault. -/
  mark : Nat
  /-- Where it could go back to, when it lost its way. -/
  landmarks : List Graph.Landmark

/-- The state of a search for the best repair. -/
structure Repair where
  atlas : Atlas
  graph : Graph
  readings : Array Reading
  /-- The best reading of the whole text. -/
  best : Option Tree
  /-- How many readings have come to the end. -/
  ended : Nat
  /-- More steps than any reading of the text can take from one token to the next. -/
  limit : Nat

abbrev Repairing := StateM Repair

namespace Repairing

/-! ## Access -/

/-- The most readings that are kept. -/
def maxReadings : Nat := 6

/-- How many more there may be between two choices among them. -/
def overflow : Nat := 4

def reading (v : Nat) : Repairing Reading := do
  return (← get).readings.getD v ⟨0, .over, 0, []⟩

def count : Repairing Nat := do
  return (← get).readings.size

def node (v : Nat) : Repairing Node := do
  let r ← reading v
  return (← get).graph.node r.top

def update (v : Nat) (f : Reading → Reading) : Repairing Unit :=
  modify fun s => { s with readings := s.readings.modify v f }

def add (r : Reading) : Repairing Nat := do
  let v ← count
  modify fun s => { s with readings := s.readings.push r }
  return v

def remove (v : Nat) : Repairing Unit :=
  modify fun s => { s with readings := s.readings.eraseIdxIfInBounds v }

def finish (v : Nat) : Repairing Unit := update v fun r => { r with phase := .over }

/-- Puts a later reading into the place of an earlier one. -/
def replace (later v : Nat) : Repairing Unit := do
  if later ≠ v then
    let old ← reading v
    let new ← reading later
    let landmarks := if new.landmarks.isEmpty then old.landmarks else new.landmarks
    update v fun _ => { new with landmarks }
    remove later

def swap (v w : Nat) : Repairing Unit := do
  let a ← reading v
  let b ← reading w
  update v fun _ => b
  update w fun _ => a

def wanted (s : Stance) : Repairing (Option TokenSet) := do
  match s with
  | .inState n => return some ((← get).atlas.wanted n)
  | .whole => return some .empty
  | .lost => return none

def choice (s : Stance) (t : Token) : Repairing State.Choice := do
  match s with
  | .inState n => modifyGet fun r =>
    let (c, atlas) := r.atlas.choice n t
    (c, { r with atlas })
  | _ => return ⟨[], false⟩

/-- The stance after a symbol. -/
def move (s : Stance) (x : Symbol) : Repairing Stance := do
  match s with
  | .inState n =>
    if x = .phrase .file then return .whole
    else modifyGet fun r =>
      let (m, atlas) := r.atlas.move n x
      (.inState m, { r with atlas })
  | _ => return .lost

/-! ## Growth -/

/-- Puts a tree on a reading. -/
def push (v : Nat) (t : Tree) (s : Stance) : Repairing Unit := do
  let r ← reading v
  let top ← modifyGet fun x =>
    let (top, graph) := x.graph.push r.top (some t) s
    (top, { x with graph })
  update v fun r => { r with top }

/-- Makes a reading lose its way. -/
def lose (v : Nat) : Repairing Unit := do
  let r ← reading v
  let top ← modifyGet fun x =>
    let (top, graph) := x.graph.push r.top none .lost
    (top, { x with graph })
  let n := (← get).graph.node top
  update v fun r => { r with top, mark := n.size }

/-- How many trees have counted since the last fault. -/
def sinceFault (v : Nat) : Repairing Nat := do
  let n ← node v
  update v fun r => { r with mark := min r.mark n.size }
  return n.size - (← reading v).mark

/-- Turns ways down into readings, one for each node that they lead to; the trees on the ways
come with them. -/
def branch (v : Nat) (ways : List Graph.Way) : Repairing (List (Nat × List (List Tree))) := do
  let mark := (← reading v).mark
  let mut groups : Array (Nat × Nat × List (List Tree)) := #[]
  for w in ways do
    match groups.findIdx? (·.1 == w.node) with
    | some i => groups := groups.modify i fun (n, u, ts) => (n, u, ts ++ [w.trees])
    | none =>
      let u ← add ⟨w.node, .going, mark, []⟩
      groups := groups.push (w.node, u, [w.trees])
  return (groups.map (·.2)).toList

/-- Takes a number of trees off a reading; the reading itself stays as it is. -/
def pop (v count : Nat) : Repairing (List (Nat × List (List Tree))) := do
  let r ← reading v
  branch v ((← get).graph.waysOver count r.top)

/-! ## Comparison -/

/-- The cost of a reading. A fault that has only been found counts as one repair. -/
def cost (v : Nat) : Repairing Nat := do
  let r ← reading v
  let n ← node v
  let lostJustNow := n.stance == .lost && (n.links.head?.map (·.tree.isNone)).getD false
  return n.cost + if r.phase.isStuck || lostJustNow then Cost.repair else 0

/-- What readings are compared by. -/
structure Merit where
  cost : Nat
  progress : Nat
  weight : Int
  /-- Whether the reading has a fault that is not repaired yet. -/
  broken : Bool

def merit (v : Nat) : Repairing Merit := do
  let stuck := (← reading v).phase.isStuck
  let c ← cost v
  let progress ← sinceFault v
  let n ← node v
  return ⟨if stuck then c + Cost.tree else c, progress, n.weight, stuck || n.stance == .lost⟩

/-- Which of two readings is better, and whether the other one should go. -/
inductive Verdict where
  | takeFirst
  | preferFirst
  | neither
  | preferSecond
  | takeSecond
  deriving DecidableEq

/-- How much more a reading may cost than another one, for each tree that the other has read
since its last fault. -/
def maxDifference : Nat := 18 * Cost.tree

def compare (a b : Merit) : Verdict :=
  if !a.broken && b.broken then
    if a.cost < b.cost then .takeFirst else .preferFirst
  else if a.broken && !b.broken then
    if b.cost < a.cost then .takeSecond else .preferSecond
  else if a.cost < b.cost then
    if maxDifference < (b.cost - a.cost) * (1 + a.progress) then .takeFirst else .preferFirst
  else if b.cost < a.cost then
    if maxDifference < (a.cost - b.cost) * (1 + b.progress) then .takeSecond else .preferSecond
  else if b.weight < a.weight then .preferFirst
  else if a.weight < b.weight then .preferSecond
  else .neither

def canMerge (v w : Nat) : Repairing Bool := do
  let a ← reading v
  let b ← reading w
  return a.phase.isGoing && b.phase.isGoing && Graph.same (← node v) (← node w)

/-- Makes one of two readings if they stand for the same; the later one goes. -/
def merge (v w : Nat) : Repairing Bool := do
  if ← canMerge v w then
    let a ← reading v
    let b ← reading w
    modify fun s => { s with graph := s.graph.join a.top b.top }
    let n ← node v
    if n.stance == .lost then update v fun r => { r with mark := n.size }
    remove w
    return true
  else return false

/-- Merges a reading into the first one among some others that stands for the same. -/
def mergeInto (others : List Nat) (w : Nat) : Repairing Bool := do
  for v in others do
    if ← merge v w then return true
  return false

/-- Whether there is a reading against which a cost would be too high. -/
def betterThan (v cost : Nat) : Repairing Bool := do
  if let some t := (← get).best then
    if t.cost ≤ cost then return true
  let place := (← node v).place
  let progress ← sinceFault v
  let merit' : Merit := ⟨cost, progress, (← node v).weight, false⟩
  for w in List.range (← count) do
    if w ≠ v && (← reading w).phase.isGoing && place.offset ≤ (← node w).place.offset then
      match compare merit' (← merit w) with
      | .takeSecond => return true
      | .preferSecond => if ← canMerge w v then return true
      | _ => pure ()
  return false

end Repairing

end FuncSpans.Go.Repair
