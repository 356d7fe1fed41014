import FuncSpans.Go.Repair.Ending

/-!
# Mending a reading

A reading that cannot go on is mended in up to three ways, which compete from then on: a token
that is missing is supplied; what has been read since some earlier place is set aside, so that
the reading can go on from the stance it had there; or what comes next is set aside.
-/

namespace FuncSpans.Go.Repair.Repairing

/-- Whether something that comes next can be read in a stance. -/
def admits (s : Stance) (next : Lookahead) : Repairing Bool := do
  match next.token with
  | none => return true
  | some t =>
    match s with
    | .whole => return t == .endOfFile
    | .lost => return true
    | .inState _ =>
      let c ← choice s t
      return c.shifts || !c.ended.isEmpty

/-- The reading of a whole text that some trees make. -/
def propose (trees : List Tree) : Repairing Unit := do
  if let some t := Tree.openLast trees then
    modify fun s => { s with
      ended := s.ended + 1
      best := match s.best with
        | none => some t
        | some b => if b.yieldsTo t then some t else some b }

/-- Brings a reading to its end with some more trees on it. -/
def conclude (v : Nat) (more : List Tree) : Repairing Unit := do
  for t in more do push v t .whole
  let r ← reading v
  for w in (← get).graph.waysToBottom r.top do propose w.trees
  finish v

/-! ## Supplying a token -/

/-- Supplies one of some tokens on a reading, if the next token can be read after it. The new
reading comes last. -/
def supplyOne (v : Nat) (next : Token) (place : Cursor) : List Token → Repairing Bool
  | [] => return false
  | t :: ts => do
    let s := (← node v).stance
    if (← choice s t).shifts then
      let after ← move s (.token t)
      if after ≠ s && !(← choice after next).ended.isEmpty then
        let w ← add { ← reading v with landmarks := [] }
        push w (.supplied t place) after
        if ← closeAll w (if next = .endOfFile then none else some next) then return true
    supplyOne v next place ts

/-- Supplies a token on a reading, if one helps. -/
def supply (v : Nat) (next : Lookahead) (place : Cursor) : Repairing Bool := do
  match next.token with
  | some t => supplyOne v t place allTokens
  | none => return false

/-! ## Going back -/

/-- The trees that have been set aside already just below a reading are taken off it. -/
def reopen (v : Nat) : Repairing (List Tree) := do
  let n ← node v
  let fault := n.links.findSome? fun l => l.tree.bind fun t =>
    if t.kind = .fault then some (l.below, t.parts) else none
  match fault with
  | some (below, parts) =>
    update v fun r => { r with top := below }
    return parts
  | none => return []

/-- Sets aside what a lost reading has read below some depth, on readings of their own, which
go on in a stance that it had there. Returns whether there are such readings. -/
def goBack (v depth : Nat) (goal : Stance) : Repairing Bool := do
  let mut found := false
  for (w, rows) in ← pop v depth do
    if (← node w).stance ≠ goal then finish w
    else
      let before ← reopen w
      let (inner, outer) := Tree.splitLoose (before ++ rows.headD [])
      unless inner.isEmpty do
        push w { Tree.group .fault inner with loose := true } goal
      for t in outer do push w t goal
      found := true
  return found

/-- Whether some reading among the first has a stance at a place. -/
def isTaken (count : Nat) (s : Stance) (place : Cursor) : Repairing Bool := do
  for w in List.range count do
    let n ← node w
    if n.stance = s && n.place.offset = place.offset then return true
  return false

/-- Goes back to the nearest landmark where what comes next can be read. -/
def returnTo (v : Nat) (next : Lookahead) (progress cost total : Nat) :
    List Graph.Landmark → Repairing Bool
  | [] => return false
  | m :: ms => do
    let place := (← node v).place
    let depth := if 0 < progress then m.depth + 1 else m.depth
    let cost' := cost + depth * Cost.tree + Cost.text m.place place
    if m.stance = .lost || m.place.offset = place.offset then
      returnTo v next progress cost total ms
    else if ← isTaken total m.stance place then returnTo v next progress cost total ms
    else if ← betterThan v cost' then return false
    else if ← admits m.stance next then
      if ← goBack v depth m.stance then return true
      else returnTo v next progress cost total ms
    else returnTo v next progress cost total ms

/-! ## Setting aside -/

/-- Sets aside what comes next on a lost reading. -/
def setAside (v : Nat) (next : Lookahead) (progress : Nat) : Repairing Unit := do
  let one := Tree.group .aside [next.tree]
  if progress = 0 then push v one .lost
  else
    match ← pop v 1 with
    | [] => push v one .lost
    | (w, rows) :: _ =>
      modify fun s => { s with readings := s.readings.take (w + 1) }
      replace w v
      push v (Tree.group .aside (rows.headD [] ++ [one])) .lost

/-- Removes readings from some number on that do not go on. -/
def dropEnded (first : Nat) : Repairing Unit :=
  modify fun s => { s with
    readings := s.readings.take first ++
      (s.readings.extract first s.readings.size).filter (·.phase.isGoing) }

/-- Takes a lost reading past what comes next, or back to where that can be read. -/
def recover (v : Nat) (next : Lookahead) : Repairing Unit := do
  let total ← count
  let r ← reading v
  let progress ← sinceFault v
  let c ← cost v
  let returned ←
    if next.tree.kind = .fault then pure false
    else returnTo v next progress c total r.landmarks
  dropEnded total
  if returned && maxReadings < (← count) then finish v
  else if next.isEnd then conclude v [Tree.group .fault [], next.tree]
  else
    let cost' := c + Cost.tree + match next.tree.span with
      | some s => Cost.text s.before s.stop
      | none => 0
    if ← betterThan v cost' then finish v
    else setAside v next progress

/-! ## All ways together -/

/-- Supplies a token on the first of some readings where one helps, and makes all of them lose
their way. -/
def loseAll (next : Lookahead) (place : Cursor) : List Nat → Bool → Repairing Unit
  | [], _ => return ()
  | v :: vs, supplied => do
    let now ← if supplied || (← node v).stance = .lost then pure supplied
      else supply v next place
    lose v
    loseAll next place vs now

/-- Mends a reading that cannot go on with what comes next. -/
def mend (v : Nat) (next : Lookahead) : Repairing Unit := do
  let first ← count
  let _ ← closeAll v none
  let total ← count
  let others := (List.range total).drop first
  loseAll next (← node v).place (v :: others) false
  for _ in others do
    let _ ← merge v first
  let top := (← reading v).top
  let graph := (← get).graph
  update v fun r => { r with landmarks := graph.landmarks top }
  recover v next

end FuncSpans.Go.Repair.Repairing
