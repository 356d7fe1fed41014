import FuncSpans.Go.Repair.Mending

/-!
# The search for the best repair

The readings of a text go on side by side, each by one token at a time. After each round they are
put in order, the hopeless ones are dropped, and a reading that is stuck is mended if no other
one can go on. The search ends when a whole reading is cheaper than all others can become.

`faultOf?` is the place of the first repair in the best reading.
-/

namespace FuncSpans.Go.Repair

namespace Repairing

/-! ## One token further -/

/-- Ends the productions that what comes next allows to end; returns the last of the new
readings. -/
def closeSome (v : Nat) : List Production → Option Nat → Repairing (Option Nat)
  | [], last => return last
  | r :: rs, last => do
    let new ← close v (.ofProduction r)
    closeSome v rs (new.or last)

/-- Takes a reading past what comes next, or finds it stuck. -/
def goOn (v : Nat) : Nat → Lookahead → Repairing Unit
  | 0, _ => finish v
  | fuel + 1, next => do
    let s := (← node v).stance
    match s, next.token with
    | .lost, _ => recover v next
    | .whole, _ => if next.isEnd then conclude v [next.tree] else halt next
    | .inState _, none =>
      if next.tree.kind = .comment then push v next.tree s else halt next
    | .inState _, some t =>
      let c ← choice s t
      let last ← closeSome v c.ended none
      if c.shifts then push v next.tree (← move s (.token t))
      else
        match last with
        | some w => do
          replace w v
          goOn v fuel next
        | none =>
          if !c.ended.isEmpty then finish v
          else if next.soft && ((← wanted s).map (·.contains .identifier)).getD false then
            goOn v fuel next.asIdentifier
          else halt next
where
  /-- Finds the reading stuck. -/
  halt (next : Lookahead) : Repairing Unit := do
    let n ← node v
    update v fun r => { r with phase := .stuck next, mark := n.size }

/-- Reads what comes next and takes a reading past it. -/
def advance (v : Nat) : Repairing Unit := do
  let n ← node v
  let next := Lookahead.read (← wanted n.stance) n.place
  goOn v (← get).limit next

/-- Takes a reading further until it is past the furthest place so far, which is returned. -/
def advanceFar (v : Nat) : Nat → Nat → Repairing Nat
  | 0, far => return far
  | fuel + 1, far => do
    if (← reading v).phase.isGoing then
      advance v
      let place := (← node v).place.offset
      if far < place || (0 < v && far = place) then return place
      else advanceFar v fuel far
    else return far

/-- Takes all readings further, from one of them on. -/
def advanceAll : Nat → Nat → Nat → Repairing Nat
  | 0, _, far => return far
  | fuel + 1, v, far => do
    if v < (← count) then advanceAll fuel (v + 1) (← advanceFar v (← get).limit far)
    else return far

/-! ## Order among readings -/

/-- Compares a reading with those before it, from the `w`th on; returns how many readings come
up to it in the end. -/
def rank (own : Merit) : Nat → Nat → Nat → Repairing Nat
  | 0, v, _ => return v + 1
  | fuel + 1, v, w => do
    if v ≤ w then return v + 1
    else
      match compare (← merit w) own with
      | .takeFirst => do
        remove v
        return v
      | .preferFirst | .neither =>
        if ← merge w v then return v else rank own fuel v (w + 1)
      | .preferSecond =>
        if ← merge w v then return v
        else
          swap v w
          rank own fuel v (w + 1)
      | .takeSecond => do
        remove w
        rank own fuel (v - 1) w

/-- Puts the readings in order from some number on; returns the least cost among those that are
not broken. -/
def sort : Nat → Nat → Option Nat → Repairing (Option Nat)
  | 0, _, least => return least
  | fuel + 1, v, least => do
    if v < (← count) then
      if (← reading v).phase.isOver then
        remove v
        sort fuel v least
      else
        let m ← merit v
        let least := if m.broken then least else some (min (least.getD m.cost) m.cost)
        sort fuel (← rank m (v + 1) v 0) least
    else return least

/-- Mends the best stuck reading if none before it goes on, and drops the other stuck ones. -/
def resume : Nat → Nat → Nat → Bool → Option Nat → Repairing (Option Nat)
  | 0, _, _, _, least => return least
  | fuel + 1, v, total, going, least => do
    if total ≤ v then return least
    else
      match (← reading v).phase with
      | .stuck next =>
        if going || maxReadings ≤ (← get).ended then
          remove v
          resume fuel v (total - 1) going least
        else
          let c ← cost v
          update v fun r => { r with phase := .going }
          mend v next
          resume fuel (v + 1) total true (some c)
      | _ => resume fuel (v + 1) total true least

/-- Orders the readings and mends what is stuck. Returns the least that a reading of the whole
text can still cost; none where there is no bound. -/
def settle : Repairing (Option Nat) := do
  let least ← sort maxSteps 0 none
  modify fun s => { s with readings := s.readings.take maxReadings }
  resume maxSteps 0 (← count) false least

/-! ## The whole text -/

/-- Whether a whole reading has been found that costs less than a bound. -/
def isDone (least : Option Nat) : Repairing Bool := do
  match (← get).best, least with
  | some t, some n => return t.cost < n
  | some _, none => return true
  | none, _ => return false

/-- Takes the readings to the end of the text. -/
def readOn : Nat → Nat → Repairing Unit
  | 0, _ => return ()
  | fuel + 1, far => do
    let far ← advanceAll maxSteps 0 far
    let least ← settle
    if ← isDone least then return ()
    else if (← count) = 0 then return ()
    else readOn fuel far

end Repairing

/-- The start of a search. -/
def start (text : List Char) : Repair where
  atlas := .initial
  graph := ⟨#[⟨.inState 0, .start text, [], 0, 0, 0⟩]⟩
  readings := #[⟨0, .going, 0, []⟩]
  best := none
  ended := 0
  limit := Grammar.phraseCount * (text.length + 2)

/-- The best reading of a text. -/
def bestReading (text : List Char) : Option Tree :=
  (Repairing.readOn (8 * (text.length + 8)) 0 (start text)).2.best

/-- The place of the first repair that a text needs, if it needs one. -/
def faultOf? (text : List Char) : Option Cursor :=
  (bestReading text).bind (·.fault)

end FuncSpans.Go.Repair
