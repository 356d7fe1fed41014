import Std.Data.HashMap
import FuncSpans.Go.Automaton

/-!
# An atlas of states

A repair comes to the same states again and again. An `Atlas` keeps the states seen so far,
each with a number, and the moves between them that have been worked out.
-/

namespace FuncSpans.Go.Repair

/-- A state with the tokens that can come next. -/
structure Chart where
  state : State
  wanted : TokenSet

/-- The states seen so far. -/
structure Atlas where
  charts : Array Chart
  /-- The numbers of the states, by their items. -/
  numbers : Std.HashMap (List (Nat × Nat)) Nat
  /-- The state after a symbol, by the numbers of both. -/
  moves : Std.HashMap (Nat × Nat) Nat
  /-- What a token allows in a state, by the numbers of both. -/
  choices : Std.HashMap (Nat × Nat) State.Choice

namespace Atlas

/-- The items of a state as numbers. -/
def keyOf (s : State) : List (Nat × Nat) := s.items.map fun i => (i.key, i.ahead.bits)

def numberOf : Symbol → Nat
  | .token t => 2 * t.ctorIdx
  | .phrase x => 2 * x.ctorIdx + 1

/-- The number of a state. -/
def insert (a : Atlas) (s : State) : Nat × Atlas :=
  let key := keyOf s
  match a.numbers[key]? with
  | some n => (n, a)
  | none =>
    let n := a.charts.size
    (n, { a with charts := a.charts.push ⟨s, s.wanted⟩, numbers := a.numbers.insert key n })

/-- The state at the start of a file. -/
def start : State :=
  ⟨(Grammar.productionsOf .file).foldl (fun acc r =>
    Item.insert ⟨r, r.symbols, .singleton .endOfFile⟩ acc) []⟩

/-- An atlas with the start of a file as number 0. -/
def initial : Atlas := (insert ⟨#[], ∅, ∅, ∅⟩ start).2

def wanted (a : Atlas) (n : Nat) : TokenSet := (a.charts[n]?.map (·.wanted)).getD .empty

/-- The state after a symbol. -/
def move (a : Atlas) (n : Nat) (x : Symbol) : Nat × Atlas :=
  let key := (n, numberOf x)
  match a.moves[key]?, a.charts[n]? with
  | some m, _ => (m, a)
  | none, none => (n, a)
  | none, some c =>
    let (m, a) := a.insert (c.state.advance x)
    (m, { a with moves := a.moves.insert key m })

/-- What a token allows in a state. -/
def choice (a : Atlas) (n : Nat) (t : Token) : State.Choice × Atlas :=
  let key := (n, t.ctorIdx)
  match a.choices[key]?, a.charts[n]? with
  | some c, _ => (c, a)
  | none, none => (⟨[], false⟩, a)
  | none, some chart =>
    let c := if chart.wanted.contains t then chart.state.choose t else ⟨[], false⟩
    (c, { a with choices := a.choices.insert key c })

end Atlas

end FuncSpans.Go.Repair
