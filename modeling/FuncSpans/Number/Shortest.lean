import FuncSpans.Number.Decimal

/-!
# Shortest digits

A finite binary number `m * 2 ^ q` stands for all reals that round to it. `shortest` finds the
decimal with the fewest digits among them, and the nearest of those. The reals that round to
the number reach half way to its neighbours; the ends belong to them if `m` is even. Below a
power of two the neighbour is only half as far.

All of it is exact arithmetic on natural numbers: everything is measured in quarters of the
last binary place.
-/

namespace FuncSpans.Shortest

/-- A positive number with the reals that round to it, over a common denominator. -/
structure Interval where
  low : Nat
  value : Nat
  high : Nat
  /-- What the three are divided by. -/
  unit : Nat
  /-- Whether the ends belong to the interval. -/
  closed : Bool

/-- Whether there is a binade below the number in which places are half as wide. -/
def atBinade (m : Nat) (q : Int) : Bool := m == 0x10000000000000 && -1074 < q

/-- The interval of `m * 2 ^ q`, measured in `10 ^ k`. -/
def interval (m : Nat) (q k : Int) : Interval :=
  let scale := Nat.pow 2 (q - 2).toNat * Nat.pow 10 (-k).toNat
  { low := (4 * m - if atBinade m q then 1 else 2) * scale
    value := 4 * m * scale
    high := (4 * m + 2) * scale
    unit := Nat.pow 2 (2 - q).toNat * Nat.pow 10 k.toNat
    closed := m % 2 == 0 }

namespace Interval

/-- Whether a whole number lies in the interval. -/
def contains (i : Interval) (n : Nat) : Bool :=
  if i.closed then i.low ≤ n * i.unit && n * i.unit ≤ i.high
  else i.low < n * i.unit && n * i.unit < i.high

/-- The whole number in the interval that is nearest to the value, if the value has a
neighbour there. On a tie the even one is taken if `tiesToEven`, else the larger one. -/
def nearest? (i : Interval) (tiesToEven : Bool) : Option Nat :=
  let below := i.value / i.unit
  let above := below + 1
  match i.contains below, i.contains above with
  | false, false => none
  | true, false => some below
  | false, true => some above
  | true, true =>
    let twice := 2 * i.value
    let middle := (2 * below + 1) * i.unit
    if twice < middle then some below
    else if middle < twice then some above
    else if tiesToEven && below % 2 == 0 then some below else some above

end Interval

/-- The number of decimal digits of a number. -/
def digitCount (n : Nat) : Nat := (Decimal.natDigits n).length

/-- How often a number has to be taken times ten to come to a bound, at most `fuel` times. -/
def tensBelow : Nat → Nat → Nat → Nat
  | 0, _, _ => 0
  | fuel + 1, n, bound => if bound ≤ n then 0 else tensBelow fuel (n * 10) bound + 1

/-- The power of ten of the first digit of `m * 2 ^ q`. -/
def leading (m : Nat) (q : Int) : Int :=
  if 0 ≤ q then digitCount (m * Nat.pow 2 q.toNat) - 1
  else
    let den := Nat.pow 2 (-q).toNat
    if den ≤ m then digitCount (m / den) - 1 else -(tensBelow 400 m den : Int)

/-- The shortest decimal with at least `n` digits, at most `fuel` more. -/
def search (m : Nat) (q first : Int) (tiesToEven : Bool) : Nat → Nat → Decimal
  | 0, _ => ⟨0, 0⟩
  | fuel + 1, n =>
    let k := first - n + 1
    match (interval m q k).nearest? tiesToEven with
    | some d => Decimal.trim 20 ⟨d, k⟩
    | none => search m q first tiesToEven fuel (n + 1)

/-- The shortest decimal that rounds to `m * 2 ^ q`, and the nearest of those. -/
def shortest (m : Nat) (q : Int) (tiesToEven : Bool) : Decimal :=
  if m = 0 then ⟨0, 0⟩ else search m q (leading m q) tiesToEven 18 1

end FuncSpans.Shortest
