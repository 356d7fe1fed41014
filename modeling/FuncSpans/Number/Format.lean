import FuncSpans.Number.Binary64
import FuncSpans.Number.Shortest

/-!
# Numbers as text

A `NumberFormat` says how a report writes a machine number: the shortest digits that read back
or a fixed number of places, and what stands for the values that are no numbers.
-/

namespace FuncSpans

/-- How many digits are written, and where. -/
inductive Places where
  /-- The shortest digits, all in positional notation. -/
  | positional
  /-- The shortest digits, in positional notation where the first of them stands for a power
  of ten from `low` to `high`, with an exponent elsewhere. -/
  | floating (low high : Int)
  /-- A fixed number of decimal places; a tie goes to the even neighbour. -/
  | fixed (places : Nat)

/-- How a report writes numbers. -/
structure NumberFormat where
  places : Places
  /-- Whether ties between shortest digits go to the even neighbour; else they go up. -/
  tiesToEven : Bool
  nan : List Char
  infinite : List Char
  negativeInfinite : List Char

namespace NumberFormat

/-- The quotient rounded to the nearest whole number, ties to even. -/
def roundQuotient (num den : Nat) : Nat :=
  let below := num / den
  let twice := 2 * (num % den)
  if twice < den then below
  else if den < twice then below + 1
  else if below % 2 = 0 then below else below + 1

/-- `m * 2 ^ q` in units of `10 ^ -places`, rounded to the nearest, ties to even. -/
def roundPlaces (places m : Nat) (q : Int) : Nat :=
  roundQuotient (m * Nat.pow 2 q.toNat * Nat.pow 10 places) (Nat.pow 2 (-q).toNat)

/-- The text of `m * 2 ^ q`. -/
def finite (f : NumberFormat) (m : Nat) (q : Int) : List Char :=
  match f.places with
  | .positional => (Shortest.shortest m q f.tiesToEven).positional
  | .floating low high =>
    let d := Shortest.shortest m q f.tiesToEven
    if low ≤ d.leading ∧ d.leading ≤ high then d.positionalWithPoint else d.scientific
  | .fixed places => (Decimal.mk (roundPlaces places m q) (-places)).positional

/-- The text of a number. -/
def write (f : NumberFormat) (x : Binary64) : List Char :=
  match x.parts with
  | .nan => f.nan
  | .infinite => if x.isNegative then f.negativeInfinite else f.infinite
  | .finite m q => if x.isNegative then '-' :: f.finite m q else f.finite m q

end NumberFormat

end FuncSpans
