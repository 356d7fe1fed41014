/-!
# Samples

A `Sample` keeps its values in order. Its mean is the sum from the left divided by the count;
its quantiles interpolate between neighbours (type R-7): at `p` the rank is `p` times one less
than the count. Both are undefined for an empty sample only. Ranks outside the sample
extrapolate from the first or the last two values.

The statistics need an order, the four operations and a way to turn a rank into a place in a
list. `Quantity` asks for no more, so that the same definitions speak of machine numbers and
of exact ones. The order has to be total, also on values that compare as equal or not at all.
-/

namespace FuncSpans

/-- Numbers that statistics can be taken of. -/
class Quantity (α : Type) extends Add α, Sub α, Mul α, Div α where
  /-- The order in which a sample is kept. -/
  le : α → α → Bool
  le_trans : ∀ a b c, le a b → le b c → le a c
  le_total : ∀ a b, le a b || le b a
  ofNat : Nat → α
  /-- The value that a sum starts from. -/
  zero : α
  /-- The floor of a value, brought into the range from 0 to a cap. -/
  rank : α → Nat → Nat

open Quantity (le ofNat rank)

variable {α : Type} [Quantity α]

/-- Values in order. -/
structure Sample (α : Type) [Quantity α] where
  values : List α
  sorted : values.Pairwise (fun a b => le a b)

namespace Sample

/-- The sample of some values. -/
def ofList (xs : List α) : Sample α where
  values := xs.mergeSort le
  sorted := List.pairwise_mergeSort Quantity.le_trans Quantity.le_total xs

def size (s : Sample α) : Nat := s.values.length

def isEmpty (s : Sample α) : Bool := s.values.isEmpty

/-- The sum of the values, from the left. -/
def sum (s : Sample α) : α := s.values.foldl (· + ·) Quantity.zero

/-- The arithmetic mean. -/
def mean (s : Sample α) : Option α :=
  if s.isEmpty then none else some (s.sum / ofNat s.size)

/-- The value between two neighbours, the given part of the way from the first. -/
def between (x y part : α) : α := x * (ofNat 1 - part) + y * part

/-- The quantile at `p`. -/
def quantile (s : Sample α) (p : α) : Option α :=
  match s.values with
  | [] => none
  | [x] => some x
  | x :: y :: rest =>
    let position := p * ofNat (rest.length + 1)
    let lower := rank position rest.length
    match (x :: y :: rest).drop lower with
    | a :: b :: _ => some (between a b (position - ofNat lower))
    | _ => none

/-- The quantile at a number of hundredths. -/
def percentile (s : Sample α) (n : Nat) : Option α := s.quantile (ofNat n / ofNat 100)

def median (s : Sample α) : Option α := s.percentile 50

end Sample

/-- The summary of a sample. All fields are undefined for an empty sample. -/
structure Summary (α : Type) where
  mean : Option α
  median : Option α
  p95 : Option α
  p99 : Option α

namespace Summary

def ofSample (s : Sample α) : Summary α :=
  ⟨s.mean, s.median, s.percentile 95, s.percentile 99⟩

def isUndefined (s : Summary α) : Bool := s.mean.isNone

/-- The fields in the order in which reports show them. -/
def fields (s : Summary α) : List (Option α) := [s.mean, s.median, s.p95, s.p99]

end Summary

end FuncSpans
