/-!
# Decimal notation

A `Decimal` is a natural number of digits times a power of ten. It is written in positional
notation, or with an exponent after the mark `e`.
-/

namespace FuncSpans

/-- The number `digits * 10 ^ exponent`. -/
structure Decimal where
  digits : Nat
  exponent : Int
  deriving DecidableEq, Repr

namespace Decimal

/-- The digits of a natural number. -/
def natDigits (n : Nat) : List Char := Nat.toDigits 10 n

def zeros (n : Nat) : List Char := List.replicate n '0'

/-- The power of ten of the first digit. -/
def leading (d : Decimal) : Int := d.exponent + (natDigits d.digits).length - 1

/-- Moves zeros at the end of the digits into the exponent, at most `fuel` of them. -/
def trim : Nat → Decimal → Decimal
  | 0, d => d
  | fuel + 1, d =>
    if d.digits ≠ 0 ∧ d.digits % 10 = 0 then trim fuel ⟨d.digits / 10, d.exponent + 1⟩ else d

/-- Digits with a point before the last `places` of them. -/
def withPoint (ds : List Char) (places : Nat) : List Char :=
  let whole := ds.length - places
  if places = 0 then ds
  else if whole = 0 then '0' :: '.' :: (zeros (places - ds.length) ++ ds)
  else ds.take whole ++ '.' :: ds.drop whole

/-- All digits, a point only where there is a fraction. -/
def positional (d : Decimal) : List Char :=
  if 0 ≤ d.exponent then natDigits d.digits ++ zeros d.exponent.toNat
  else withPoint (natDigits d.digits) (-d.exponent).toNat

/-- All digits, with `.0` after a whole number. -/
def positionalWithPoint (d : Decimal) : List Char :=
  if 0 ≤ d.exponent then d.positional ++ ['.', '0'] else d.positional

/-- One digit before the point, then a signed exponent. -/
def scientific (d : Decimal) : List Char :=
  let ds := natDigits d.digits
  let e := d.leading
  withPoint ds (ds.length - 1) ++ 'e' :: (if e < 0 then '-' else '+') :: natDigits e.natAbs

end Decimal

end FuncSpans
