import FuncSpans.Statistics.Sample

/-!
# Machine numbers

A `Binary64` is a 64-bit IEEE number, kept as its bits so that NaNs keep their signs. The
total order is that of the standard: it puts the negative NaNs first and the positive ones
last and tells the two zeros apart. A finite number is a natural number times a power of two
(`Parts`).
-/

namespace FuncSpans

/-- A 64-bit IEEE number. -/
structure Binary64 where
  bits : UInt64
  deriving DecidableEq

namespace Binary64

def ofFloat (x : Float) : Binary64 := ⟨x.toBits⟩

def toFloat (x : Binary64) : Float := Float.ofBits x.bits

/-! ## What the bits say -/

def isNegative (x : Binary64) : Bool := 0x8000000000000000 ≤ x.bits.toNat

/-- The bits other than the sign, as a number. -/
def magnitude (x : Binary64) : Nat := x.bits.toNat % 0x8000000000000000

/-- The kinds of values, the finite ones as `mantissa * 2 ^ exponent`. -/
inductive Parts where
  | nan
  | infinite
  | finite (mantissa : Nat) (exponent : Int)

/-- The value without its sign. -/
def parts (x : Binary64) : Parts :=
  let fraction := x.magnitude % 0x10000000000000
  match x.magnitude / 0x10000000000000 with
  | 0 => .finite fraction (-1074)
  | 2047 => if fraction = 0 then .infinite else .nan
  | e => .finite (fraction + 0x10000000000000) (e - 1075)

/-! ## Order -/

/-- The place of a number in the total order. -/
def place (x : Binary64) : Int :=
  if x.isNegative then -(x.magnitude : Int) - 1 else x.magnitude

/-- The floor, brought into the range from 0 to a cap; 0 for a NaN. -/
def rank (x : Binary64) (cap : Nat) : Nat :=
  if x.isNegative then 0
  else match x.parts with
    | .nan => 0
    | .infinite => cap
    | .finite m e => min cap (if 0 ≤ e then m * Nat.pow 2 e.toNat else m / Nat.pow 2 (-e).toNat)

instance : Quantity Binary64 where
  add a b := ofFloat (a.toFloat + b.toFloat)
  sub a b := ofFloat (a.toFloat - b.toFloat)
  mul a b := ofFloat (a.toFloat * b.toFloat)
  div a b := ofFloat (a.toFloat / b.toFloat)
  le a b := a.place ≤ b.place
  le_trans a b c hab hbc := by
    simp only [decide_eq_true_eq] at hab hbc ⊢
    exact Int.le_trans hab hbc
  le_total a b := by
    simp only [Bool.or_eq_true, decide_eq_true_eq]
    exact Int.le_total a.place b.place
  ofNat n := ofFloat n.toFloat
  zero := ⟨0x8000000000000000⟩
  rank := rank

theorem magnitude_lt (x : Binary64) : x.magnitude < 0x8000000000000000 :=
  Nat.mod_lt _ (by decide)

/-- Numbers at one place of the total order are the same number. -/
theorem place_inj {x y : Binary64} (h : x.place = y.place) : x = y := by
  have hx := x.bits.toNat_lt
  have hy := y.bits.toNat_lt
  have : x.bits.toNat = y.bits.toNat := by
    simp only [place, isNegative, magnitude, decide_eq_true_eq] at h
    split at h <;> split at h <;> omega
  cases x; cases y
  simpa [UInt64.toNat_inj] using this

end Binary64

end FuncSpans
