import FuncSpans.Number.Binary64
import Mathlib.Algebra.Order.Field.Power
import Mathlib.Data.Rat.Cast.Order
import Mathlib.Order.WithBot
import Mathlib.Tactic.NormNum
import Mathlib.Tactic.Ring
import Mathlib.Tactic.SplitIfs

/-!
# The total order of machine numbers

Samples are kept in the order of `Binary64.place`. `le_iff` says that this is the total order of
IEEE 754 (`Binary64.Precedes`), which is told by values: the smaller number comes first, of the two
zeros the negative one, and the NaNs stand at both ends.

Places count the magnitudes on both sides of zero, so all that has to be shown of values is that
they grow with the magnitude (`multiple_strictMono`).
-/

namespace FuncSpans.Binary64

/-! ## Values -/

/-- The sign as a factor. -/
def sign (x : Binary64) : ℚ := if x.isNegative then -1 else 1

/-- The rational numbers with both infinities. -/
abbrev Extended := WithBot (WithTop ℚ)

/-- A rational number among the extended ones. -/
def Extended.ofRat (r : ℚ) : Extended := WithBot.some (WithTop.some r)

/-- The value of a number, with the infinities at the ends; a NaN has none. -/
def extended? (x : Binary64) : Option Extended :=
  match x.parts with
  | .nan => none
  | .infinite => some (if x.isNegative then ⊥ else ⊤)
  | .finite m q => some (.ofRat (x.sign * (m * 2 ^ q)))

/-- The bits behind the exponent. The first of them tells the quiet NaNs. -/
def fraction (x : Binary64) : Nat := x.magnitude % 2 ^ 52

/-- The one number comes before the other one in the total order of IEEE 754. -/
def Precedes (x y : Binary64) : Prop :=
  match x.extended?, y.extended? with
  | some a, some b => a < b ∨ a = b ∧ x.isNegative ∧ ¬ y.isNegative
  | none, some _ => x.isNegative
  | some _, none => ¬ y.isNegative
  | none, none => x.isNegative ∧ ¬ y.isNegative ∨
      x.isNegative ∧ y.isNegative ∧ y.fraction < x.fraction ∨
      ¬ x.isNegative ∧ ¬ y.isNegative ∧ x.fraction < y.fraction

namespace Extended

@[simp]
theorem ofRat_lt_ofRat {r s : ℚ} : ofRat r < ofRat s ↔ r < s :=
  WithBot.coe_lt_coe.trans WithTop.coe_lt_coe

@[simp]
theorem ofRat_inj {r s : ℚ} : ofRat r = ofRat s ↔ r = s :=
  WithBot.coe_inj.trans WithTop.coe_inj

@[simp]
theorem bot_lt_ofRat (r : ℚ) : ⊥ < ofRat r := WithBot.bot_lt_coe _

@[simp]
theorem ofRat_lt_top (r : ℚ) : ofRat r < ⊤ := WithBot.coe_lt_coe.mpr (WithTop.coe_lt_top r)

end Extended

/-! ## Values and magnitudes -/

/-- The value of a magnitude, as a multiple of the smallest positive number. -/
def multiple (n : Nat) : Nat :=
  if n / 2 ^ 52 = 0 then n else (n % 2 ^ 52 + 2 ^ 52) * 2 ^ (n / 2 ^ 52 - 1)

theorem multiple_lt_succ (n : Nat) : multiple n < multiple (n + 1) := by
  have hPow : 0 < 2 ^ (n / 2 ^ 52 - 1) := Nat.two_pow_pos _
  unfold multiple
  by_cases hWrap : (n + 1) % 2 ^ 52 = 0
  · have hExponent : (n + 1) / 2 ^ 52 = n / 2 ^ 52 + 1 := by omega
    have hFraction : n % 2 ^ 52 = 2 ^ 52 - 1 := by omega
    rw [hExponent, hWrap, hFraction, if_neg (Nat.succ_ne_zero _), Nat.add_sub_cancel]
    split_ifs with h
    · rw [h]
      omega
    · obtain ⟨k, hk⟩ := Nat.exists_eq_add_one_of_ne_zero h
      have hPow : 0 < 2 ^ k := Nat.two_pow_pos k
      rw [hk, Nat.add_sub_cancel, Nat.pow_succ 2 k]
      omega
  · have hExponent : (n + 1) / 2 ^ 52 = n / 2 ^ 52 := by omega
    have hFraction : (n + 1) % 2 ^ 52 = n % 2 ^ 52 + 1 := by omega
    rw [hExponent, hFraction]
    split_ifs
    · omega
    · exact Nat.mul_lt_mul_of_pos_right (by omega) hPow

theorem multiple_strictMono : StrictMono multiple := strictMono_nat_of_lt_succ multiple_lt_succ

/-- The magnitude of the infinities. Below it are the finite numbers, above it the NaNs. -/
def infinity : Nat := 2047 * 2 ^ 52

/-- The smallest positive number. -/
def least : ℚ := 2 ^ (-1074 : ℤ)

theorem least_pos : 0 < least := zpow_pos (by norm_num) _

theorem two_zpow_eq (k : Nat) : (2 : ℚ) ^ (k - 1074 : ℤ) = 2 ^ k * least := by
  rw [least, sub_eq_add_neg, zpow_add₀ two_ne_zero, zpow_natCast]

/-- What the bits other than the sign say. -/
theorem parts_cases (x : Binary64) :
    (infinity < x.magnitude ∧ x.parts = .nan) ∨ (x.magnitude = infinity ∧ x.parts = .infinite) ∨
    (x.magnitude < infinity ∧ ∃ m q, x.parts = .finite m q ∧
      (m : ℚ) * 2 ^ q = multiple x.magnitude * least) := by
  have hLt := x.magnitude_lt
  unfold parts infinity multiple
  generalize x.magnitude = n at *
  dsimp only
  split
  · rename_i hExponent
    refine Or.inr (Or.inr ⟨by omega, n % 2 ^ 52, -1074, rfl, ?_⟩)
    rw [if_pos (show n / 2 ^ 52 = 0 from hExponent), Nat.mod_eq_of_lt (by omega), least]
  · rename_i hExponent
    by_cases hFraction : n % 2 ^ 52 = 0
    · exact Or.inr (Or.inl ⟨by omega, if_pos hFraction⟩)
    · exact Or.inl ⟨by omega, if_neg hFraction⟩
  · rename_i hZero hTop
    obtain ⟨k, hk⟩ := Nat.exists_eq_add_one_of_ne_zero hZero
    have hBelow : k + 1 ≠ 2047 := hk ▸ hTop
    refine Or.inr (Or.inr ⟨by omega, n % 2 ^ 52 + 2 ^ 52, k - 1074, ?_, ?_⟩)
    · rw [hk]
      push_cast
      congr 1
      omega
    · have hTop : n / 2 ^ 52 = k + 1 := hk
      rw [hTop, if_neg (Nat.succ_ne_zero k), Nat.add_sub_cancel, two_zpow_eq]
      push_cast
      ring

/-! ## The order -/

theorem extended?_cases (x : Binary64) :
    (infinity < x.magnitude ∧ x.extended? = none) ∨
    (x.magnitude = infinity ∧ x.extended? = some (if x.isNegative then ⊥ else ⊤)) ∨
    (x.magnitude < infinity ∧
      x.extended? = some (.ofRat (x.sign * (multiple x.magnitude * least)))) := by
  rcases x.parts_cases with ⟨hx, hParts⟩ | ⟨hx, hParts⟩ | ⟨hx, m, q, hParts, hValue⟩
  · exact Or.inl ⟨hx, by rw [extended?, hParts]⟩
  · exact Or.inr (Or.inl ⟨hx, by rw [extended?, hParts]⟩)
  · exact Or.inr (Or.inr ⟨hx, by rw [extended?, hParts, ← hValue]⟩)

/-- Two finite numbers are compared by their magnitudes, the zeros by their signs. -/
theorem precedes_finite_iff (x y : Binary64) :
    (x.sign * (multiple x.magnitude * least) < y.sign * (multiple y.magnitude * least) ∨
      x.sign * (multiple x.magnitude * least) = y.sign * (multiple y.magnitude * least) ∧
        x.isNegative ∧ ¬ y.isNegative) ↔ x.place < y.place := by
  have hNonneg (n : Nat) : 0 ≤ multiple n * least := mul_nonneg (Nat.cast_nonneg _) least_pos.le
  have hLt (m n : Nat) : multiple m * least < multiple n * least ↔ m < n := by
    rw [mul_lt_mul_iff_left₀ least_pos, Nat.cast_lt, multiple_strictMono.lt_iff_lt]
  have hx := hNonneg x.magnitude
  have hy := hNonneg y.magnitude
  unfold sign place
  cases x.isNegative <;> cases y.isNegative
  · simp [hLt]
  · simp only [Bool.false_eq_true, if_true, if_false, one_mul, neg_one_mul, not_true, and_false,
      or_false]
    refine iff_of_false (not_lt.mpr ((neg_nonpos.mpr hy).trans hx)) (by omega)
  · simp only [Bool.false_eq_true, if_true, if_false, one_mul, neg_one_mul, not_false_iff, and_true,
      and_self]
    exact iff_of_true (lt_or_eq_of_le ((neg_nonpos.mpr hx).trans hy)) (by omega)
  · simp [hLt]

theorem place_lt_iff_precedes (x y : Binary64) : x.place < y.place ↔ x.Precedes y := by
  have hxLt := x.magnitude_lt
  have hyLt := y.magnitude_lt
  unfold Precedes
  rcases extended?_cases x with ⟨hx, ex⟩ | ⟨hx, ex⟩ | ⟨hx, ex⟩ <;>
    rcases extended?_cases y with ⟨hy, ey⟩ | ⟨hy, ey⟩ | ⟨hy, ey⟩ <;>
    rw [ex, ey]
  case inr.inr.inr.inr =>
    rw [← precedes_finite_iff]
    simp only [Extended.ofRat_lt_ofRat, Extended.ofRat_inj]
  all_goals
    generalize x.sign * (multiple x.magnitude * least) = r
    generalize y.sign * (multiple y.magnitude * least) = s
    unfold place fraction infinity at *
    cases x.isNegative <;> cases y.isNegative <;> simp <;> try omega

/-- Samples are kept in the total order of IEEE 754. -/
theorem le_iff (x y : Binary64) : Quantity.le x y = true ↔ x = y ∨ x.Precedes y := by
  rw [← place_lt_iff_precedes]
  refine decide_eq_true_iff.trans ⟨fun h => ?_, ?_⟩
  · exact (Int.lt_or_eq_of_le h).symm.imp_left place_inj
  · rintro (rfl | h)
    · exact Int.le_refl _
    · exact Int.le_of_lt h

end FuncSpans.Binary64
