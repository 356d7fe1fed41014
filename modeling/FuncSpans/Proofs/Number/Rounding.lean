import FuncSpans.Number.Shortest
import FuncSpans.Proofs.Number.Order
import Mathlib.Algebra.Order.Ring.Abs
import Mathlib.Tactic.FieldSimp
import Mathlib.Tactic.Linarith
import Mathlib.Tactic.Positivity

/-!
# Rounding to machine numbers

`Binary64.RoundsTo` is rounding to the nearest number with ties to the even one, told without an
algorithm: of all numbers of a sign none is nearer. It gives each size just one number
(`RoundsTo.unique`).

`roundsTo_iff_middles` says which sizes are rounded to a number: those between the middles to its
neighbours, the middles too if the number is even. `Shortest.interval` is this interval, measured in
a power of ten (`Shortest.contains_iff`).
-/

namespace FuncSpans

namespace Binary64

/-! ## Sizes -/

/-- The size of the numbers of a magnitude. For the infinities it is that of the number that would
come next if the exponent had no bound. -/
def size (n : Nat) : ℚ := multiple n * least

theorem size_strictMono : StrictMono size := fun _ _ h =>
  mul_lt_mul_of_pos_right (Nat.cast_lt.mpr (multiple_strictMono h)) least_pos

theorem size_zero : size 0 = 0 := by
  simp [size, multiple]

/-- A size is rounded to a number: no number of the sign is nearer, and of two that are as near it
is the one whose last bit is zero. -/
structure RoundsTo (negative : Bool) (r : ℚ) (x : Binary64) : Prop where
  sign : x.isNegative = negative
  bound : x.magnitude ≤ infinity
  nearest : ∀ n ≤ infinity, |r - size x.magnitude| ≤ |r - size n|
  even : ∀ n ≤ infinity, n ≠ x.magnitude → |r - size x.magnitude| = |r - size n| →
    x.magnitude % 2 = 0

/-- The sign and the magnitude are all of a number. -/
theorem ext_magnitude {x y : Binary64} (hSign : x.isNegative = y.isNegative)
    (h : x.magnitude = y.magnitude) : x = y := by
  apply place_inj
  rw [place, place, hSign, h]

/-- Between two numbers that are as near lies a nearer one, unless they are neighbours. -/
theorem near_between {r : ℚ} {m n : Nat} (hLt : m < n) (h : |r - size m| = |r - size n|)
    (hBetween : |r - size m| ≤ |r - size (m + 1)|) : n = m + 1 := by
  by_contra hne
  have hm : size m < size (m + 1) := size_strictMono (Nat.lt_succ_self m)
  have hn : size (m + 1) < size n := size_strictMono (by omega)
  have hMiddle : 2 * r = size m + size n := by
    rcases abs_eq_abs.mp h with h | h <;> linarith
  have hAway : |r - size m| = r - size m := abs_of_nonneg (by linarith)
  rw [hAway] at hBetween
  rcases le_abs'.mp hBetween with h | h <;> linarith

/-- A size is rounded to one number of a sign. -/
theorem RoundsTo.unique {negative : Bool} {r : ℚ} {x y : Binary64} (hx : RoundsTo negative r x)
    (hy : RoundsTo negative r y) : x = y := by
  refine ext_magnitude (hx.sign.trans hy.sign.symm) ?_
  by_contra hne
  have he : |r - size x.magnitude| = |r - size y.magnitude| :=
    le_antisymm (hx.nearest _ hy.bound) (hy.nearest _ hx.bound)
  have hxEven := hx.even _ hy.bound (Ne.symm hne) he
  have hyEven := hy.even _ hx.bound hne he.symm
  rcases Nat.lt_or_gt_of_ne hne with hLt | hLt
  · have := near_between hLt he (hx.nearest _ (hLt.trans_le hy.bound))
    omega
  · have := near_between hLt he.symm (hy.nearest _ (hLt.trans_le hx.bound))
    omega

theorem near_of_le {r a b : ℚ} (hab : a ≤ b) (h : a + b ≤ 2 * r) : |r - b| ≤ |r - a| := by
  rw [abs_of_nonneg (by linarith : 0 ≤ r - a)]
  exact abs_le.mpr ⟨by linarith, by linarith⟩

theorem near_of_ge {r a b : ℚ} (hab : b ≤ a) (h : 2 * r ≤ a + b) : |r - b| ≤ |r - a| := by
  rw [abs_of_nonpos (by linarith : r - a ≤ 0)]
  exact abs_le.mpr ⟨by linarith, by linarith⟩

theorem two_mul_eq_of_near {r a b : ℚ} (hne : a ≠ b) (h : |r - b| = |r - a|) : 2 * r = a + b := by
  rcases abs_eq_abs.mp h with h | h
  · exact (hne (by linarith)).elim
  · linarith

/-- Rounding is decided by the middles to the two neighbours. -/
theorem roundsTo_iff_middles {x : Binary64} (hPos : 0 < x.magnitude)
    (hFinite : x.magnitude < infinity) {r : ℚ} :
    RoundsTo x.isNegative r x ↔
      (size (x.magnitude - 1) + size x.magnitude ≤ 2 * r ∧
        2 * r ≤ size (x.magnitude + 1) + size x.magnitude) ∧
      (x.magnitude % 2 ≠ 0 → size (x.magnitude - 1) + size x.magnitude ≠ 2 * r ∧
        2 * r ≠ size (x.magnitude + 1) + size x.magnitude) := by
  generalize hn : x.magnitude = n at *
  have hBelow : size (n - 1) < size n := size_strictMono (by omega)
  have hAbove : size n < size (n + 1) := size_strictMono (by omega)
  constructor
  · rintro ⟨-, -, hNearest, hEven⟩
    rw [hn] at hNearest hEven
    have hLow := hNearest (n - 1) (by omega)
    have hHigh := hNearest (n + 1) (by omega)
    refine ⟨⟨?_, ?_⟩, fun hOdd => ⟨fun he => hOdd ?_, fun he => hOdd ?_⟩⟩
    · by_contra h
      rw [abs_of_nonpos (by linarith : r - size n ≤ 0)] at hLow
      rcases le_abs'.mp hLow with h | h <;> linarith
    · by_contra h
      rw [abs_of_nonneg (by linarith : 0 ≤ r - size n)] at hHigh
      rcases le_abs'.mp hHigh with h | h <;> linarith
    · refine hEven (n - 1) (by omega) (by omega) (abs_eq_abs.mpr (Or.inr ?_))
      linarith
    · refine hEven (n + 1) (by omega) (by omega) (abs_eq_abs.mpr (Or.inr ?_))
      linarith
  · rintro ⟨⟨hLow, hHigh⟩, hStrict⟩
    refine ⟨rfl, hn ▸ hFinite.le, fun k _ => ?_, fun k _ hk he => ?_⟩
    · rw [hn]
      rcases Nat.lt_trichotomy k n with hLt | rfl | hLt
      · have hk : size k ≤ size (n - 1) := size_strictMono.monotone (by omega)
        exact near_of_le (by linarith) (by linarith)
      · exact le_refl _
      · have hk : size (n + 1) ≤ size k := size_strictMono.monotone (by omega)
        exact near_of_ge (by linarith) (by linarith)
    · rw [hn] at he hk ⊢
      have hMiddle := two_mul_eq_of_near (size_strictMono.injective.ne hk) he
      by_contra hOdd
      obtain ⟨hLowNe, hHighNe⟩ := hStrict hOdd
      rcases Nat.lt_or_gt_of_ne hk with hLt | hLt
      · have hk : size k ≤ size (n - 1) := size_strictMono.monotone (by omega)
        exact hLowNe (by linarith)
      · have hk : size (n + 1) ≤ size k := size_strictMono.monotone (by omega)
        exact hHighNe (by linarith)

theorem roundsTo_size {x : Binary64} (hPos : 0 < x.magnitude) (hFinite : x.magnitude < infinity) :
    RoundsTo x.isNegative (size x.magnitude) x := by
  have hBelow : size (x.magnitude - 1) < size x.magnitude := size_strictMono (by omega)
  have hAbove : size x.magnitude < size (x.magnitude + 1) := size_strictMono (by omega)
  exact (roundsTo_iff_middles hPos hFinite).mpr ⟨⟨by linarith, by linarith⟩,
    fun _ => ⟨by linarith, by linarith⟩⟩

/-- What lies between a number and a size that is rounded to it is rounded to it too. -/
theorem RoundsTo.between {x : Binary64} (hPos : 0 < x.magnitude) (hFinite : x.magnitude < infinity)
    {r r' : ℚ} (h : RoundsTo x.isNegative r x)
    (hBetween : r ≤ r' ∧ r' ≤ size x.magnitude ∨ size x.magnitude ≤ r' ∧ r' ≤ r) :
    RoundsTo x.isNegative r' x := by
  rw [roundsTo_iff_middles hPos hFinite] at h ⊢
  obtain ⟨⟨hLow, hHigh⟩, hStrict⟩ := h
  have hBelow : size (x.magnitude - 1) < size x.magnitude := size_strictMono (by omega)
  have hAbove : size x.magnitude < size (x.magnitude + 1) := size_strictMono (by omega)
  rcases hBetween with ⟨hr, hr'⟩ | ⟨hr, hr'⟩
  · refine ⟨⟨by linarith, by linarith⟩, fun hOdd => ⟨fun he => ?_, by linarith⟩⟩
    exact (hStrict hOdd).1 (by linarith)
  · refine ⟨⟨by linarith, by linarith⟩, fun hOdd => ⟨by linarith, fun he => ?_⟩⟩
    exact (hStrict hOdd).2 (by linarith)

/-- Zero is rounded to zero only. -/
theorem RoundsTo.pos {negative : Bool} {r : ℚ} {x : Binary64} (h : RoundsTo negative r x)
    (hPos : 0 < x.magnitude) (hr : 0 ≤ r) : 0 < r := by
  refine lt_of_le_of_ne hr fun he => ?_
  have hNearest := h.nearest 0 (Nat.zero_le _)
  have hSize : 0 < size x.magnitude := size_zero ▸ size_strictMono hPos
  rw [← he, size_zero, zero_sub, abs_neg, abs_of_pos hSize, sub_zero, abs_zero] at hNearest
  linarith

/-! ## Mantissas and exponents -/

/-- The mantissa and the exponent of a finite number, and the sizes of its neighbours. -/
structure Placed (x : Binary64) (m : Nat) (q : ℤ) : Prop where
  finite : x.magnitude < infinity
  size_eq : size x.magnitude = m * 2 ^ q
  size_succ : size (x.magnitude + 1) = (m + 1) * 2 ^ q
  size_pred : 0 < x.magnitude →
    size (x.magnitude - 1) = (m - (if Shortest.atBinade m q then 1 / 2 else 1)) * 2 ^ q
  parity : x.magnitude % 2 = m % 2
  mantissa_lt : m < 2 ^ 53
  exponent_ge : -1074 ≤ q

theorem multiple_of_lt {n : Nat} (h : n < 2 ^ 52) : multiple n = n := by
  rw [multiple, if_pos (Nat.div_eq_of_lt h)]

/-- The multiples of one exponent go on into the next one. -/
theorem multiple_add {e f : Nat} (h : f ≤ 2 ^ 52) :
    multiple ((e + 1) * 2 ^ 52 + f) = (f + 2 ^ 52) * 2 ^ e := by
  unfold multiple
  rcases Nat.lt_or_eq_of_le h with hLt | rfl
  · have hExponent : ((e + 1) * 2 ^ 52 + f) / 2 ^ 52 = e + 1 := by omega
    have hFraction : ((e + 1) * 2 ^ 52 + f) % 2 ^ 52 = f := by omega
    rw [hExponent, hFraction, if_neg (Nat.succ_ne_zero e), Nat.add_sub_cancel]
  · have hExponent : ((e + 1) * 2 ^ 52 + 2 ^ 52) / 2 ^ 52 = e + 1 + 1 := by omega
    have hFraction : ((e + 1) * 2 ^ 52 + 2 ^ 52) % 2 ^ 52 = 0 := by omega
    rw [hExponent, hFraction, if_neg (Nat.succ_ne_zero _), Nat.add_sub_cancel, Nat.pow_succ 2 e]
    omega

/-- A finite magnitude is below the normal numbers, or has an exponent and a fraction. -/
theorem parts_finite {x : Binary64} {m : Nat} {q : ℤ} (h : x.parts = .finite m q) :
    (x.magnitude = m ∧ m < 2 ^ 52 ∧ q = -1074) ∨
      ∃ e f : Nat, x.magnitude = (e + 1) * 2 ^ 52 + f ∧ e < 2046 ∧ f < 2 ^ 52 ∧ m = f + 2 ^ 52 ∧
        q = e - 1074 := by
  have hLt := x.magnitude_lt
  unfold parts at h
  generalize x.magnitude = n at *
  dsimp only at h
  split at h
  · rename_i hExponent
    injection h with hm hq
    exact Or.inl ⟨by omega, by omega, hq.symm⟩
  · split at h <;> cases h
  · rename_i hZero hTop
    obtain ⟨e, he⟩ := Nat.exists_eq_add_one_of_ne_zero hZero
    have hBelow : e + 1 ≠ 2047 := he ▸ hTop
    injection h with hm hq
    refine Or.inr ⟨e, n % 2 ^ 52, by omega, by omega, by omega, hm.symm, ?_⟩
    rw [← hq, he]
    push_cast
    omega

theorem Placed.magnitude_pos {x : Binary64} {m : Nat} {q : ℤ} (hx : x.Placed m q) (hm : m ≠ 0) :
    0 < x.magnitude := by
  refine Nat.pos_of_ne_zero fun h => hm ?_
  have hSize := hx.size_eq
  rw [h, size_zero] at hSize
  have hPow : (2 : ℚ) ^ q ≠ 0 := zpow_ne_zero q two_ne_zero
  exact Nat.cast_eq_zero.mp ((mul_eq_zero.mp hSize.symm).resolve_right hPow)

theorem size_eq_mul {n e : Nat} {m : ℚ} (h : (multiple n : ℚ) = m * 2 ^ e) :
    size n = m * 2 ^ (e - 1074 : ℤ) := by
  rw [size, h, two_zpow_eq, mul_assoc]

theorem size_of_lt {n : Nat} (h : n ≤ 2 ^ 52) : size n = n * 2 ^ (-1074 : ℤ) := by
  have hMultiple : multiple n = n := by
    rcases Nat.lt_or_eq_of_le h with hLt | rfl
    · exact multiple_of_lt hLt
    · simpa using @multiple_add 0 0 (Nat.zero_le _)
  rw [size, hMultiple, least]

theorem size_add {e f : Nat} (h : f ≤ 2 ^ 52) :
    size ((e + 1) * 2 ^ 52 + f) = ((f + 2 ^ 52 : Nat) : ℚ) * 2 ^ (e - 1074 : ℤ) :=
  size_eq_mul (by rw [multiple_add h]; push_cast; ring)

/-- The middles to the neighbours of a number lie half a unit of its last place away, below a power
of two a quarter. -/
theorem placed_of_parts {x : Binary64} {m : Nat} {q : ℤ} (h : x.parts = .finite m q) :
    x.Placed m q := by
  rcases parts_finite h with ⟨hx, hm, rfl⟩ | ⟨e, f, hx, he, hf, rfl, rfl⟩
  · have hBinade : Shortest.atBinade m (-1074) = false := by
      simp [Shortest.atBinade]
    refine ⟨by rw [hx, infinity]; omega, by rw [hx]; exact size_of_lt (by omega), ?_,
      fun hPos => ?_, by rw [hx], by omega, le_refl _⟩
    · rw [hx, size_of_lt (by omega), Nat.cast_succ]
    · rw [hx] at hPos ⊢
      rw [size_of_lt (by omega), hBinade, if_neg (by simp), Nat.cast_pred hPos]
  · refine ⟨by rw [hx, infinity]; omega, by rw [hx]; exact size_add hf.le, ?_, fun _ => ?_,
      by rw [hx]; omega, by omega, by omega⟩
    · rw [hx, Nat.add_assoc, size_add (by omega)]
      push_cast
      ring
    · rw [hx]
      rcases Nat.eq_zero_or_pos f with rfl | hPos
      · cases e with
        | zero =>
          have hBinade : Shortest.atBinade (0 + 2 ^ 52) ((0 : Nat) - 1074) = false := by
            simp [Shortest.atBinade]
          rw [hBinade, if_neg (by simp), Nat.zero_add, Nat.zero_add, Nat.one_mul, Nat.add_zero,
            size_of_lt (by omega), Nat.cast_pred (Nat.two_pow_pos 52), Nat.cast_zero, zero_sub]
        | succ e =>
          have hBinade : Shortest.atBinade (0 + 2 ^ 52) ((e + 1 : Nat) - 1074) = true := by
            simp [Shortest.atBinade]
          have hBefore : (e + 1 + 1) * 2 ^ 52 + 0 - 1 = (e + 1) * 2 ^ 52 + (2 ^ 52 - 1) := by omega
          have hPow : (2 : ℚ) ^ ((e + 1 : Nat) - 1074 : ℤ) = 2 * 2 ^ (e - 1074 : ℤ) := by
            rw [Nat.cast_succ, show (e + 1 - 1074 : ℤ) = 1 + (e - 1074) by ring,
              zpow_add₀ two_ne_zero, zpow_one]
          rw [hBinade, if_pos rfl, hBefore, size_add (by omega), hPow]
          push_cast
          ring
      · have hBinade : Shortest.atBinade (f + 2 ^ 52) (e - 1074) = false := by
          simp [Shortest.atBinade]
          omega
        rw [hBinade, if_neg (by simp), Nat.add_sub_assoc hPos, size_add (by omega)]
        rw [show f - 1 + 2 ^ 52 = f + 2 ^ 52 - 1 by omega, Nat.cast_sub (by omega)]
        push_cast
        ring

end Binary64

/-! ## Intervals -/

namespace Shortest

open Binary64

theorem pow_toNat {b : ℚ} (hb : b ≠ 0) (z : ℤ) : b ^ z.toNat = b ^ z * b ^ (-z).toNat := by
  rw [← zpow_natCast, ← zpow_natCast, ← zpow_add₀ hb]
  congr 1
  omega

/-- What an interval is made of, over its unit: the middles to the neighbours and the size. -/
theorem interval_eq {x : Binary64} {m : Nat} {q : ℤ} (hx : x.Placed m q) (hm : m ≠ 0) (k : ℤ) :
    ∃ u : ℚ, 0 < u ∧ ((interval m q k).unit : ℚ) = 10 ^ k * u ∧
      ((interval m q k).value : ℚ) = size x.magnitude * u ∧
      2 * ((interval m q k).low : ℚ) = (size (x.magnitude - 1) + size x.magnitude) * u ∧
      2 * ((interval m q k).high : ℚ) = (size (x.magnitude + 1) + size x.magnitude) * u := by
  have hTwo := pow_toNat two_ne_zero (q - 2)
  have hTen := pow_toNat (b := 10) (by norm_num) k
  have hFour : (2 : ℚ) ^ q = 4 * 2 ^ (q - 2) := by
    rw [zpow_sub₀ two_ne_zero]
    ring
  rw [neg_sub] at hTwo
  refine ⟨2 ^ (2 - q).toNat * 10 ^ (-k).toNat, by positivity, ?_, ?_, ?_, ?_⟩
  · simp only [interval, Nat.pow_eq, Nat.cast_mul, Nat.cast_pow, Nat.cast_ofNat, hTen]
    ring
  · simp only [interval, Nat.pow_eq, Nat.cast_mul, Nat.cast_pow, Nat.cast_ofNat, hTwo, hx.size_eq,
      hFour]
    ring
  · have hLow : (if atBinade m q then 1 else 2) ≤ 4 * m := by split_ifs <;> omega
    simp only [interval, Nat.pow_eq, Nat.cast_mul, Nat.cast_pow, Nat.cast_ofNat, hTwo, hx.size_eq,
      hx.size_pred (hx.magnitude_pos hm), hFour, Nat.cast_sub hLow]
    split_ifs <;> push_cast <;> ring
  · simp only [interval, Nat.pow_eq, Nat.cast_mul, Nat.cast_pow, Nat.cast_ofNat, Nat.cast_add, hTwo,
      hx.size_eq, hx.size_succ, hFour]
    ring

/-- A whole number lies in the interval if so many times the power of ten are rounded to the
number. -/
theorem contains_iff {x : Binary64} {m : Nat} {q : ℤ} (hx : x.Placed m q) (hm : m ≠ 0) {k : ℤ}
    {n : Nat} : (interval m q k).contains n = true ↔ RoundsTo x.isNegative (n * 10 ^ k) x := by
  obtain ⟨u, hu, hUnit, -, hLow, hHigh⟩ := interval_eq hx hm k
  have hClosed : (interval m q k).closed = (m % 2 == 0) := rfl
  rw [roundsTo_iff_middles (hx.magnitude_pos hm) hx.finite, hx.parity, Interval.contains, hClosed]
  generalize interval m q k = i at *
  have hn : 2 * ((n * i.unit : Nat) : ℚ) = 2 * (n * 10 ^ k) * u := by
    rw [Nat.cast_mul, hUnit]
    ring
  have hLe : i.low ≤ n * i.unit ↔ size (x.magnitude - 1) + size x.magnitude ≤ 2 * (n * 10 ^ k) := by
    rw [← mul_le_mul_iff_left₀ hu, ← hLow, ← hn, mul_le_mul_iff_right₀ two_pos, Nat.cast_le]
  have hGe : n * i.unit ≤ i.high ↔
      2 * (n * 10 ^ k) ≤ size (x.magnitude + 1) + size x.magnitude := by
    rw [← mul_le_mul_iff_left₀ hu, ← hHigh, ← hn, mul_le_mul_iff_right₀ two_pos, Nat.cast_le]
  have hLt : i.low < n * i.unit ↔ size (x.magnitude - 1) + size x.magnitude < 2 * (n * 10 ^ k) := by
    rw [← mul_lt_mul_iff_left₀ hu, ← hLow, ← hn, mul_lt_mul_iff_right₀ two_pos, Nat.cast_lt]
  have hGt : n * i.unit < i.high ↔
      2 * (n * 10 ^ k) < size (x.magnitude + 1) + size x.magnitude := by
    rw [← mul_lt_mul_iff_left₀ hu, ← hHigh, ← hn, mul_lt_mul_iff_right₀ two_pos, Nat.cast_lt]
  by_cases hEven : m % 2 = 0
  · simp [hEven, hLe, hGe]
  · simp only [hEven, beq_iff_eq, if_false, Bool.and_eq_true, decide_eq_true_eq, hLt, hGt,
      not_false_eq_true, true_imp_iff, lt_iff_le_and_ne, ne_eq]
    tauto

end Shortest

end FuncSpans
