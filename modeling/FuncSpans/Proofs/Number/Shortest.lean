import FuncSpans.Proofs.Number.Notation
import FuncSpans.Proofs.Number.Rounding
import Mathlib.Data.Rat.Floor

/-!
# Shortest decimals

`Binary64.IsShortest` says what the search for digits is after: a decimal that is rounded to the
number, with as few digits as any such decimal, and as near to the number as any of these.
`shortest_isShortest` says that the search finds one for every finite number. It is a matter of the
first digit (`leading_bounds`), of the nearest multiple of a power of ten (`nearest?_spec`) and of
how many powers have to be tried, which is never more than seventeen (`exists_rounds`).

There are two shortest decimals if the number lies in the middle between them (`Binary64.Midway`).
Then the way to treat ties decides which one is found (`shortest_of_midway`), and only then does it
matter (`shortest_eq_or_midway`).
-/

namespace FuncSpans

namespace Decimal

/-! ## Values -/

/-- The number that a decimal is. -/
def value (d : Decimal) : ℚ := d.digits * 10 ^ d.exponent

/-- The decimal that comes next at the same exponent. -/
def next (d : Decimal) : Decimal := ⟨d.digits + 1, d.exponent⟩

theorem value_next (d : Decimal) : d.next.value = d.value + 10 ^ d.exponent := by
  rw [value, value, next, Nat.cast_succ]
  ring

theorem natDigits_length_le {n k : Nat} (hk : 0 < k) : (natDigits n).length ≤ k ↔ n < 10 ^ k :=
  Nat.length_toDigits_le_iff (by decide) hk

theorem natDigits_length_pos (n : Nat) : 0 < (natDigits n).length :=
  List.length_pos_iff.mpr (digits_natDigits n).1

theorem lt_pow_length (n : Nat) : n < 10 ^ (natDigits n).length :=
  (natDigits_length_le (natDigits_length_pos n)).mp (le_refl _)

theorem pow_length_le {n : Nat} (hn : n ≠ 0) : 10 ^ ((natDigits n).length - 1) ≤ n := by
  by_contra h
  rcases Nat.eq_zero_or_pos ((natDigits n).length - 1) with hk | hk
  · rw [hk] at h
    omega
  · have := (natDigits_length_le hk).mpr (Nat.lt_of_not_le h)
    omega

/-- A decimal lies between two powers of ten. -/
theorem value_bounds {d : Decimal} (h : d.digits ≠ 0) :
    10 ^ d.leading ≤ d.value ∧ d.value < 10 ^ (d.leading + 1) := by
  have hPow : (0 : ℚ) < 10 ^ d.exponent := by positivity
  have hLength := natDigits_length_pos d.digits
  have hLow : d.leading = ((natDigits d.digits).length - 1 : Nat) + d.exponent := by
    rw [leading]
    omega
  have hHigh : d.leading + 1 = ((natDigits d.digits).length : Nat) + d.exponent := by
    rw [leading]
    omega
  rw [hLow, zpow_add₀ (by norm_num), zpow_natCast, value]
  constructor
  · exact mul_le_mul_of_nonneg_right (by exact_mod_cast pow_length_le h) hPow.le
  · rw [show ((((natDigits d.digits).length - 1 : Nat) + d.exponent + 1 : ℤ)) =
      ((natDigits d.digits).length : Nat) + d.exponent by omega, zpow_add₀ (by norm_num),
      zpow_natCast]
    exact mul_lt_mul_of_pos_right (by exact_mod_cast lt_pow_length d.digits) hPow

theorem value_div_ten {d : Decimal} (h : d.digits % 10 = 0) :
    value ⟨d.digits / 10, d.exponent + 1⟩ = d.value := by
  have hDigits : (d.digits : ℚ) = (d.digits / 10 : Nat) * 10 := by
    exact_mod_cast (Nat.div_mul_cancel (Nat.dvd_of_mod_eq_zero h)).symm
  rw [value, value, hDigits, zpow_add₀ (by norm_num), zpow_one]
  ring

theorem value_trim (fuel : Nat) (d : Decimal) : (trim fuel d).value = d.value := by
  induction fuel generalizing d with
  | zero => rfl
  | succ fuel ih =>
    rw [trim]
    split_ifs with h
    · rw [ih, value_div_ten h.2]
    · rfl

theorem digits_trim_le (fuel : Nat) (d : Decimal) : (trim fuel d).digits ≤ d.digits := by
  induction fuel generalizing d with
  | zero => exact le_refl _
  | succ fuel ih =>
    rw [trim]
    split_ifs
    · exact (ih _).trans (Nat.div_le_self _ _)
    · exact le_refl _

end Decimal

namespace Shortest

open Decimal Binary64

/-! ## The first digit -/

theorem tensBelow_spec {n bound fuel : Nat} (h : bound ≤ n * 10 ^ fuel) :
    bound ≤ n * 10 ^ tensBelow fuel n bound ∧
      (tensBelow fuel n bound ≠ 0 → n * 10 ^ (tensBelow fuel n bound - 1) < bound) := by
  induction fuel generalizing n with
  | zero => exact ⟨h, fun h => (h rfl).elim⟩
  | succ fuel ih =>
    rw [tensBelow]
    split_ifs with hBound
    · exact ⟨by simpa using hBound, fun h => (h rfl).elim⟩
    · obtain ⟨hLow, hHigh⟩ := ih (n := n * 10) (by rw [Nat.mul_assoc, ← Nat.pow_succ']; exact h)
      rw [Nat.mul_assoc, ← Nat.pow_succ'] at hLow
      refine ⟨hLow, fun _ => ?_⟩
      rw [Nat.add_sub_cancel]
      rcases Nat.eq_zero_or_pos (tensBelow fuel (n * 10) bound) with hz | hPos
      · rw [hz]
        omega
      · have := hHigh (by omega)
        rwa [Nat.mul_assoc, ← Nat.pow_succ', Nat.succ_eq_add_one, Nat.sub_add_cancel hPos] at this

theorem cast_bounds {n : Nat} (hn : n ≠ 0) :
    (10 : ℚ) ^ ((digitCount n : ℤ) - 1) ≤ n ∧ (n : ℚ) + 1 ≤ 10 ^ ((digitCount n : ℤ) - 1 + 1) := by
  have hLength := natDigits_length_pos n
  have hLow : ((digitCount n : ℤ) - 1) = ((natDigits n).length - 1 : Nat) := by
    rw [digitCount]
    omega
  rw [sub_add_cancel, hLow, zpow_natCast, zpow_natCast]
  exact ⟨by exact_mod_cast pow_length_le hn, by exact_mod_cast lt_pow_length n⟩

theorem two_pow_le (n : Nat) : 2 ^ (3 * n) ≤ 10 ^ n := by
  rw [Nat.pow_mul]
  exact Nat.pow_le_pow_left (by decide) n

/-- The first digit of a number is found. -/
theorem leading_bounds {m : Nat} {q : ℤ} (hm : m ≠ 0) (hq : -1074 ≤ q) :
    10 ^ leading m q ≤ (m * 2 ^ q : ℚ) ∧ (m * 2 ^ q : ℚ) < 10 ^ (leading m q + 1) := by
  unfold leading
  dsimp only
  rw [Nat.pow_eq, Nat.pow_eq]
  split_ifs with hSign hDen
  · have hValue : (m * 2 ^ q : ℚ) = (m * 2 ^ q.toNat : Nat) := by
      rw [Nat.cast_mul, Nat.cast_pow, Nat.cast_ofNat, ← zpow_natCast, Int.toNat_of_nonneg hSign]
    rw [hValue]
    obtain ⟨hLow, hHigh⟩ := cast_bounds (Nat.mul_ne_zero hm (Nat.two_pow_pos q.toNat).ne')
    exact ⟨hLow, by linarith⟩
  all_goals
    have hPos : 0 < 2 ^ (-q).toNat := Nat.two_pow_pos _
    have hCast : (0 : ℚ) < (2 ^ (-q).toNat : Nat) := Nat.cast_pos.mpr hPos
    have hMax : 2 ^ (-q).toNat ≤ 10 ^ 400 :=
      (Nat.pow_le_pow_right (by decide) (by omega)).trans (two_pow_le 400)
    have hValue : (m * 2 ^ q : ℚ) = m / (2 ^ (-q).toNat : Nat) := by
      rw [Nat.cast_pow, Nat.cast_ofNat, ← zpow_natCast, Int.toNat_of_nonneg (by omega), zpow_neg,
        div_inv_eq_mul]
    rw [hValue, le_div_iff₀ hCast, div_lt_iff₀ hCast]
    generalize 2 ^ (-q).toNat = den at *
  · obtain ⟨hLow, hHigh⟩ := cast_bounds (Nat.div_pos hDen hPos).ne'
    have hBelow : ((m / den : Nat) : ℚ) * den ≤ m := by exact_mod_cast Nat.div_mul_le_self m den
    have hAbove : (m : ℚ) < ((m / den : Nat) + 1) * den := by
      exact_mod_cast Nat.lt_mul_of_div_lt (Nat.lt_succ_self _) hPos
    exact ⟨(mul_le_mul_of_nonneg_right hLow hCast.le).trans hBelow,
      hAbove.trans_le (mul_le_mul_of_nonneg_right hHigh hCast.le)⟩
  · have hFuel : den ≤ m * 10 ^ 400 := hMax.trans (Nat.le_mul_of_pos_left _ (Nat.pos_of_ne_zero hm))
    obtain ⟨hLow, hHigh⟩ := tensBelow_spec hFuel
    generalize tensBelow 400 m den = t at *
    cases t with
    | zero => omega
    | succ t =>
      have hHigh := hHigh (Nat.succ_ne_zero t)
      rw [Nat.add_sub_cancel] at hHigh
      have hTens : (0 : ℚ) < 10 ^ t := by positivity
      rw [show -((t + 1 : Nat) : ℤ) + 1 = -(t : ℤ) by omega, zpow_neg, zpow_neg, zpow_natCast,
        zpow_natCast, inv_mul_le_iff₀ (by positivity), lt_inv_mul_iff₀ hTens, mul_comm (10 ^ _),
        mul_comm (10 ^ _)]
      exact ⟨by exact_mod_cast hLow, by exact_mod_cast hHigh⟩

/-! ## The nearest multiple -/

/-- A multiple of a unit is rounded to the number, and no other one is nearer. Of two that are as
near it is the even one or the larger one. -/
structure Picks (x : Binary64) (unit : ℚ) (tiesToEven : Bool) (c : Nat) : Prop where
  rounds : RoundsTo x.isNegative (c * unit) x
  close : |size x.magnitude - c * unit| < unit
  nearest : ∀ n : Nat, RoundsTo x.isNegative (n * unit) x →
    |size x.magnitude - c * unit| ≤ |size x.magnitude - n * unit|
  tie : ∀ n : Nat, n ≠ c → RoundsTo x.isNegative (n * unit) x →
    |size x.magnitude - c * unit| = |size x.magnitude - n * unit| →
    if tiesToEven then c % 2 = 0 else n < c

variable {x : Binary64} {m : Nat} {q : ℤ}

/-- Of the multiples that are rounded to a number one next to it is the nearest. -/
theorem exists_neighbour (hPos : 0 < x.magnitude) (hFinite : x.magnitude < infinity) {unit : ℚ}
    (hUnit : 0 < unit) {below : Nat} (hLow : below * unit ≤ size x.magnitude)
    (hHigh : size x.magnitude < (below + 1 : Nat) * unit) {n : Nat}
    (hn : RoundsTo x.isNegative (n * unit) x) :
    ∃ c : Nat, (c = below ∨ c = below + 1) ∧ RoundsTo x.isNegative (c * unit) x ∧
      |size x.magnitude - c * unit| ≤ |size x.magnitude - n * unit| ∧
      (|size x.magnitude - c * unit| = |size x.magnitude - n * unit| → c = n) := by
  have hMono {i j : Nat} (h : i ≤ j) : (i * unit : ℚ) ≤ j * unit :=
    mul_le_mul_of_nonneg_right (Nat.cast_le.mpr h) hUnit.le
  have hInj {i j : Nat} (h : (i * unit : ℚ) = j * unit) : i = j :=
    Nat.cast_injective (mul_right_cancel₀ hUnit.ne' h)
  rcases Nat.lt_or_ge below n with hn' | hn'
  · have hle := hMono hn'
    refine ⟨below + 1, Or.inr rfl, hn.between hPos hFinite (Or.inr ⟨hHigh.le, hle⟩), ?_, ?_⟩
    all_goals rw [abs_of_nonpos (by linarith), abs_of_nonpos (by linarith)]
    · linarith
    · exact fun h => hInj (by linarith)
  · have hle := hMono hn'
    refine ⟨below, Or.inl rfl, hn.between hPos hFinite (Or.inl ⟨hle, hLow⟩), ?_, ?_⟩
    all_goals rw [abs_of_nonneg (by linarith), abs_of_nonneg (by linarith)]
    · linarith
    · exact fun h => hInj (by linarith)

/-- A neighbour is picked if the other one is not. -/
theorem Picks.of_neighbour (hPos : 0 < x.magnitude) (hFinite : x.magnitude < infinity) {unit : ℚ}
    (hUnit : 0 < unit) {below : Nat} (hLow : below * unit ≤ size x.magnitude)
    (hHigh : size x.magnitude < (below + 1 : Nat) * unit) {tiesToEven : Bool} {c : Nat}
    (hc : c = below ∨ c = below + 1) (hRounds : RoundsTo x.isNegative (c * unit) x)
    (hOther : ∀ n : Nat, n = below ∨ n = below + 1 → n ≠ c → RoundsTo x.isNegative (n * unit) x →
      |size x.magnitude - c * unit| ≤ |size x.magnitude - n * unit| ∧
      (|size x.magnitude - c * unit| = |size x.magnitude - n * unit| →
        if tiesToEven then c % 2 = 0 else n < c)) :
    Picks x unit tiesToEven c := by
  have hSize := roundsTo_size hPos hFinite
  refine ⟨hRounds, ?_, fun n hn => ?_, fun n hne hn he => ?_⟩
  · push_cast at hHigh
    rcases hc with rfl | rfl
    · rw [abs_of_nonneg (by linarith)]
      linarith
    · have hNe : (below * unit : ℚ) ≠ size x.magnitude := fun he => by
        obtain ⟨hNear, -⟩ := hOther below (Or.inl rfl) (by omega) (he ▸ hSize)
        rw [he, sub_self, abs_zero] at hNear
        have := abs_eq_zero.mp (le_antisymm hNear (abs_nonneg _))
        push_cast at this
        linarith
      push_cast
      rw [abs_of_nonpos (by linarith)]
      have := lt_of_le_of_ne hLow hNe
      linarith
  all_goals
    obtain ⟨o, ho, hoRounds, hNear, hSame⟩ := exists_neighbour hPos hFinite hUnit hLow hHigh hn
    by_cases hoc : o = c
  · exact hoc ▸ hNear
  · exact (hOther o ho hoc hoRounds).1.trans hNear
  · exact (hne (hSame (hoc ▸ he) ▸ hoc)).elim
  · obtain ⟨hNearer, hTie⟩ := hOther o ho hoc hoRounds
    have hno := hSame (le_antisymm hNear (he ▸ hNearer))
    exact hno ▸ hTie (hno.symm ▸ he)

section Neighbours

variable {unit : ℚ} {below : Nat} {tiesToEven : Bool}

/-- The lower neighbour is picked, unless the upper one is nearer or a tie goes to that. -/
theorem Picks.lower (hPos : 0 < x.magnitude) (hFinite : x.magnitude < infinity) (hUnit : 0 < unit)
    (hLow : below * unit ≤ size x.magnitude) (hHigh : size x.magnitude < (below + 1 : Nat) * unit)
    (hRounds : RoundsTo x.isNegative (below * unit) x)
    (hUpper : RoundsTo x.isNegative ((below + 1 : Nat) * unit) x →
      2 * size x.magnitude < (below + (below + 1 : Nat)) * unit ∨
      2 * size x.magnitude = (below + (below + 1 : Nat)) * unit ∧
        (tiesToEven = true ∧ below % 2 = 0)) :
    Picks x unit tiesToEven below := by
  refine .of_neighbour hPos hFinite hUnit hLow hHigh (Or.inl rfl) hRounds fun n hn hne hr => ?_
  obtain rfl := hn.resolve_left hne
  rw [abs_of_nonneg (by linarith), abs_of_nonpos (by linarith)]
  rcases hUpper hr with hLt | ⟨he, hTies, hEven⟩
  · exact ⟨by linarith, fun he => by linarith⟩
  · exact ⟨by linarith, fun _ => by rwa [if_pos hTies]⟩

/-- The upper neighbour is picked, unless the lower one is nearer or a tie goes to that. -/
theorem Picks.upper (hPos : 0 < x.magnitude) (hFinite : x.magnitude < infinity) (hUnit : 0 < unit)
    (hLow : below * unit ≤ size x.magnitude) (hHigh : size x.magnitude < (below + 1 : Nat) * unit)
    (hRounds : RoundsTo x.isNegative ((below + 1 : Nat) * unit) x)
    (hLower : RoundsTo x.isNegative (below * unit) x →
      (below + (below + 1 : Nat)) * unit < 2 * size x.magnitude ∨
      (below + (below + 1 : Nat)) * unit = 2 * size x.magnitude ∧
        ¬ (tiesToEven = true ∧ below % 2 = 0)) :
    Picks x unit tiesToEven (below + 1) := by
  refine .of_neighbour hPos hFinite hUnit hLow hHigh (Or.inr rfl) hRounds fun n hn hne hr => ?_
  obtain rfl := hn.resolve_right hne
  rw [abs_of_nonpos (by linarith), abs_of_nonneg (by linarith)]
  rcases hLower hr with hLt | ⟨he, hOdd⟩
  · exact ⟨by linarith, fun he => by linarith⟩
  · refine ⟨by linarith, fun _ => ?_⟩
    split_ifs with hTies
    · have : n % 2 ≠ 0 := fun h => hOdd ⟨hTies, h⟩
      omega
    · exact Nat.lt_succ_self n

end Neighbours

/-- The number lies between two neighbouring multiples, the lower one of which is a quotient. -/
theorem quotient_bounds (hx : x.Placed m q) (hm : m ≠ 0) (k : ℤ) :
    (((interval m q k).value / (interval m q k).unit : Nat) : ℚ) * 10 ^ k ≤ size x.magnitude ∧
      size x.magnitude <
        ((interval m q k).value / (interval m q k).unit + 1 : Nat) * 10 ^ k := by
  obtain ⟨u, hu, hUnit, hValue, -, -⟩ := interval_eq hx hm k
  generalize interval m q k = i at *
  have hTen : (0 : ℚ) < 10 ^ k := by positivity
  have hUnitPos : 0 < i.unit := Nat.cast_pos.mp (hUnit ▸ mul_pos hTen hu)
  have hMul (n : Nat) : (n * i.unit : ℚ) = n * 10 ^ k * u := by rw [hUnit, mul_assoc]
  constructor
  · rw [← mul_le_mul_iff_left₀ hu, ← hValue, ← hMul]
    exact_mod_cast Nat.div_mul_le_self i.value i.unit
  · rw [← mul_lt_mul_iff_left₀ hu, ← hValue, ← hMul]
    exact_mod_cast Nat.lt_mul_of_div_lt (Nat.lt_succ_self _) hUnitPos

/-- The number is compared with the middle of two multiples over the unit of an interval. -/
theorem twice_middle_iff (hx : x.Placed m q) (hm : m ≠ 0) (k : ℤ) (n : Nat) :
    (2 * (interval m q k).value < (2 * n + 1) * (interval m q k).unit ↔
      2 * size x.magnitude < (n + (n + 1 : Nat)) * 10 ^ k) ∧
    ((2 * n + 1) * (interval m q k).unit < 2 * (interval m q k).value ↔
      (n + (n + 1 : Nat)) * 10 ^ k < 2 * size x.magnitude) := by
  obtain ⟨u, hu, hUnit, hValue, -, -⟩ := interval_eq hx hm k
  generalize interval m q k = i at *
  have hTwice : ((2 * i.value : Nat) : ℚ) = 2 * size x.magnitude * u := by
    rw [Nat.cast_mul, hValue, Nat.cast_ofNat, mul_assoc]
  have hMiddle : (((2 * n + 1) * i.unit : Nat) : ℚ) = (n + (n + 1 : Nat)) * 10 ^ k * u := by
    rw [Nat.cast_mul, hUnit]
    push_cast
    ring
  rw [← Nat.cast_lt (α := ℚ), ← Nat.cast_lt (α := ℚ), hTwice, hMiddle, mul_lt_mul_iff_left₀ hu,
    mul_lt_mul_iff_left₀ hu]
  exact ⟨Iff.rfl, Iff.rfl⟩

/-- The nearest multiple is found, if one is rounded to the number. -/
theorem nearest?_spec (hx : x.Placed m q) (hm : m ≠ 0) (k : ℤ) (tiesToEven : Bool) :
    match (interval m q k).nearest? tiesToEven with
    | none => ∀ n : Nat, ¬ RoundsTo x.isNegative (n * 10 ^ k) x
    | some c => Picks x (10 ^ k) tiesToEven c := by
  have hPos := hx.magnitude_pos hm
  have hFinite := hx.finite
  have hContains (n : Nat) := contains_iff hx hm (k := k) (n := n)
  have hTen : (0 : ℚ) < 10 ^ k := by positivity
  obtain ⟨hLow, hHigh⟩ := quotient_bounds hx hm k
  unfold Interval.nearest?
  dsimp only
  obtain ⟨hTwice, hMiddle⟩ :=
    twice_middle_iff hx hm k ((interval m q k).value / (interval m q k).unit)
  generalize (interval m q k).value / (interval m q k).unit = below at *
  cases hb : (interval m q k).contains below <;> cases ha : (interval m q k).contains (below + 1)
  case false.false =>
    intro n hn
    obtain ⟨c, rfl | rfl, hc, -⟩ := exists_neighbour hPos hFinite hTen hLow hHigh hn
    · rw [(hContains c).mpr hc] at hb
      cases hb
    · rw [(hContains (below + 1)).mpr hc] at ha
      cases ha
  case false.true =>
    refine .upper hPos hFinite hTen hLow hHigh ((hContains _).mp ha) fun hr => ?_
    rw [← hContains, hb] at hr
    cases hr
  case true.false =>
    refine .lower hPos hFinite hTen hLow hHigh ((hContains _).mp hb) fun hr => ?_
    rw [← hContains, ha] at hr
    cases hr
  case true.true =>
    split_ifs with hLt hGt hEven
    · exact .lower hPos hFinite hTen hLow hHigh ((hContains _).mp hb)
        fun _ => Or.inl (hTwice.mp hLt)
    · exact .upper hPos hFinite hTen hLow hHigh ((hContains _).mp ha)
        fun _ => Or.inl (hMiddle.mp hGt)
    all_goals
      have hTie := le_antisymm (not_lt.mp (mt hMiddle.mpr hGt)) (not_lt.mp (mt hTwice.mpr hLt))
      rw [Bool.and_eq_true, beq_iff_eq] at hEven
    · exact .lower hPos hFinite hTen hLow hHigh ((hContains _).mp hb)
        fun _ => Or.inr ⟨hTie, hEven⟩
    · exact .upper hPos hFinite hTen hLow hHigh ((hContains _).mp ha)
        fun _ => Or.inr ⟨hTie.symm, hEven⟩

/-! ## The search -/

/-- With so many digits behind a first one a decimal is rounded to the number, with fewer there is
none. -/
structure Precision (x : Binary64) (first : ℤ) (n : Nat) : Prop where
  pos : 0 < n
  rounds : ∃ c : Nat, RoundsTo x.isNegative (c * 10 ^ (first - n + 1)) x
  fewer : ∀ j : Nat, 0 < j → j < n → ∀ c : Nat,
    ¬ RoundsTo x.isNegative (c * 10 ^ (first - j + 1)) x

theorem search_eq (hx : x.Placed m q) (hm : m ≠ 0) (tiesToEven : Bool) {first : ℤ} {n : Nat}
    (h : Precision x first n) {fuel start : Nat} (hStart : 0 < start) (hn : start ≤ n)
    (hFuel : n < start + fuel) :
    ∃ c, Picks x (10 ^ (first - n + 1)) tiesToEven c ∧
      search m q first tiesToEven fuel start = trim 20 ⟨c, first - n + 1⟩ := by
  induction fuel generalizing start with
  | zero => omega
  | succ fuel ih =>
    have hSpec := nearest?_spec hx hm (first - start + 1) tiesToEven
    rw [search]
    split at hSpec
    · rename_i hNone
      rw [hNone]
      have hne : start ≠ n := by
        rintro rfl
        obtain ⟨c, hc⟩ := h.rounds
        exact hSpec c hc
      exact ih (Nat.succ_pos start) (by omega) (by omega)
    · rename_i c hSome
      rw [hSome]
      have he : start = n := by
        by_contra hne
        exact h.fewer start hStart (by omega) c hSpec.rounds
      subst he
      exact ⟨c, hSpec, rfl⟩

/-- At the precision of a number every way to treat ties finds a decimal. -/
theorem shortest_eq_trim (hx : x.Placed m q) (hm : m ≠ 0) {n : Nat}
    (h : Precision x (leading m q) n) (hn : n ≤ 17) (tiesToEven : Bool) :
    ∃ c, Picks x (10 ^ (leading m q - n + 1)) tiesToEven c ∧
      shortest m q tiesToEven = trim 20 ⟨c, leading m q - n + 1⟩ := by
  rw [shortest, if_neg hm]
  exact search_eq hx hm tiesToEven h Nat.one_pos h.pos (by omega)

/-- Seventeen digits are enough. -/
theorem exists_rounds (hx : x.Placed m q) (hm : m ≠ 0) :
    ∃ c : Nat, RoundsTo x.isNegative (c * 10 ^ (leading m q - 17 + 1)) x := by
  have hPos := hx.magnitude_pos hm
  obtain ⟨hLeading, -⟩ := leading_bounds hm hx.exponent_ge
  have hPlace : (0 : ℚ) < 2 ^ q := by positivity
  have hUnit : (0 : ℚ) < 10 ^ (leading m q - 17 + 1) := by positivity
  have hTens : (10 : ℚ) ^ leading m q = 10 ^ 16 * 10 ^ (leading m q - 17 + 1) := by
    rw [← zpow_natCast, ← zpow_add₀ (by norm_num)]
    congr 1
    push_cast
    ring
  have hMantissa : (m : ℚ) + 1 ≤ 2 ^ 53 := by exact_mod_cast hx.mantissa_lt
  have hFit : 10 ^ 16 * (10 : ℚ) ^ (leading m q - 17 + 1) ≤ m * 2 ^ q := hTens ▸ hLeading
  rw [← hx.size_eq] at hFit
  have hPred := hx.size_pred hPos
  have hSucc := hx.size_succ
  have hSize := hx.size_eq
  simp only [roundsTo_iff_middles hPos hx.finite]
  generalize (10 : ℚ) ^ (leading m q - 17 + 1) = unit at *
  generalize size (x.magnitude - 1) = pred at *
  generalize size (x.magnitude + 1) = succ at *
  generalize size x.magnitude = s at *
  generalize (2 : ℚ) ^ q = place at *
  have hUpper : (m : ℚ) * place ≤ (2 ^ 53 - 1) * place :=
    mul_le_mul_of_nonneg_right (by linarith) hPlace.le
  have hs : 0 ≤ s / unit := div_nonneg (by linarith) hUnit.le
  have hLow : (⌊s / unit⌋₊ : ℚ) * unit ≤ s := (le_div_iff₀ hUnit).mp (Nat.floor_le hs)
  have hHigh : s < (⌊s / unit⌋₊ + 1 : ℚ) * unit := (div_lt_iff₀ hUnit).mp (Nat.lt_floor_add_one _)
  generalize ⌊s / unit⌋₊ = below at *
  by_cases hAbove : 2 * ((below + 1) * unit) < succ + s
  · refine ⟨below + 1, ?_⟩
    have hPredLe : pred ≤ s := by
      rw [hPred, hSize]
      exact mul_le_mul_of_nonneg_right (by split_ifs <;> linarith) hPlace.le
    push_cast
    exact ⟨⟨by linarith, hAbove.le⟩, fun _ => ⟨by linarith, hAbove.ne⟩⟩
  · refine ⟨below, ?_⟩
    have hPredLt : pred + s < 2 * (below * unit) := by
      split_ifs at hPred with hBinade
      · have hm : m = 2 ^ 52 := by
          simp only [atBinade, Bool.and_eq_true, beq_iff_eq] at hBinade
          omega
        rw [hm] at hSize
        push_cast at hSize
        linarith
      · linarith
    exact ⟨⟨hPredLt.le, by linarith⟩, fun _ => ⟨hPredLt.ne, by linarith⟩⟩

theorem exists_precision (hx : x.Placed m q) (hm : m ≠ 0) :
    ∃ n ≤ 17, Precision x (leading m q) n := by
  classical
  have h : ∃ n : Nat, 0 < n ∧ ∃ c : Nat, RoundsTo x.isNegative (c * 10 ^ (leading m q - n + 1)) x :=
    ⟨17, by decide, exists_rounds hx hm⟩
  refine ⟨Nat.find h, Nat.find_le ⟨by decide, exists_rounds hx hm⟩, (Nat.find_spec h).1,
    (Nat.find_spec h).2, fun j hj hLt c hc => Nat.find_min h hLt ⟨hj, c, hc⟩⟩

/-! ## Few digits -/

theorem digits_ne_zero {d : Decimal} (hPos : 0 < x.magnitude)
    (h : RoundsTo x.isNegative d.value x) : d.digits ≠ 0 := by
  intro hd
  refine (h.pos hPos ?_).ne' ?_ <;> simp [value, hd]

/-- A decimal that is rounded to the number is no nearer than some multiple at its precision. -/
theorem exists_multiple (hx : x.Placed m q) (hm : m ≠ 0) {d : Decimal}
    (hd : RoundsTo x.isNegative d.value x) :
    ∃ c : Nat, RoundsTo x.isNegative (c * 10 ^ (leading m q - digitCount d.digits + 1)) x ∧
      |size x.magnitude - c * 10 ^ (leading m q - digitCount d.digits + 1)| ≤
        |size x.magnitude - d.value| := by
  have hPos := hx.magnitude_pos hm
  obtain ⟨hLeading, -⟩ := leading_bounds hm hx.exponent_ge
  obtain ⟨-, hHigh⟩ := value_bounds (digits_ne_zero hPos hd)
  have hDigits := natDigits_length_pos d.digits
  have hExponent : d.exponent = d.leading - digitCount d.digits + 1 := by
    rw [Decimal.leading, digitCount]
    omega
  rw [← hx.size_eq] at hLeading
  generalize leading m q = first at *
  rcases Int.lt_or_le d.leading first with hLt | hLe
  · -- the power of ten of the first digit lies between
    have hTens : ((10 ^ (digitCount d.digits - 1) : Nat) : ℚ) *
        10 ^ (first - digitCount d.digits + 1) = 10 ^ first := by
      rw [Nat.cast_pow, Nat.cast_ofNat, ← zpow_natCast, ← zpow_add₀ (by norm_num), digitCount]
      congr 1
      omega
    have hStep : (10 : ℚ) ^ (d.leading + 1) ≤ 10 ^ first :=
      zpow_le_zpow_right₀ (by norm_num) (by omega)
    refine ⟨10 ^ (digitCount d.digits - 1), ?_, ?_⟩ <;> rw [hTens]
    · exact hd.between hPos hx.finite (Or.inl ⟨by linarith, hLeading⟩)
    · rw [abs_of_nonneg (by linarith), abs_of_nonneg (by linarith)]
      linarith
  · refine ⟨d.digits * 10 ^ (d.leading - first).toNat, ?_, le_of_eq ?_⟩
    all_goals
      have hValue : ((d.digits * 10 ^ (d.leading - first).toNat : Nat) : ℚ) *
          10 ^ (first - digitCount d.digits + 1) = d.value := by
        rw [Nat.cast_mul, Nat.cast_pow, Nat.cast_ofNat, ← zpow_natCast, mul_assoc,
          ← zpow_add₀ (by norm_num), value, hExponent]
        congr 2
        omega
      rw [hValue]
    exact hd

/-- No decimal with fewer digits is rounded to the number. -/
theorem Precision.le_digitCount (hx : x.Placed m q) (hm : m ≠ 0) {n : Nat}
    (h : Precision x (leading m q) n) {d : Decimal} (hd : RoundsTo x.isNegative d.value x) :
    n ≤ digitCount d.digits := by
  by_contra hLt
  obtain ⟨c, hc, -⟩ := exists_multiple hx hm hd
  exact h.fewer _ (natDigits_length_pos _) (Nat.lt_of_not_le hLt) c hc

theorem digits_trim_lt {d : Decimal} {n fuel : Nat} (hn : 0 < n) (hd : d.digits ≤ 10 ^ n) :
    (trim (fuel + 1) d).digits < 10 ^ n := by
  rcases Nat.lt_or_eq_of_le hd with hLt | he
  · exact (digits_trim_le _ _).trans_lt hLt
  · obtain ⟨n, rfl⟩ := Nat.exists_eq_add_one_of_ne_zero hn.ne'
    have hTen : 10 ^ (n + 1) = 10 ^ n * 10 := Nat.pow_succ 10 n
    have hPos : 0 < 10 ^ n := Nat.pow_pos (by decide)
    rw [trim, if_pos ⟨by omega, by omega⟩]
    exact (digits_trim_le _ _).trans_lt (by dsimp only; omega)

/-- What is picked has not more digits than the precision has, but for the next power of ten. -/
theorem Picks.le_pow (hx : x.Placed m q) (hm : m ≠ 0) {n c : Nat} {tiesToEven : Bool}
    (h : Picks x (10 ^ (leading m q - n + 1)) tiesToEven c) : c ≤ 10 ^ n := by
  obtain ⟨-, hHigh⟩ := leading_bounds hm hx.exponent_ge
  rw [← hx.size_eq, show leading m q + 1 = n + (leading m q - n + 1) by ring,
    zpow_add₀ (by norm_num), zpow_natCast] at hHigh
  have hUnit : (0 : ℚ) < 10 ^ (leading m q - n + 1) := by positivity
  obtain ⟨hClose, -⟩ := abs_lt.mp h.close
  generalize (10 : ℚ) ^ (leading m q - n + 1) = unit at *
  have hLt : (c : ℚ) * unit < (10 ^ n + 1) * unit := by linarith
  have := lt_of_mul_lt_mul_right hLt hUnit.le
  exact Nat.lt_succ_iff.mp (by exact_mod_cast this)

end Shortest

namespace Binary64

open Shortest

/-! ## Shortest decimals -/

/-- A decimal is rounded to the number, none that is has fewer digits, and none with as few is
nearer. -/
structure IsShortest (x : Binary64) (d : Decimal) : Prop where
  rounds : RoundsTo x.isNegative d.value x
  fewest : ∀ e : Decimal, RoundsTo x.isNegative e.value x →
    digitCount d.digits ≤ digitCount e.digits
  nearest : ∀ e : Decimal, RoundsTo x.isNegative e.value x →
    digitCount e.digits = digitCount d.digits →
    |size x.magnitude - d.value| ≤ |size x.magnitude - e.value|

/-- A number lies in the middle between two shortest decimals, the lower one of which is even. -/
structure Midway (x : Binary64) (d : Decimal) : Prop where
  lower : x.IsShortest d
  upper : x.IsShortest d.next
  middle : 2 * size x.magnitude = d.value + d.next.value
  even : d.digits % 2 = 0

end Binary64

namespace Shortest

open Decimal Binary64

variable {x : Binary64} {m : Nat} {q : ℤ}

theorem Precision.isShortest (hx : x.Placed m q) (hm : m ≠ 0) {n c : Nat} {tiesToEven : Bool}
    (h : Precision x (leading m q) n) (hc : Picks x (10 ^ (leading m q - n + 1)) tiesToEven c)
    {d : Decimal} (hRounds : RoundsTo x.isNegative d.value x) (hDigits : d.digits < 10 ^ n)
    (hNear : |size x.magnitude - d.value| = |size x.magnitude - c * 10 ^ (leading m q - n + 1)|) :
    x.IsShortest d := by
  have hCount : digitCount d.digits = n :=
    le_antisymm ((natDigits_length_le h.pos).mpr hDigits) (h.le_digitCount hx hm hRounds)
  refine ⟨hRounds, fun e he => hCount ▸ h.le_digitCount hx hm he, fun e he heCount => ?_⟩
  obtain ⟨k, hk, hkNear⟩ := exists_multiple hx hm he
  rw [heCount, hCount] at hk hkNear
  exact hNear.le.trans ((hc.nearest k hk).trans hkNear)

theorem size_eq_zero (hx : x.Placed 0 q) : x.magnitude = 0 := by
  refine size_strictMono.injective ?_
  rw [hx.size_eq, size_zero, Nat.cast_zero, zero_mul]

theorem isShortest_zero (hx : x.Placed 0 q) : x.IsShortest ⟨0, 0⟩ := by
  have hZero := size_eq_zero hx
  have hValue : value ⟨0, 0⟩ = 0 := by simp [value]
  refine ⟨hValue ▸ ⟨rfl, hZero ▸ Nat.zero_le _, fun n _ => ?_, fun n _ _ _ => by rw [hZero]⟩,
    fun e _ => natDigits_length_pos e.digits, fun e _ _ => ?_⟩
  all_goals simp [hZero, size_zero, hValue]

/-- The search finds a shortest decimal. -/
theorem shortest_isShortest (hx : x.Placed m q) (tiesToEven : Bool) :
    x.IsShortest (shortest m q tiesToEven) := by
  by_cases hm : m = 0
  · subst hm
    exact isShortest_zero hx
  · obtain ⟨n, hn, h⟩ := exists_precision hx hm
    obtain ⟨c, hc, he⟩ := shortest_eq_trim hx hm h hn tiesToEven
    have hValue : (shortest m q tiesToEven).value = c * 10 ^ (leading m q - n + 1) :=
      he ▸ value_trim 20 _
    refine h.isShortest hx hm hc (hValue ▸ hc.rounds) ?_ (hValue ▸ rfl)
    exact he ▸ digits_trim_lt h.pos (hc.le_pow hx hm)

/-! ## Ties -/

/-- Two multiples that are picked are the same, or neighbours with the number in the middle. -/
theorem Picks.even_or_next {unit : ℚ} (hUnit : 0 < unit) {c c' : Nat} (h : Picks x unit true c)
    (h' : Picks x unit false c') :
    c = c' ∨ c' = c + 1 ∧ c % 2 = 0 ∧ 2 * size x.magnitude = c * unit + c' * unit := by
  by_cases hne : c = c'
  · exact Or.inl hne
  have he := le_antisymm (h.nearest c' h'.rounds) (h'.nearest c h.rounds)
  have hEven := h.tie c' (Ne.symm hne) h'.rounds he
  have hLt := h'.tie c hne h.rounds he.symm
  rw [if_pos rfl] at hEven
  rw [if_neg Bool.false_ne_true] at hLt
  have hMiddle := two_mul_eq_of_near
    (fun hSame => hne (Nat.cast_injective (mul_right_cancel₀ hUnit.ne' hSame)).symm) he
  refine Or.inr ⟨?_, hEven, by linarith⟩
  have hClose := (abs_lt.mp h.close).2
  have hLt' : (c' : ℚ) * unit < (c + 2 : Nat) * unit := by
    push_cast
    linarith
  have := Nat.cast_lt.mp (lt_of_mul_lt_mul_right hLt' hUnit.le)
  omega

/-- Ties matter only if the number lies in the middle between two shortest decimals. -/
theorem shortest_eq_or_midway (hx : x.Placed m q) :
    (shortest m q true).value = (shortest m q false).value ∨ ∃ d, x.Midway d := by
  by_cases hm : m = 0
  · subst hm
    exact Or.inl rfl
  obtain ⟨n, hn, h⟩ := exists_precision hx hm
  obtain ⟨c, hc, he⟩ := shortest_eq_trim hx hm h hn true
  obtain ⟨c', hc', he'⟩ := shortest_eq_trim hx hm h hn false
  rcases hc.even_or_next (by positivity) hc' with rfl | ⟨rfl, hEven, hMiddle⟩
  · exact Or.inl (by rw [he, he'])
  have hMax := hc'.le_pow hx hm
  have hPow : 10 ^ n % 2 = 0 := by
    rw [← Nat.sub_add_cancel h.pos, Nat.pow_succ]
    omega
  exact Or.inr ⟨⟨c, leading m q - n + 1⟩,
    h.isShortest hx hm hc hc.rounds (by dsimp only; omega) rfl,
    h.isShortest hx hm hc' hc'.rounds (by dsimp only [next]; omega) rfl, hMiddle, hEven⟩

/-- Between two multiples that are as near the way to treat ties decides. -/
theorem Picks.eq_of_middle {unit : ℚ} (hUnit : 0 < unit) {b c : Nat} {tiesToEven : Bool}
    (h : Picks x unit tiesToEven c) (hb : RoundsTo x.isNegative (b * unit) x)
    (hNext : RoundsTo x.isNegative ((b + 1 : Nat) * unit) x)
    (hMiddle : 2 * size x.magnitude = b * unit + (b + 1 : Nat) * unit) (hEven : b % 2 = 0) :
    c = if tiesToEven then b else b + 1 := by
  have hHalf : |size x.magnitude - b * unit| = unit / 2 := by
    push_cast at hMiddle
    rw [abs_of_nonneg (by linarith)]
    linarith
  have hHalf' : |size x.magnitude - (b + 1 : Nat) * unit| = unit / 2 := by
    push_cast at hMiddle ⊢
    rw [abs_of_nonpos (by linarith)]
    linarith
  obtain ⟨hLow, hHigh⟩ := abs_le.mp (hHalf ▸ h.nearest b hb)
  have hLow' : (b : ℚ) * unit ≤ c * unit := by
    push_cast at hMiddle
    linarith
  have hHigh' : (c : ℚ) * unit ≤ (b + 1 : Nat) * unit := by
    push_cast at hMiddle ⊢
    linarith
  have hLow' := Nat.cast_le.mp (le_of_mul_le_mul_right hLow' hUnit)
  have hHigh' := Nat.cast_le.mp (le_of_mul_le_mul_right hHigh' hUnit)
  rcases (by omega : c = b ∨ c = b + 1) with rfl | rfl
  · have hTie := h.tie (c + 1) (by omega) hNext (hHalf.trans hHalf'.symm)
    split_ifs at hTie ⊢ with hTies
    · rfl
    · omega
  · have hTie := h.tie b (by omega) hb (hHalf'.trans hHalf.symm)
    split_ifs at hTie ⊢ with hTies
    · omega
    · rfl

/-- The decimals around a number in the middle have its precision. -/
theorem Precision.exponent_eq (hx : x.Placed m q) (hm : m ≠ 0) {n : Nat}
    (h : Precision x (leading m q) n) (hn : n ≤ 17) {d : Decimal} (hd : x.Midway d) :
    d.exponent = leading m q - n + 1 := by
  have hPos := hx.magnitude_pos hm
  obtain ⟨hFirst, hFirst'⟩ := leading_bounds hm hx.exponent_ge
  obtain ⟨c, hc, he⟩ := shortest_eq_trim hx hm h hn true
  have hFound : digitCount (shortest m q true).digits ≤ n :=
    (natDigits_length_le h.pos).mpr (he ▸ digits_trim_lt h.pos (hc.le_pow hx hm))
  have hRounds := (shortest_isShortest hx true).rounds
  have hCount {e : Decimal} (hes : x.IsShortest e) : digitCount e.digits = n :=
    le_antisymm ((hes.fewest _ hRounds).trans hFound) (h.le_digitCount hx hm hes.rounds)
  obtain ⟨hLow, -⟩ := value_bounds (digits_ne_zero hPos hd.lower.rounds)
  obtain ⟨-, hHigh⟩ := value_bounds (digits_ne_zero hPos hd.upper.rounds)
  have hLeading : d.leading = d.exponent + n - 1 := by
    rw [Decimal.leading, ← hCount hd.lower, digitCount]
  have hLeading' : d.next.leading = d.exponent + n - 1 := by
    rw [Decimal.leading, ← hCount hd.upper, digitCount, next]
  have hMiddle := hd.middle
  have hUnit : (0 : ℚ) < 10 ^ d.exponent := by positivity
  rw [value_next] at hMiddle hHigh
  rw [← hx.size_eq] at hFirst hFirst'
  have hLt := (zpow_lt_zpow_iff_right₀ (by norm_num : (1 : ℚ) < 10)).mp
    (by linarith : (10 : ℚ) ^ d.leading < 10 ^ (leading m q + 1))
  have hLt' := (zpow_lt_zpow_iff_right₀ (by norm_num : (1 : ℚ) < 10)).mp
    (by linarith : (10 : ℚ) ^ leading m q < 10 ^ (d.next.leading + 1))
  omega

/-- In the middle between two shortest decimals ties to even take the lower one, ties upwards the
upper one. -/
theorem shortest_of_midway (hx : x.Placed m q) {d : Decimal} (hd : x.Midway d) :
    (shortest m q true).value = d.value ∧ (shortest m q false).value = d.next.value := by
  have hMiddle := hd.middle
  by_cases hm : m = 0
  · subst hm
    have hUnit : (0 : ℚ) < 10 ^ d.exponent := by positivity
    have hValue : 0 ≤ d.value := mul_nonneg (Nat.cast_nonneg _) hUnit.le
    rw [value_next, size_eq_zero hx, size_zero] at hMiddle
    linarith
  obtain ⟨n, hn, h⟩ := exists_precision hx hm
  have hFound (tiesToEven : Bool) : (shortest m q tiesToEven).value =
      ((if tiesToEven then d.digits else d.digits + 1 : Nat) : ℚ) * 10 ^ d.exponent := by
    obtain ⟨c, hc, he⟩ := shortest_eq_trim hx hm h hn tiesToEven
    rw [he, value_trim]
    rw [← h.exponent_eq hx hm hn hd] at hc ⊢
    rw [← hc.eq_of_middle (by positivity) hd.lower.rounds hd.upper.rounds hMiddle hd.even, value]
  exact ⟨hFound true, hFound false⟩

end Shortest

end FuncSpans
