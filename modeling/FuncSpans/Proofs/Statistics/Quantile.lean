import FuncSpans.Statistics.Sample
import Mathlib.Algebra.BigOperators.Group.List.Basic
import Mathlib.Algebra.Order.BigOperators.Group.List
import Mathlib.Algebra.Order.Floor.Semiring
import Mathlib.Data.Rat.Floor
import Mathlib.Tactic.Linarith
import Mathlib.Tactic.NormNum
import Mathlib.Tactic.Ring

/-!
# Quantiles of exact numbers

The statistics are the same definitions for rationals as for machine numbers, but exact. Between
neighbouring ranks a quantile runs along a straight line, so over all ranks along a chain of them
(`polyline`), which goes on straight at both ends; `Sample.quantile_eq_polyline` finds the line that
the clamped floor of a rank picks. Where the values do not fall the chain does not fall either
(`polyline_mono`), and at a whole rank it passes through the value of that rank
(`polyline_natCast`). What `quantiles_interpolate` says of quantiles follows from these two.
-/

namespace FuncSpans

open Quantity (ofNat rank)

/-- Rationals, with exact operations. The floor of a negative number counts as 0. -/
instance : Quantity ℚ where
  le a b := a ≤ b
  le_trans a b c hab hbc := by
    simp only [decide_eq_true_eq] at hab hbc ⊢
    exact hab.trans hbc
  le_total a b := by
    simp only [Bool.or_eq_true, decide_eq_true_eq]
    exact le_total a b
  ofNat n := n
  zero := 0
  rank x cap := min cap ⌊x⌋₊

/-! ## Chains of lines -/

/-- The value at a position along the values: on a straight line between two neighbours, and on the
first or the last of these lines outside. -/
def polyline : List ℚ → ℚ → ℚ
  | [], _ => 0
  | [x], _ => x
  | [x, y], t => x + t * (y - x)
  | x :: y :: z :: rest, t => if t < 1 then x + t * (y - x) else polyline (y :: z :: rest) (t - 1)

section

variable {xs ys : List ℚ} {x y z s t : ℚ}

theorem polyline_of_lt (rest : List ℚ) (h : t < 1) :
    polyline (x :: y :: rest) t = x + t * (y - x) := by
  cases rest with
  | nil => rfl
  | cons z rest => exact if_pos h

theorem polyline_of_le (rest : List ℚ) (h : 1 ≤ t) :
    polyline (x :: y :: z :: rest) t = polyline (y :: z :: rest) (t - 1) :=
  if_neg (not_lt.mpr h)

/-- The chain begins with the first value. -/
theorem polyline_zero (x : ℚ) (xs : List ℚ) : polyline (x :: xs) 0 = x := by
  cases xs with
  | nil => rfl
  | cons y rest => rw [polyline_of_lt rest one_pos, zero_mul, add_zero]

/-- A line is not left falling where it begins no higher than it ends. -/
theorem line_mono (h : x ≤ y) (hst : s ≤ t) : x + s * (y - x) ≤ x + t * (y - x) :=
  add_le_add_right (mul_le_mul_of_nonneg_right hst (sub_nonneg.mpr h)) x

/-- Where the values do not fall, the chain does not fall. -/
theorem polyline_mono (hxs : xs.Pairwise (· ≤ ·)) : Monotone (polyline xs) := by
  induction xs with
  | nil => exact fun _ _ _ => le_rfl
  | cons x xs ih =>
    obtain ⟨hFirst, hxs⟩ := List.pairwise_cons.mp hxs
    intro s t hst
    match xs with
    | [] => exact le_rfl
    | [y] => exact line_mono (hFirst y List.mem_cons_self) hst
    | y :: z :: rest =>
      have hxy : x ≤ y := hFirst y List.mem_cons_self
      rcases lt_or_ge t 1 with ht | ht
      · rw [polyline_of_lt _ ht, polyline_of_lt _ (hst.trans_lt ht)]
        exact line_mono hxy hst
      rw [polyline_of_le _ ht]
      rcases lt_or_ge s 1 with hs | hs
      · -- the seam: the first line ends at `y`, where the rest of the chain begins
        calc polyline (x :: y :: z :: rest) s = x + s * (y - x) := polyline_of_lt _ hs
          _ ≤ x + 1 * (y - x) := line_mono hxy hs.le
          _ = polyline (y :: z :: rest) 0 := by rw [polyline_zero, one_mul, add_sub_cancel]
          _ ≤ polyline (y :: z :: rest) (t - 1) := ih hxs (sub_nonneg.mpr ht)
      · rw [polyline_of_le _ hs]
        exact ih hxs (sub_le_sub_right hst 1)

/-- At a whole position the chain passes through the value there. -/
theorem polyline_natCast {k : Nat} (h : k < xs.length) : polyline xs k = xs[k] := by
  induction xs generalizing k with
  | nil => cases h
  | cons x xs ih =>
    cases k with
    | zero => exact (congrArg _ Nat.cast_zero).trans (polyline_zero x xs)
    | succ k =>
      have hk : k < xs.length := Nat.lt_of_succ_lt_succ h
      match xs with
      | [y] =>
        obtain rfl : k = 0 := Nat.lt_one_iff.mp hk
        rw [List.getElem_cons_succ, List.getElem_cons_zero, polyline, Nat.cast_one, one_mul,
          add_sub_cancel]
      | y :: z :: rest =>
        have hOne : (1 : ℚ) ≤ (k + 1 : Nat) := by exact_mod_cast Nat.le_add_left 1 k
        rw [polyline_of_le _ hOne, Nat.cast_succ, add_sub_cancel_right, ih hk,
          List.getElem_cons_succ]

/-- Between the ends a chain of values that are at least as large lies at least as high. -/
theorem polyline_le_polyline (h : List.Forall₂ (· ≤ ·) xs ys) (h0 : 0 ≤ t)
    (hLast : t ≤ xs.length - 1) : polyline xs t ≤ polyline ys t := by
  have hLine {x x' y y' : ℚ} (hx : x ≤ x') (hy : y ≤ y') {t : ℚ} (h0 : 0 ≤ t) (h1 : t ≤ 1) :
      x + t * (y - x) ≤ x' + t * (y' - x') := by
    have hFirst : (1 - t) * x ≤ (1 - t) * x' := mul_le_mul_of_nonneg_left hx (sub_nonneg.mpr h1)
    have hSecond : t * y ≤ t * y' := mul_le_mul_of_nonneg_left hy h0
    linarith
  induction h generalizing t with
  | nil => exact le_rfl
  | @cons x x' xs ys hx hRest ih =>
    cases hRest with
    | nil => exact hx
    | @cons y y' xs ys hy hRest =>
      cases hRest with
      | nil =>
        refine hLine hx hy h0 (hLast.trans_eq ?_)
        simp only [List.length_cons, List.length_nil, Nat.cast_succ, Nat.cast_zero]
        ring
      | @cons z z' xs ys hz hRest =>
        rcases lt_or_ge t 1 with ht | ht
        · rw [polyline_of_lt _ ht, polyline_of_lt _ ht]
          exact hLine hx hy h0 ht.le
        · rw [polyline_of_le _ ht, polyline_of_le _ ht]
          refine ih (sub_nonneg.mpr ht) ?_
          simp only [List.length_cons, Nat.cast_succ] at hLast ⊢
          linarith

end

namespace Sample

/-! ## Quantiles -/

theorem between_eq (x y part : ℚ) : between x y part = x + part * (y - x) := by
  change x * (((1 : ℕ) : ℚ) - part) + y * part = x + part * (y - x)
  rw [Nat.cast_one]
  ring

/-- The neighbours at the clamped floor of a position are the ends of the line there. -/
theorem drop_rank (x y : ℚ) (rest : List ℚ) (t : ℚ) :
    ∃ a b more, (x :: y :: rest).drop (rank t rest.length) = a :: b :: more ∧
      between a b (t - ofNat (rank t rest.length)) = polyline (x :: y :: rest) t := by
  change ∃ a b more, (x :: y :: rest).drop (min rest.length ⌊t⌋₊) = a :: b :: more ∧
    between a b (t - ((min rest.length ⌊t⌋₊ : ℕ) : ℚ)) = polyline (x :: y :: rest) t
  induction rest generalizing x y t with
  | nil =>
    refine ⟨x, y, [], by rw [List.length_nil, Nat.zero_min, List.drop_zero], ?_⟩
    rw [List.length_nil, Nat.zero_min, Nat.cast_zero, sub_zero, between_eq, polyline]
  | cons z rest ih =>
    rcases lt_or_ge t 1 with ht | ht
    · have hFloor : ⌊t⌋₊ = 0 := Nat.floor_eq_zero.mpr ht
      refine ⟨x, y, z :: rest, by rw [hFloor, Nat.min_zero, List.drop_zero], ?_⟩
      rw [hFloor, Nat.min_zero, Nat.cast_zero, sub_zero, between_eq, polyline_of_lt _ ht]
    · -- one step along the chain takes one off the position and its floor
      have hMin : min (z :: rest).length ⌊t⌋₊ = min rest.length ⌊t - 1⌋₊ + 1 := by
        have hPos : 0 < ⌊t⌋₊ := Nat.floor_pos.mpr ht
        rw [Nat.floor_sub_one, List.length_cons]
        omega
      obtain ⟨a, b, more, hDrop, hBetween⟩ := ih y z (t - 1)
      refine ⟨a, b, more, by rw [hMin, List.drop_succ_cons, hDrop], ?_⟩
      rw [polyline_of_le _ ht, ← hBetween, hMin, Nat.cast_succ, sub_sub, add_comm (1 : ℚ)]

/-- A quantile is the value of the chain at its position. -/
theorem quantile_eq_polyline {s : Sample ℚ} (hs : s.values ≠ []) (p : ℚ) :
    s.quantile p = some (polyline s.values (p * (s.values.length - 1))) := by
  unfold quantile
  split
  · rename_i h
    exact (hs h).elim
  · rename_i x h
    rw [h]
    rfl
  · rename_i x y rest h
    obtain ⟨a, b, more, hDrop, hBetween⟩ := drop_rank x y rest (p * ofNat (rest.length + 1))
    have hLength : ((x :: y :: rest).length : ℚ) - 1 = ofNat (rest.length + 1) := by
      rw [List.length_cons, Nat.cast_succ, add_sub_cancel_right]
      rfl
    dsimp only
    rw [hDrop, h, hLength]
    exact congrArg some hBetween

/-! ## The mean -/

theorem mean_eq {s : Sample ℚ} (hs : s.values ≠ []) :
    s.mean = some (s.values.sum / s.values.length) := by
  have hEmpty : s.isEmpty = false := by simpa [isEmpty] using hs
  have hSum : s.sum = s.values.sum := by
    rw [List.sum_eq_foldl]
    rfl
  rw [mean, hEmpty, hSum]
  rfl

end Sample

/-! ## Main statement -/

/-- The quantiles and the mean of values in order, worked out without rounding. -/
structure Interpolated (xs : List ℚ) (quantile : ℚ → ℚ) (mean : ℚ) : Prop where
  /-- At a higher `p` no quantile is smaller, not even outside of the range from 0 to 1. -/
  mono : Monotone quantile
  /-- At the ranks the quantiles are the values in their order. -/
  at_rank : 2 ≤ xs.length → ∀ k (h : k < xs.length), quantile (k / (xs.length - 1)) = xs[k]
  least : IsLeast {x | x ∈ xs} (quantile 0)
  greatest : IsGreatest {x | x ∈ xs} (quantile 1)
  /-- Between ranks they stay between the values of the ranks on both sides. -/
  between : ∀ p : ℚ, 0 ≤ p → p ≤ 1 → ∃ low high, xs[⌊p * (xs.length - 1)⌋₊]? = some low ∧
    xs[⌈p * (xs.length - 1)⌉₊]? = some high ∧ low ≤ quantile p ∧ quantile p ≤ high
  mean_between : quantile 0 ≤ mean ∧ mean ≤ quantile 1

section

variable {xs : List ℚ}

/-- The last rank, as a number. -/
theorem length_sub_one (h : xs ≠ []) : ((xs.length : ℚ) - 1) = (xs.length - 1 : Nat) := by
  rw [Nat.cast_sub (List.length_pos_of_ne_nil h), Nat.cast_one]

theorem polyline_last (h : xs ≠ []) : polyline xs (xs.length - 1) = xs.getLast h := by
  have hLast : xs.length - 1 < xs.length := Nat.sub_one_lt_of_lt (List.length_pos_of_ne_nil h)
  rw [length_sub_one h, polyline_natCast hLast, List.getLast_eq_getElem]

theorem isLeast_polyline (hxs : xs.Pairwise (· ≤ ·)) (h : xs ≠ []) :
    IsLeast {x | x ∈ xs} (polyline xs 0) := by
  obtain ⟨x, rest, rfl⟩ := List.exists_cons_of_ne_nil h
  rw [polyline_zero]
  refine ⟨List.mem_cons_self, fun y hy => ?_⟩
  rcases List.mem_cons.mp hy with rfl | hy
  · exact le_rfl
  · exact (List.pairwise_cons.mp hxs).1 y hy

theorem isGreatest_polyline (hxs : xs.Pairwise (· ≤ ·)) (h : xs ≠ []) :
    IsGreatest {x | x ∈ xs} (polyline xs (xs.length - 1)) := by
  rw [polyline_last h]
  refine ⟨List.getLast_mem h, fun y hy => ?_⟩
  obtain ⟨front, last, rfl⟩ := xs.eq_nil_or_concat'.resolve_left h
  rw [List.getLast_append_singleton]
  rcases List.mem_append.mp hy with hy | hy
  · exact (List.pairwise_append.mp hxs).2.2 y hy last List.mem_cons_self
  · exact (List.mem_singleton.mp hy).le

/-- The chain is between the values at the whole positions around. -/
theorem polyline_between (hxs : xs.Pairwise (· ≤ ·)) (h : xs ≠ []) {t : ℚ} (h0 : 0 ≤ t)
    (hLast : t ≤ xs.length - 1) : ∃ low high, xs[⌊t⌋₊]? = some low ∧ xs[⌈t⌉₊]? = some high ∧
      low ≤ polyline xs t ∧ polyline xs t ≤ high := by
  have hPos := List.length_pos_of_ne_nil h
  have hHigh : ⌈t⌉₊ < xs.length := by
    have : ⌈t⌉₊ ≤ xs.length - 1 := Nat.ceil_le.mpr (hLast.trans_eq (length_sub_one h))
    omega
  have hLow : ⌊t⌋₊ < xs.length := (Nat.floor_le_ceil t).trans_lt hHigh
  refine ⟨_, _, List.getElem?_eq_getElem hLow, List.getElem?_eq_getElem hHigh, ?_, ?_⟩
  · rw [← polyline_natCast hLow]
    exact polyline_mono hxs (Nat.floor_le h0)
  · rw [← polyline_natCast hHigh]
    exact polyline_mono hxs (Nat.le_ceil t)

/-- A mean lies between the bounds of its values. -/
theorem mean_mem_bounds {low high : ℚ} (h : xs ≠ []) (hLow : ∀ x ∈ xs, low ≤ x)
    (hHigh : ∀ x ∈ xs, x ≤ high) :
    low ≤ xs.sum / xs.length ∧ xs.sum / xs.length ≤ high := by
  have hPos : (0 : ℚ) < xs.length := Nat.cast_pos.mpr (List.length_pos_of_ne_nil h)
  have hBelow := xs.card_nsmul_le_sum low hLow
  have hAbove := xs.sum_le_card_nsmul high hHigh
  rw [nsmul_eq_mul, mul_comm] at hBelow hAbove
  exact ⟨(le_div_iff₀ hPos).mpr hBelow, (div_le_iff₀ hPos).mpr hAbove⟩

end

/-- Worked out without rounding, the statistics of a sample that is not empty are defined, and the
quantiles are those of type R-7: they grow with `p`, are the values themselves at the ranks and lie
between neighbouring values elsewhere. The mean lies between the least and the greatest value, and
neither it nor a quantile is smaller for a sample whose values, in order, are all at least as
large. -/
theorem quantiles_interpolate {s : Sample ℚ} (hs : s.values ≠ []) :
    ∃ (quantile : ℚ → ℚ) (mean : ℚ), (∀ p, s.quantile p = some (quantile p)) ∧
      s.mean = some mean ∧ Interpolated s.values quantile mean ∧
      (Summary.ofSample s = ⟨some mean, some (quantile (1 / 2)), some (quantile (95 / 100)),
          some (quantile (99 / 100))⟩ ∧
        quantile (1 / 2) ≤ quantile (95 / 100) ∧ quantile (95 / 100) ≤ quantile (99 / 100)) ∧
      ∀ t : Sample ℚ, List.Forall₂ (· ≤ ·) s.values t.values →
        (∀ p : ℚ, 0 ≤ p → p ≤ 1 → ∃ v, t.quantile p = some v ∧ quantile p ≤ v) ∧
        ∃ v, t.mean = some v ∧ mean ≤ v := by
  have hSorted : s.values.Pairwise (· ≤ ·) := s.sorted.imp of_decide_eq_true
  have hPos : (0 : ℚ) ≤ s.values.length - 1 := by
    rw [length_sub_one hs]
    exact Nat.cast_nonneg _
  have hMono : Monotone fun p => polyline s.values (p * (s.values.length - 1)) :=
    fun p p' h => polyline_mono hSorted (mul_le_mul_of_nonneg_right h hPos)
  have hZero : (0 : ℚ) * (s.values.length - 1) = 0 := zero_mul _
  have hOne : (1 : ℚ) * (s.values.length - 1) = s.values.length - 1 := one_mul _
  have hLeast := isLeast_polyline hSorted hs
  have hGreatest := isGreatest_polyline hSorted hs
  have hInside {p : ℚ} (h1 : p ≤ 1) : p * (s.values.length - 1) ≤ s.values.length - 1 :=
    mul_le_of_le_one_left hPos h1
  refine ⟨_, _, Sample.quantile_eq_polyline hs, Sample.mean_eq hs,
    ⟨hMono, fun hTwo k hk => ?_, ?_, ?_, fun p h0 h1 => ?_, ?_⟩, ⟨?_, hMono ?_, hMono ?_⟩,
    fun t ht => ?_⟩
  · have hRanks : ((s.values.length : ℚ) - 1) ≠ 0 := by
      rw [length_sub_one hs, Nat.cast_ne_zero]
      omega
    rw [div_mul_cancel₀ _ hRanks]
    exact polyline_natCast hk
  · rw [hZero]
    exact hLeast
  · rw [hOne]
    exact hGreatest
  · exact polyline_between hSorted hs (mul_nonneg h0 hPos) (hInside h1)
  · rw [hZero, hOne]
    exact mean_mem_bounds hs (fun x hx => hLeast.2 hx) fun x hx => hGreatest.2 hx
  · have hPercentile (n : Nat) : s.percentile n =
        some (polyline s.values ((n / 100 : ℚ) * (s.values.length - 1))) :=
      Sample.quantile_eq_polyline hs _
    rw [Summary.ofSample, Sample.median, hPercentile, hPercentile, hPercentile, Sample.mean_eq hs]
    norm_num
  · norm_num
  · norm_num
  · have hts : t.values ≠ [] := fun h => hs (List.forall₂_nil_right_iff.mp (h ▸ ht))
    refine ⟨fun p h0 h1 => ⟨_, Sample.quantile_eq_polyline hts p, ?_⟩, _, Sample.mean_eq hts, ?_⟩
    · rw [← ht.length_eq]
      exact polyline_le_polyline ht (mul_nonneg h0 hPos) (hInside h1)
    · rw [← ht.length_eq]
      exact div_le_div_of_nonneg_right ht.sum_le_sum (Nat.cast_nonneg _)

/-- A sample of four. -/
def fourValues : Sample ℚ := ⟨[1, 2, 3, 4], by decide⟩

/-- Of four values the quantile at two thirds is the third; the one at 95 hundredths lies between it
and the last. -/
theorem quantiles_of_four : fourValues.values ≠ [] ∧ fourValues.quantile (2 / 3) = some 3 ∧
    ∃ v, fourValues.percentile 95 = some v ∧ 3 ≤ v ∧ v ≤ 4 := by
  have hs : fourValues.values ≠ [] := by decide
  obtain ⟨quantile, mean, hQuantile, -, h, -⟩ := quantiles_interpolate hs
  have hThird : quantile (2 / 3) = 3 := by
    have hRank := h.at_rank (by decide) 2 (by decide)
    norm_num [fourValues] at hRank
    exact hRank
  have hLast : quantile 1 = 4 := by
    have hRank := h.at_rank (by decide) 3 (by decide)
    norm_num [fourValues] at hRank
    exact hRank
  refine ⟨hs, (hQuantile _).trans (congrArg some hThird), _, hQuantile (95 / 100), ?_, ?_⟩
  · exact hThird.symm.trans_le (h.mono (by norm_num))
  · exact (h.mono (by norm_num)).trans_eq hLast

end FuncSpans
