import FuncSpans.Proofs.Number.Shortest
import Mathlib.Data.List.TakeWhile

/-!
# Reading numbers

`Decimal.signedValue` reads a number as it is written: the sign, and the rational that the digits,
the point and the exponent denote. All notations of a decimal denote its value
(`pointed_positional`, `numeralValue_scientific`). So a number with shortest digits denotes the
decimal that has been found (`NumberFormat.numeralValue_shortest`), and one with a fixed number of
places the multiple of the last place that is nearest to the number, the even one of two
(`NumberFormat.numeralValue_fixed`, `NumberFormat.roundPlaces_nearest`).
-/

namespace FuncSpans

namespace Decimal

/-! ## What a text denotes -/

/-- The natural number of digits. -/
def natValue (ds : List Char) : Nat := Nat.ofDigitChars 10 ds 0

/-- The number of digits that may have a point between them: the number without the point, divided
by ten for each digit behind it. -/
def pointedValue (cs : List Char) : ℚ :=
  natValue (cs.filter (· ≠ '.')) / 10 ^ ((cs.dropWhile (· ≠ '.')).length - 1)

/-- The number behind the mark of an exponent; without a mark it is zero. -/
def exponentValue : List Char → ℤ
  | [] => 0
  | _ :: '-' :: ds => -natValue ds
  | _ :: '+' :: ds => natValue ds
  | _ :: ds => natValue ds

/-- The mark of an exponent. -/
def isMark (c : Char) : Bool := c == 'e' || c == 'E'

/-- The number of a text without a sign. -/
def numeralValue (cs : List Char) : ℚ :=
  pointedValue (cs.takeWhile (!isMark ·)) * 10 ^ exponentValue (cs.dropWhile (!isMark ·))

/-- Whether a text has a minus, and the number behind it. -/
def signedValue : List Char → Bool × ℚ
  | '-' :: cs => (true, numeralValue cs)
  | cs => (false, numeralValue cs)

/-- A number without a sign begins with a digit. -/
theorem Numeral.signedValue {cs : List Char} (h : Numeral cs) :
    signedValue cs = (false, numeralValue cs) := by
  obtain ⟨whole, fraction, exponent, hWhole, -, -, rfl⟩ := h
  unfold Decimal.signedValue
  split
  · rename_i he
    obtain ⟨c, ds, rfl⟩ := List.exists_cons_of_ne_nil hWhole.digits.1
    have hMinus : c = '-' := (List.cons.inj he).1
    have hDigit := hWhole.digits.2 c List.mem_cons_self
    rw [hMinus] at hDigit
    cases hDigit
  · rfl

/-! ## Digits and points -/

theorem natValue_natDigits (n : Nat) : natValue (natDigits n) = n :=
  Nat.ofDigitChars_toDigits (by decide) (by decide)

theorem natValue_zeros_append (n : Nat) (ds : List Char) :
    natValue (zeros n ++ ds) = natValue ds := by
  rw [natValue, Nat.ofDigitChars_append, zeros, Nat.ofDigitChars_replicate_zero, Nat.mul_zero,
    natValue]

theorem natValue_append_zeros (ds : List Char) (n : Nat) :
    natValue (ds ++ zeros n) = natValue ds * 10 ^ n := by
  rw [natValue, Nat.ofDigitChars_append, zeros, Nat.ofDigitChars_replicate_zero, Nat.mul_comm,
    natValue]

/-- Digits are no point. -/
theorem ne_point {ds : List Char} (h : ∀ c ∈ ds, c.isDigit = true) :
    ∀ c ∈ ds, decide (c ≠ '.') = true := by
  intro c hc
  have hDigit := h c hc
  rw [decide_eq_true_eq]
  rintro rfl
  cases hDigit

theorem pointedValue_digits {ds : List Char} (h : ∀ c ∈ ds, c.isDigit = true) :
    pointedValue ds = natValue ds := by
  rw [pointedValue, List.filter_eq_self.mpr (ne_point h),
    List.dropWhile_eq_nil_iff.mpr (ne_point h)]
  simp

theorem pointedValue_point {whole fraction : List Char} (hWhole : ∀ c ∈ whole, c.isDigit = true)
    (hFraction : ∀ c ∈ fraction, c.isDigit = true) :
    pointedValue (whole ++ '.' :: fraction) =
      natValue (whole ++ fraction) / 10 ^ fraction.length := by
  have hFilter : (whole ++ '.' :: fraction).filter (· ≠ '.') = whole ++ fraction := by
    rw [List.filter_append, List.filter_cons_of_neg (by simp),
      List.filter_eq_self.mpr (ne_point hWhole), List.filter_eq_self.mpr (ne_point hFraction)]
  have hDrop : (whole ++ '.' :: fraction).dropWhile (· ≠ '.') = '.' :: fraction := by
    rw [List.dropWhile_append_of_pos (ne_point hWhole), List.dropWhile_cons_of_neg (by simp)]
  rw [pointedValue, hFilter, hDrop, List.length_cons, Nat.add_sub_cancel]

/-- Digits and points only. -/
def Pointed (cs : List Char) : Prop := ∀ c ∈ cs, c.isDigit = true ∨ c = '.'

theorem Pointed.of_digits {ds : List Char} (h : ∀ c ∈ ds, c.isDigit = true) : Pointed ds :=
  fun c hc => Or.inl (h c hc)

theorem Pointed.point {whole fraction : List Char} (hWhole : Pointed whole)
    (hFraction : Pointed fraction) : Pointed (whole ++ '.' :: fraction) := by
  intro c hc
  rcases List.mem_append.mp hc with hc | hc
  · exact hWhole c hc
  · rcases List.mem_cons.mp hc with rfl | hc
    · exact Or.inr rfl
    · exact hFraction c hc

theorem Pointed.not_isMark {cs : List Char} (h : Pointed cs) :
    ∀ c ∈ cs, (!isMark c) = true := by
  intro c hc
  rw [isMark, Bool.not_eq_true', Bool.or_eq_false_iff, beq_eq_false_iff_ne, beq_eq_false_iff_ne]
  constructor <;> rintro rfl <;> rcases h _ hc with h | h <;> cases h

theorem numeralValue_pointed {cs : List Char} (h : Pointed cs) :
    numeralValue cs = pointedValue cs := by
  rw [numeralValue, List.takeWhile_eq_self_iff.mpr h.not_isMark,
    List.dropWhile_eq_nil_iff.mpr h.not_isMark, exponentValue, zpow_zero, mul_one]

/-! ## Notations -/

/-- A point divides by ten for each digit behind it. -/
theorem pointed_withPoint (n places : Nat) : Pointed (withPoint (natDigits n) places) ∧
    pointedValue (withPoint (natDigits n) places) = n / 10 ^ places := by
  have hDigits := (digits_natDigits n).2
  have hZeros {k : Nat} {c : Char} (hc : c ∈ zeros k ++ natDigits n) : c.isDigit = true :=
    (List.mem_append.mp hc).elim isDigit_of_mem_zeros (hDigits c)
  unfold withPoint
  dsimp only
  split_ifs with hPlaces hWhole
  · rw [hPlaces, pow_zero, div_one, pointedValue_digits hDigits, natValue_natDigits]
    exact ⟨.of_digits hDigits, rfl⟩
  · have hZero : ∀ c ∈ ['0'], c.isDigit = true := by simp
    have hFraction : ∀ c ∈ zeros (places - (natDigits n).length) ++ natDigits n,
        c.isDigit = true := fun c hc => hZeros hc
    have hLength : (zeros (places - (natDigits n).length) ++ natDigits n).length = places := by
      rw [List.length_append, zeros, List.length_replicate]
      omega
    have hValue :
        natValue (['0'] ++ (zeros (places - (natDigits n).length) ++ natDigits n)) = n := by
      rw [show ['0'] = zeros 1 from rfl, natValue_zeros_append, natValue_zeros_append,
        natValue_natDigits]
    have hPoint := pointedValue_point hZero hFraction
    rw [hLength, hValue] at hPoint
    exact ⟨.point (.of_digits hZero) (.of_digits hFraction), hPoint⟩
  · have hTake : ∀ c ∈ (natDigits n).take ((natDigits n).length - places), c.isDigit = true :=
      fun c hc => hDigits c (List.mem_of_mem_take hc)
    have hDrop : ∀ c ∈ (natDigits n).drop ((natDigits n).length - places), c.isDigit = true :=
      fun c hc => hDigits c (List.mem_of_mem_drop hc)
    have hPoint := pointedValue_point hTake hDrop
    rw [List.take_append_drop, natValue_natDigits, List.length_drop, Nat.sub_sub_self (by omega)]
      at hPoint
    exact ⟨.point (.of_digits hTake) (.of_digits hDrop), hPoint⟩

theorem pointed_positional (d : Decimal) :
    Pointed d.positional ∧ pointedValue d.positional = d.value := by
  unfold positional
  split_ifs with h
  · have hDigits : ∀ c ∈ natDigits d.digits ++ zeros d.exponent.toNat, c.isDigit = true :=
      fun c hc => (List.mem_append.mp hc).elim ((digits_natDigits _).2 c) isDigit_of_mem_zeros
    refine ⟨.of_digits hDigits, ?_⟩
    rw [pointedValue_digits hDigits, natValue_append_zeros, natValue_natDigits, value, Nat.cast_mul,
      Nat.cast_pow, Nat.cast_ofNat, ← zpow_natCast, Int.toNat_of_nonneg h]
  · obtain ⟨hPointed, hValue⟩ := pointed_withPoint d.digits (-d.exponent).toNat
    refine ⟨hPointed, ?_⟩
    rw [hValue, value, ← zpow_natCast, Int.toNat_of_nonneg (by omega), zpow_neg, div_inv_eq_mul]

theorem pointed_positionalWithPoint (d : Decimal) :
    Pointed d.positionalWithPoint ∧ pointedValue d.positionalWithPoint = d.value := by
  obtain ⟨hPointed, hValue⟩ := pointed_positional d
  unfold positionalWithPoint
  split_ifs with h
  · have hZero : ∀ c ∈ ['0'], c.isDigit = true := by simp
    have hDigits : ∀ c ∈ d.positional, c.isDigit = true := by
      rw [positional, if_pos h]
      exact fun c hc => (List.mem_append.mp hc).elim ((digits_natDigits _).2 c) isDigit_of_mem_zeros
    rw [pointedValue_digits hDigits] at hValue
    refine ⟨.point hPointed (.of_digits hZero), ?_⟩
    rw [pointedValue_point hDigits hZero, show ['0'] = zeros 1 from rfl, natValue_append_zeros,
      Nat.cast_mul, hValue]
    simp [zeros]
  · exact ⟨hPointed, hValue⟩

theorem exponentValue_natDigits (e : ℤ) :
    exponentValue ('e' :: (if e < 0 then '-' else '+') :: natDigits e.natAbs) = e := by
  split_ifs with h
  · rw [exponentValue, natValue_natDigits]
    omega
  · rw [exponentValue, natValue_natDigits]
    omega

theorem numeralValue_scientific (d : Decimal) : numeralValue d.scientific = d.value := by
  obtain ⟨hPointed, hValue⟩ := pointed_withPoint d.digits ((natDigits d.digits).length - 1)
  have hMark : ('e' :: (if d.leading < 0 then '-' else '+') :: natDigits d.leading.natAbs).takeWhile
      (!isMark ·) = [] := List.takeWhile_cons_of_neg (by decide)
  have hDrop : ('e' :: (if d.leading < 0 then '-' else '+') :: natDigits d.leading.natAbs).dropWhile
      (!isMark ·) = 'e' :: (if d.leading < 0 then '-' else '+') :: natDigits d.leading.natAbs :=
    List.dropWhile_cons_of_neg (by decide)
  have hLength := natDigits_length_pos d.digits
  rw [numeralValue, scientific, List.takeWhile_append_of_pos hPointed.not_isMark,
    List.dropWhile_append_of_pos hPointed.not_isMark, hMark, hDrop, List.append_nil, hValue,
    exponentValue_natDigits, div_mul_eq_mul_div, div_eq_mul_inv, ← zpow_natCast, ← zpow_neg,
    mul_assoc, ← zpow_add₀ (by norm_num), value, leading]
  congr 2
  omega

end Decimal

namespace NumberFormat

open Decimal

/-! ## Shortest digits -/

/-- A number with shortest digits denotes the shortest decimal. -/
theorem numeralValue_shortest (f : NumberFormat) (h : ∀ places, f.places ≠ .fixed places) (m : Nat)
    (q : Int) : numeralValue (f.finite m q) = (Shortest.shortest m q f.tiesToEven).value := by
  unfold finite
  split
  · obtain ⟨hPointed, hValue⟩ := pointed_positional (Shortest.shortest m q f.tiesToEven)
    exact (numeralValue_pointed hPointed).trans hValue
  · dsimp only
    split_ifs
    · obtain ⟨hPointed, hValue⟩ := pointed_positionalWithPoint (Shortest.shortest m q f.tiesToEven)
      exact (numeralValue_pointed hPointed).trans hValue
    · exact numeralValue_scientific _
  · rename_i places hPlaces
    exact (h places hPlaces).elim

/-! ## Fixed places -/

/-- A whole number is nearest to a rational, and even if there are two of them. -/
structure Nearest (r : ℚ) (n : Nat) : Prop where
  nearest : ∀ k : Nat, |r - n| ≤ |r - k|
  even : ∀ k : Nat, k ≠ n → |r - n| = |r - k| → n % 2 = 0

/-- Less than half a unit away is nothing else. -/
theorem Nearest.of_half {r : ℚ} {n : Nat} (h : |r - n| ≤ 1 / 2)
    (hEven : |r - n| = 1 / 2 → n % 2 = 0) : Nearest r n := by
  have hOther {k : Nat} (hne : k ≠ n) : 1 / 2 ≤ |r - k| := by
    have hUnit : (1 : ℚ) ≤ |(k : ℚ) - n| := by
      have : (1 : ℤ) ≤ |(k : ℤ) - n| := Int.one_le_abs (by omega)
      exact_mod_cast this
    have hStep : |(k : ℚ) - n| ≤ |r - n| + |r - k| := by
      have := abs_sub (r - n) (r - k)
      rwa [sub_sub_sub_cancel_left] at this
    linarith
  refine ⟨fun k => ?_, fun k hne he => hEven (le_antisymm h (he ▸ hOther hne))⟩
  by_cases hne : k = n
  · rw [hne]
  · exact h.trans (hOther hne)

theorem roundQuotient_nearest (num : Nat) {den : Nat} (hDen : 0 < den) :
    Nearest (num / den) (roundQuotient num den) := by
  have hCast : (0 : ℚ) < den := Nat.cast_pos.mpr hDen
  have hQuotient : (num / den : ℚ) = (num / den : Nat) + (num % den : Nat) / den := by
    have : (num : ℚ) = (num / den : Nat) * den + (num % den : Nat) := by
      exact_mod_cast (Nat.div_add_mod' num den).symm
    rw [this, add_div, mul_div_cancel_right₀ _ hCast.ne']
  have hNonneg : (0 : ℚ) ≤ (num % den : Nat) / den := by positivity
  have hBelow : |(num / den : ℚ) - (num / den : Nat)| = (num % den : Nat) / den := by
    rw [hQuotient, add_sub_cancel_left, abs_of_nonneg hNonneg]
  have hAbove : |(num / den : ℚ) - (num / den + 1 : Nat)| = 1 - (num % den : Nat) / den := by
    have hLt : ((num % den : Nat) : ℚ) / den < 1 :=
      (div_lt_one hCast).mpr (Nat.cast_lt.mpr (Nat.mod_lt num hDen))
    rw [hQuotient, Nat.cast_succ, add_sub_add_left_eq_sub, abs_of_neg (by linarith), neg_sub]
  have hHalf : ((num % den : Nat) : ℚ) / den < 1 / 2 ↔ 2 * (num % den) < den := by
    rw [div_lt_div_iff₀ hCast two_pos, one_mul, mul_comm]
    exact_mod_cast Iff.rfl
  have hHalf' : (1 : ℚ) / 2 < (num % den : Nat) / den ↔ den < 2 * (num % den) := by
    rw [div_lt_div_iff₀ two_pos hCast, one_mul, mul_comm]
    exact_mod_cast Iff.rfl
  unfold roundQuotient
  dsimp only
  split_ifs with hLt hGt hEven
  · rw [← hHalf] at hLt
    exact .of_half (hBelow.trans_le hLt.le) fun he => (hLt.ne (hBelow.symm.trans he)).elim
  · rw [← hHalf'] at hGt
    refine .of_half (hAbove.trans_le (by linarith)) fun he => ?_
    rw [hAbove] at he
    linarith
  · exact .of_half (hBelow.trans_le (not_lt.mp (mt hHalf'.mp hGt))) fun _ => hEven
  · have hLe := not_lt.mp (mt hHalf.mp hLt)
    exact .of_half (hAbove.trans_le (by linarith)) fun _ => by omega

theorem roundPlaces_nearest (places m : Nat) (q : Int) :
    Nearest (m * 2 ^ q * 10 ^ places) (roundPlaces places m q) := by
  have hQuotient : (m * 2 ^ q * 10 ^ places : ℚ) =
      (m * 2 ^ q.toNat * 10 ^ places : Nat) / (2 ^ (-q).toNat : Nat) := by
    rw [eq_div_iff (by positivity)]
    push_cast
    rw [Shortest.pow_toNat two_ne_zero q]
    ring
  rw [hQuotient]
  exact roundQuotient_nearest _ (Nat.two_pow_pos _)

/-- A number with a fixed number of places denotes the nearest multiple of the last place. -/
theorem numeralValue_fixed {f : NumberFormat} {places : Nat} (h : f.places = .fixed places)
    (m : Nat) (q : Int) : numeralValue (f.finite m q) = roundPlaces places m q / 10 ^ places := by
  rw [finite, h]
  obtain ⟨hPointed, hValue⟩ := pointed_positional ⟨roundPlaces places m q, -places⟩
  refine (numeralValue_pointed hPointed).trans (hValue.trans ?_)
  rw [value, zpow_neg, zpow_natCast, div_eq_mul_inv]

/-! ## Signs -/

/-- Nothing but a minus is written in front of a finite number. -/
theorem signedValue_write (f : NumberFormat) {x : Binary64} {m : Nat} {q : Int}
    (h : x.parts = .finite m q) :
    signedValue (f.write x) = (x.isNegative, numeralValue (f.finite m q)) := by
  rw [write, h]
  dsimp only
  split_ifs with hSign
  · rw [hSign, signedValue]
  · rw [Bool.not_eq_true] at hSign
    rw [hSign, (f.numeral_finite m q).signedValue]

end NumberFormat

end FuncSpans
