import FuncSpans.Number.Format
import Mathlib.Tactic.SplitIfs

/-!
# The notation of numbers

Every format writes a finite number in one grammar (`Decimal.Numeral`): a whole number, a fraction
if there is one, an exponent if there is one, and no zero at the front that could be left out
(`NumberFormat.numeral_finite`). The last needs a look at the digits: a number that is not zero is
never rounded to zero in the search for the shortest ones (`Shortest.search_cases`).
-/

namespace FuncSpans

namespace Decimal

/-! ## The grammar -/

/-- At least one digit. -/
def Digits (cs : List Char) : Prop := cs ≠ [] ∧ ∀ c ∈ cs, c.isDigit = true

/-- A whole number, in which only zero itself begins with a zero. -/
structure Whole (cs : List Char) : Prop where
  digits : Digits cs
  eq_zero : cs.head? = some '0' → cs = ['0']

/-- A fraction, which may be missing. -/
def Fraction (cs : List Char) : Prop := cs = [] ∨ ∃ ds, Digits ds ∧ cs = '.' :: ds

/-- An exponent, which may be missing. -/
def Exponent (cs : List Char) : Prop :=
  cs = [] ∨ ∃ mark sign ds, (mark = 'e' ∨ mark = 'E') ∧ (sign = [] ∨ sign = ['+'] ∨ sign = ['-']) ∧
    Digits ds ∧ cs = mark :: (sign ++ ds)

/-- A number without a sign. -/
def Numeral (cs : List Char) : Prop :=
  ∃ whole fraction exponent, Whole whole ∧ Fraction fraction ∧ Exponent exponent ∧
    cs = whole ++ fraction ++ exponent

theorem Numeral.ne_nil {cs : List Char} (h : Numeral cs) : cs ≠ [] := by
  obtain ⟨whole, fraction, exponent, hWhole, _, _, rfl⟩ := h
  simp [hWhole.digits.1]

theorem Digits.append {cs ds : List Char} (hcs : Digits cs) (hds : ∀ c ∈ ds, c.isDigit = true) :
    Digits (cs ++ ds) :=
  ⟨by simp [hcs.1], fun c hc => (List.mem_append.mp hc).elim (hcs.2 c) (hds c)⟩

theorem Digits.head?_append {cs : List Char} (h : Digits cs) (ds : List Char) :
    (cs ++ ds).head? = cs.head? := by
  obtain ⟨c, cs, rfl⟩ := List.exists_cons_of_ne_nil h.1
  rfl

/-! ## Digits -/

theorem digits_natDigits (n : Nat) : Digits (natDigits n) :=
  ⟨Nat.toDigits_ne_nil, fun _ hc => Nat.isDigit_of_mem_toDigits (by decide) (by decide) hc⟩

theorem isDigit_of_mem_zeros {n : Nat} {c : Char} (h : c ∈ zeros n) : c.isDigit = true := by
  rw [List.eq_of_mem_replicate h]
  rfl

/-- The first digit of a number is not a zero, unless it is the number itself. -/
theorem head?_natDigits_ne {n : Nat} (h : n ≠ 0) : (natDigits n).head? ≠ some '0' := by
  induction n using Nat.strongRecOn with
  | ind n ih =>
    by_cases hSmall : n < 10
    · rw [natDigits, Nat.toDigits_of_lt_base hSmall, List.head?_singleton, ne_eq, Option.some.injEq]
      intro he
      have hValue := Nat.toNat_digitChar_of_lt_ten hSmall
      rw [he] at hValue
      have : '0'.toNat = 48 := rfl
      omega
    · have hMore : natDigits n = natDigits (n / 10) ++ [(n % 10).digitChar] :=
        Nat.toDigits_of_base_le (by decide) (Nat.le_of_not_lt hSmall)
      rw [hMore, (digits_natDigits _).head?_append]
      exact ih (n / 10) (by omega) (by omega)

theorem natDigits_zero : natDigits 0 = ['0'] := rfl

theorem whole_natDigits (n : Nat) : Whole (natDigits n) := by
  refine ⟨digits_natDigits n, fun h => ?_⟩
  by_cases hn : n = 0
  · rw [hn, natDigits_zero]
  · exact (head?_natDigits_ne hn h).elim

/-! ## Notations -/

theorem withPoint_numeral (n places : Nat) : ∃ whole fraction, Whole whole ∧ Fraction fraction ∧
    withPoint (natDigits n) places = whole ++ fraction := by
  have hDigits := digits_natDigits n
  unfold withPoint
  dsimp only
  by_cases hPlaces : places = 0
  · exact ⟨_, [], whole_natDigits n, Or.inl rfl, by rw [if_pos hPlaces, List.append_nil]⟩
  rw [if_neg hPlaces]
  by_cases hWhole : (natDigits n).length - places = 0
  · refine ⟨['0'], _, ⟨⟨by simp, by simp⟩, fun _ => rfl⟩, Or.inr ⟨_, ?_, rfl⟩, if_pos hWhole⟩
    exact ⟨by simp [hDigits.1], fun c hc =>
      (List.mem_append.mp hc).elim isDigit_of_mem_zeros (hDigits.2 c)⟩
  · have hLength : 1 < (natDigits n).length := by omega
    have hn : n ≠ 0 := by
      rintro rfl
      simp [natDigits_zero] at hLength
    refine ⟨_, _, ⟨⟨?_, ?_⟩, fun h => ?_⟩, Or.inr ⟨_, ⟨?_, ?_⟩, rfl⟩, if_neg hWhole⟩
    · simp [hDigits.1, hWhole]
    · exact fun c hc => hDigits.2 c (List.mem_of_mem_take hc)
    · rw [List.head?_take, if_neg hWhole] at h
      exact (head?_natDigits_ne hn h).elim
    · rw [ne_eq, List.drop_eq_nil_iff]
      omega
    · exact fun c hc => hDigits.2 c (List.mem_of_mem_drop hc)

/-- Zero has no zeros that are written behind it. -/
def Proper (d : Decimal) : Prop := d.digits = 0 → d.exponent ≤ 0

theorem Proper.whole {d : Decimal} (hd : d.Proper) (h : 0 ≤ d.exponent) : Whole d.positional := by
  have hDigits := (digits_natDigits d.digits).append
    fun c (hc : c ∈ zeros d.exponent.toNat) => isDigit_of_mem_zeros hc
  rw [positional, if_pos h]
  refine ⟨hDigits, fun hHead => ?_⟩
  rw [(digits_natDigits _).head?_append] at hHead
  by_cases hZero : d.digits = 0
  · have hExponent : d.exponent = 0 := Int.le_antisymm (hd hZero) h
    rw [hZero, hExponent]
    rfl
  · exact (head?_natDigits_ne hZero hHead).elim

theorem Proper.positional {d : Decimal} (hd : d.Proper) : ∃ whole fraction, Whole whole ∧
    Fraction fraction ∧ d.positional = whole ++ fraction := by
  by_cases h : 0 ≤ d.exponent
  · exact ⟨_, [], hd.whole h, Or.inl rfl, (List.append_nil _).symm⟩
  · rw [Decimal.positional, if_neg h]
    exact withPoint_numeral _ _

theorem Proper.positionalWithPoint {d : Decimal} (hd : d.Proper) : ∃ whole fraction,
    Whole whole ∧ Fraction fraction ∧ d.positionalWithPoint = whole ++ fraction := by
  rw [Decimal.positionalWithPoint]
  split_ifs with h
  · exact ⟨_, _, hd.whole h, Or.inr ⟨['0'], ⟨by simp, by simp⟩, rfl⟩, rfl⟩
  · exact hd.positional

theorem scientific_numeral (d : Decimal) : Numeral d.scientific := by
  obtain ⟨whole, fraction, hWhole, hFraction, he⟩ :=
    withPoint_numeral d.digits ((natDigits d.digits).length - 1)
  have hSign : [if d.leading < 0 then '-' else '+'] = [] ∨
      [if d.leading < 0 then '-' else '+'] = ['+'] ∨
      [if d.leading < 0 then '-' else '+'] = ['-'] := by
    split_ifs
    · exact Or.inr (Or.inr rfl)
    · exact Or.inr (Or.inl rfl)
  refine ⟨whole, fraction, _, hWhole, hFraction, Or.inr ⟨'e', _, natDigits d.leading.natAbs,
    Or.inl rfl, hSign, digits_natDigits _, rfl⟩, ?_⟩
  rw [← he]
  rfl

/-- A numeral without an exponent. -/
theorem Numeral.of_shape {cs : List Char} (h : ∃ whole fraction, Whole whole ∧ Fraction fraction ∧
    cs = whole ++ fraction) : Numeral cs := by
  obtain ⟨whole, fraction, hWhole, hFraction, he⟩ := h
  exact ⟨whole, fraction, [], hWhole, hFraction, Or.inl rfl, by rw [he, List.append_nil]⟩

end Decimal

/-! ## Shortest digits -/

namespace Shortest

theorem contains_of_nearest? {i : Interval} {tiesToEven : Bool} {n : Nat}
    (h : i.nearest? tiesToEven = some n) : i.contains n = true := by
  unfold Interval.nearest? at h
  dsimp only at h
  split at h
  · cases h
  · cases h
    assumption
  · cases h
    assumption
  · split_ifs at h <;> cases h <;> assumption

theorem ne_zero_of_contains {m : Nat} (hm : m ≠ 0) {q k : Int} {n : Nat}
    (h : (interval m q k).contains n = true) : n ≠ 0 := by
  rintro rfl
  have hScale : 0 < 2 ^ (q - 2).toNat * 10 ^ (-k).toNat :=
    Nat.mul_pos (Nat.two_pow_pos _) (Nat.pow_pos (by decide))
  have hLow : 0 < (interval m q k).low := by
    refine Nat.mul_pos ?_ hScale
    split_ifs <;> omega
  simp only [Interval.contains, Nat.zero_mul] at h
  split_ifs at h
  · simp only [Bool.and_eq_true, decide_eq_true_eq] at h
    omega
  · simp only [Bool.and_eq_true, decide_eq_true_eq] at h
    omega

theorem digits_trim_ne_zero {d : Decimal} (h : d.digits ≠ 0) (fuel : Nat) :
    (Decimal.trim fuel d).digits ≠ 0 := by
  induction fuel generalizing d with
  | zero => exact h
  | succ fuel ih =>
    rw [Decimal.trim]
    split_ifs with hTrim
    · exact ih (by dsimp only; omega)
    · exact h

/-- The search ends with digits of its own or with nothing at all. -/
theorem search_cases {m : Nat} (hm : m ≠ 0) (q first : Int) (tiesToEven : Bool) (fuel n : Nat) :
    (search m q first tiesToEven fuel n).digits ≠ 0 ∨
      search m q first tiesToEven fuel n = ⟨0, 0⟩ := by
  induction fuel generalizing n with
  | zero => exact Or.inr rfl
  | succ fuel ih =>
    rw [search]
    split
    · rename_i digits hNearest
      exact Or.inl (digits_trim_ne_zero (ne_zero_of_contains hm (contains_of_nearest? hNearest)) _)
    · exact ih _

theorem proper_shortest (m : Nat) (q : Int) (tiesToEven : Bool) :
    (shortest m q tiesToEven).Proper := by
  intro hZero
  unfold shortest at *
  split_ifs at * with hm
  · exact Int.le_refl 0
  · rcases search_cases hm q (leading m q) tiesToEven 18 1 with h | h
    · exact (h hZero).elim
    · exact Int.le_of_eq (congrArg Decimal.exponent h)

end Shortest

namespace NumberFormat

open Decimal

/-- Every finite number is written as a numeral, in any format. -/
theorem numeral_finite (f : NumberFormat) (m : Nat) (q : Int) : Numeral (f.finite m q) := by
  unfold finite
  split
  · exact .of_shape (Shortest.proper_shortest m q _).positional
  · dsimp only
    split_ifs
    · exact .of_shape (Shortest.proper_shortest m q _).positionalWithPoint
    · exact scientific_numeral _
  · refine .of_shape (Proper.positional fun _ => ?_)
    exact Int.neg_nonpos_of_nonneg (Int.natCast_nonneg _)

end NumberFormat

end FuncSpans
