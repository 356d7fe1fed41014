import FuncSpans.Text.Utf8
import Mathlib.Data.String.Basic

/-!
# The order of UTF-8

Strings are compared character by character. UTF-8 keeps that order: to compare the bytes of two
strings comes to the same (`ofString_lt_iff`), since a larger character has larger bytes, whatever
comes behind them (`encodeChar_lt`).
-/

namespace FuncSpans.Utf8

/-- How a byte of one text compares with a byte of another one, and what comes behind them. -/
theorem cons_ofNat_lt_iff {m n : Nat} (hm : m < 256) (hn : n < 256) (as bs : Bytes) :
    UInt8.ofNat m :: as < UInt8.ofNat n :: bs ↔ m < n ∨ m = n ∧ as < bs := by
  rw [List.cons_lt_cons_iff, UInt8.lt_iff_toNat_lt, ← UInt8.toNat_inj, UInt8.toNat_ofNat',
    UInt8.toNat_ofNat', Nat.mod_eq_of_lt hm, Nat.mod_eq_of_lt hn]

theorem toNat_val_lt (c : Char) : c.val.toNat < 0x110000 := by
  have h := c.valid
  simp only [UInt32.isValidChar, Nat.isValidChar] at h
  omega

theorem lt_by_digit {m n : Nat} (h : m < n) :
    m / 64 < n / 64 ∨ m / 64 = n / 64 ∧ m % 64 < n % 64 := by
  omega

/-- Characters are ordered by their bytes, whatever comes behind them. -/
theorem encodeChar_lt {c d : Char} (h : c < d) (as bs : Bytes) :
    String.utf8EncodeChar c ++ as < String.utf8EncodeChar d ++ bs := by
  have hVal : c.val.toNat < d.val.toNat := UInt32.lt_iff_toNat_lt.mp (Char.lt_def.mp h)
  have hc := toNat_val_lt c
  have hd := toNat_val_lt d
  simp only [String.utf8EncodeChar]
  generalize c.val.toNat = m at *
  generalize d.val.toNat = n at *
  have hDiv (k : Nat) : k / 64 / 64 = k / 4096 ∧ k / 4096 / 64 = k / 262144 :=
    ⟨Nat.div_div_eq_div_mul k 64 64, Nat.div_div_eq_div_mul k 4096 64⟩
  have hLow := lt_by_digit hVal
  have hMid := @lt_by_digit (m / 64) (n / 64)
  have hHigh := @lt_by_digit (m / 4096) (n / 4096)
  simp only [hDiv] at hMid hHigh
  have hTop : m / 262144 % 8 = m / 262144 ∧ n / 262144 % 8 = n / 262144 := by omega
  -- Of two lengths the first byte tells; of one length the bits are compared from the top.
  split_ifs <;>
    simp (disch := omega) only [List.cons_append, List.nil_append, cons_ofNat_lt_iff, hTop]
  all_goals omega

theorem encode_cons (c : Char) (cs : List Char) :
    encode (c :: cs) = String.utf8EncodeChar c ++ encode cs := List.flatMap_cons

theorem encode_lt {cs ds : List Char} (h : cs < ds) : encode cs < encode ds := by
  induction h with
  | nil =>
    rename_i d ds
    rw [encode_cons]
    cases hd : String.utf8EncodeChar d with
    | nil => exact (String.utf8EncodeChar_ne_nil hd).elim
    | cons b bs => exact List.nil_lt_cons _ _
  | cons _ ih =>
    rw [encode_cons, encode_cons]
    exact List.append_left_lt ih
  | rel h =>
    rw [encode_cons, encode_cons]
    exact encodeChar_lt h _ _

/-- Strings are ordered as their bytes are. -/
theorem ofString_lt_iff {s t : String} : ofString s < ofString t ↔ s < t := by
  refine ⟨fun h => ?_, fun h => encode_lt (String.lt_iff_toList_lt.mp h)⟩
  by_contra hNot
  rcases lt_or_eq_of_le (le_of_not_gt hNot) with hLt | he
  · exact List.lt_asymm h (encode_lt (String.lt_iff_toList_lt.mp hLt))
  · rw [he] at h
    exact List.lt_irrefl _ h

end FuncSpans.Utf8
