import FuncSpans.Go.Cursor
import Mathlib.Data.List.Basic

/-!
# Going on in a text

`Cursor.Leads` says that one place comes after another. The line of a place and the line feeds
after it always come to the same number (`Leads.total_eq`), and a place after another is told by
how much is left of the text (`Leads.eq_of_remaining`).
-/

namespace FuncSpans.Go.Cursor

theorem remaining_next (c : Cursor) : c.next.remaining = c.remaining - 1 := by
  rw [remaining, rest_next, List.length_drop, remaining]

theorem remaining_skip (n : Nat) (c : Cursor) : (skip n c).remaining = c.remaining - n := by
  rw [remaining, rest_skip, List.length_drop, remaining]

theorem remaining_eq_zero {c : Cursor} (h : c.rest = []) : c.remaining = 0 :=
  List.length_eq_zero_iff.mpr h

theorem remaining_pos {c : Cursor} (h : c.rest ≠ []) : 0 < c.remaining :=
  List.length_pos_iff.mpr h

theorem skip_add (m n : Nat) (c : Cursor) : skip (m + n) c = skip n (skip m c) := by
  induction m generalizing c with
  | zero => rw [Nat.zero_add, skip]
  | succ m ih => rw [Nat.succ_add, skip, ih, skip]

theorem next_of_rest_nil {c : Cursor} (h : c.rest = []) : c.next = c := by
  unfold next
  rw [h]

theorem skip_of_rest_nil {c : Cursor} (h : c.rest = []) (n : Nat) : skip n c = c := by
  induction n with
  | zero => rfl
  | succ n ih => rw [skip, next_of_rest_nil h, ih]

/-- The lines that a place has behind it and those after it. -/
def lines (c : Cursor) : Nat := c.line + c.rest.count '\n'

theorem lines_next (c : Cursor) : c.next.lines = c.lines := by
  unfold lines next
  split
  · rfl
  · rename_i rest h
    rw [h, List.count_cons_self]
    dsimp only
    omega
  · rename_i x rest hx h
    have hNe : x ≠ '\n' := fun he => hx he
    rw [h, List.count_cons_of_ne hNe]

theorem lines_skip (n : Nat) (c : Cursor) : (skip n c).lines = c.lines := by
  induction n generalizing c with
  | zero => rfl
  | succ n ih => rw [skip, ih, lines_next]

/-- The second place comes after the first, or is the first. -/
def Leads (c d : Cursor) : Prop := ∃ n, d = skip n c

namespace Leads

variable {c d e : Cursor}

theorem refl (c : Cursor) : c.Leads c := ⟨0, rfl⟩

theorem skip (n : Nat) (c : Cursor) : c.Leads (Cursor.skip n c) := ⟨n, rfl⟩

theorem next (c : Cursor) : c.Leads c.next := ⟨1, rfl⟩

theorem trans (h : c.Leads d) (h' : d.Leads e) : c.Leads e := by
  obtain ⟨m, rfl⟩ := h
  obtain ⟨n, rfl⟩ := h'
  exact ⟨m + n, (skip_add m n c).symm⟩

theorem line_le (h : c.Leads d) : c.line ≤ d.line := by
  obtain ⟨n, rfl⟩ := h
  exact line_le_skip n c

theorem remaining_le (h : c.Leads d) : d.remaining ≤ c.remaining := by
  obtain ⟨n, rfl⟩ := h
  rw [remaining_skip]
  exact Nat.sub_le _ _

theorem suffix (h : c.Leads d) : d.rest <:+ c.rest := by
  obtain ⟨n, rfl⟩ := h
  rw [rest_skip]
  exact List.drop_suffix _ _

/-- Nothing comes after the end of a text. -/
theorem rest_eq_nil (h : c.Leads d) (hc : c.rest = []) : d.rest = [] := by
  have hSuffix := h.suffix
  rwa [hc, List.suffix_nil] at hSuffix

theorem total_eq (h : c.Leads d) : d.lines = c.lines := by
  obtain ⟨n, rfl⟩ := h
  exact lines_skip n c

theorem exists_le (h : c.Leads d) : ∃ n ≤ c.remaining, d = Cursor.skip n c := by
  obtain ⟨n, rfl⟩ := h
  by_cases hn : n ≤ c.remaining
  · exact ⟨n, hn, rfl⟩
  · refine ⟨c.remaining, Nat.le_refl _, ?_⟩
    have hRest : (Cursor.skip c.remaining c).rest = [] := by
      rw [rest_skip]
      exact List.drop_length
    obtain ⟨k, hk⟩ := Nat.exists_eq_add_of_le (Nat.le_of_not_le hn)
    rw [hk, skip_add, skip_of_rest_nil hRest]

/-- A place is told by how much is left of the text. -/
theorem eq_of_remaining (hd : c.Leads d) (he : c.Leads e) (h : d.remaining = e.remaining) :
    d = e := by
  obtain ⟨m, hm, rfl⟩ := hd.exists_le
  obtain ⟨n, hn, rfl⟩ := he.exists_le
  rw [remaining_skip, remaining_skip] at h
  have hMn : m = n := by omega
  rw [hMn]

end Leads

end FuncSpans.Go.Cursor
