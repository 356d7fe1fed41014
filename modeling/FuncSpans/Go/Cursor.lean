/-!
# Places in a text

A `Cursor` is a place in a text: what is left to read, and where that begins. Lines end at
line feeds only; columns and offsets count the bytes of the UTF-8 form.
-/

namespace FuncSpans.Go

/-- A place in a text. -/
structure Cursor where
  /-- What is left of the text. -/
  rest : List Char
  /-- The line of the next character, from 1. -/
  line : Nat
  /-- The number of bytes between the start of the line and the next character, plus 1. -/
  column : Nat
  /-- The number of bytes before the next character. -/
  offset : Nat
  deriving DecidableEq

namespace Cursor

/-- The start of a text. A byte order mark there takes up space but is not read. -/
def start : List Char → Cursor
  | '\uFEFF' :: rest => ⟨rest, 1, 4, 3⟩
  | rest => ⟨rest, 1, 1, 0⟩

/-- Steps over one character. -/
def next (c : Cursor) : Cursor :=
  match c.rest with
  | [] => c
  | '\n' :: rest => ⟨rest, c.line + 1, 1, c.offset + 1⟩
  | x :: rest => ⟨rest, c.line, c.column + x.utf8Size, c.offset + x.utf8Size⟩

/-- Steps over a number of characters. -/
def skip : Nat → Cursor → Cursor
  | 0, c => c
  | n + 1, c => skip n c.next

/-- How many characters are left. -/
def remaining (c : Cursor) : Nat := c.rest.length

/-- The place as it is shown to a reader. -/
def position (c : Cursor) : Nat × Nat := (c.line, c.column)

theorem line_le_next (c : Cursor) : c.line ≤ c.next.line := by
  unfold next; split <;> simp

theorem line_le_skip (n : Nat) (c : Cursor) : c.line ≤ (skip n c).line := by
  induction n generalizing c with
  | zero => exact Nat.le_refl _
  | succ n ih => exact Nat.le_trans c.line_le_next (ih c.next)

theorem rest_next (c : Cursor) : c.next.rest = c.rest.drop 1 := by
  unfold next; split <;> simp_all

theorem rest_skip (n : Nat) (c : Cursor) : (skip n c).rest = c.rest.drop n := by
  induction n generalizing c with
  | zero => simp [skip]
  | succ n ih => simp [skip, ih, rest_next]

end Cursor

end FuncSpans.Go
