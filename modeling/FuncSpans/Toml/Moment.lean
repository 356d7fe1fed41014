import FuncSpans.Toml.Number

/-!
# Moments of TOML

A moment is a date, a time of a day, or a date with a time, which may have an offset. Days are
checked against the calendar.
-/

namespace FuncSpans.Toml

/-- The number of two digits. -/
def pair? (a b : Char) : Option Nat :=
  if a.isDigit && b.isDigit then some (valueOf 10 [a, b]) else none

/-- Whether two digits are a number within bounds. -/
def isPairIn (low high : Nat) (a b : Char) : Bool :=
  (pair? a b).any fun n => low ≤ n && n ≤ high

def isLeapYear (year : Nat) : Bool := year % 4 = 0 && (year % 100 ≠ 0 || year % 400 = 0)

def daysIn (year month : Nat) : Nat :=
  if month = 2 then if isLeapYear year then 29 else 28
  else if month = 4 ∨ month = 6 ∨ month = 9 ∨ month = 11 then 30
  else 31

/-- Takes a date. -/
def readDate : List Char → Option (List Char)
  | a :: b :: c :: d :: '-' :: m :: n :: '-' :: x :: y :: rest =>
    match pair? a b, pair? c d, pair? m n, pair? x y with
    | some century, some year, some month, some day =>
      if 1 ≤ month ∧ month ≤ 12 ∧ 1 ≤ day ∧ day ≤ daysIn (century * 100 + year) month then some rest
      else none
    | _, _, _, _ => none
  | _ => none

/-- Takes a time of a day. A minute may have a leap second. -/
def readTime : List Char → Option (List Char)
  | h :: i :: ':' :: m :: n :: ':' :: s :: t :: rest =>
    if isPairIn 0 23 h i && isPairIn 0 59 m n && isPairIn 0 60 s t then
      match rest with
      | '.' :: d :: rest => if d.isDigit then some (rest.dropWhile Char.isDigit) else none
      | rest => some rest
    else none
  | _ => none

/-- Whether a text is an offset or nothing. -/
def isOffset : List Char → Bool
  | [] | ['Z'] | ['z'] => true
  | [sign, h, i, ':', m, n] => (sign == '+' || sign == '-') && isPairIn 0 23 h i && isPairIn 0 59 m n
  | _ => false

/-- Whether a text is a time with an offset or without. -/
def isTimeOfMoment (cs : List Char) : Bool :=
  match readTime cs with
  | some rest => isOffset rest
  | none => false

/-- Whether a text without blanks is a moment. -/
def isMoment (cs : List Char) : Bool :=
  match readDate cs with
  | some [] => true
  | some ('T' :: rest) | some ('t' :: rest) => isTimeOfMoment rest
  | some _ => false
  | none => readTime cs == some []

end FuncSpans.Toml
