/-!
# Characters

White space in the sense of Unicode, hexadecimal digits, and lower case.

Names of options are compared without regard to case. They are ASCII, so only the characters
whose lower-case form is ASCII matter: the capital letters of ASCII and the Kelvin sign. Every
other character stays what it is and is different from any name.
-/

namespace FuncSpans.Text

/-! ## White space -/

/-- Whether a character is Unicode white space. -/
def isBlank (c : Char) : Bool :=
  let n := c.toNat
  (0x9 ≤ n && n ≤ 0xD) || n == 0x20 || n == 0x85 || n == 0xA0 || n == 0x1680 ||
    (0x2000 ≤ n && n ≤ 0x200A) || n == 0x2028 || n == 0x2029 || n == 0x202F || n == 0x205F ||
    n == 0x3000

/-- The text without the white space at its end. -/
def trimEnd (cs : List Char) : List Char := (cs.reverse.dropWhile isBlank).reverse

/-! ## Hexadecimal numbers -/

/-- The value of a hexadecimal digit. -/
def hexValue? (c : Char) : Option Nat :=
  if c.isDigit then some (c.toNat - '0'.toNat)
  else if 'a' ≤ c ∧ c ≤ 'f' then some (c.toNat - 'a'.toNat + 10)
  else if 'A' ≤ c ∧ c ≤ 'F' then some (c.toNat - 'A'.toNat + 10)
  else none

/-- The value of some hexadecimal digits. -/
def hexNumber? (cs : List Char) : Option Nat :=
  cs.foldlM (fun n c => (hexValue? c).map (n * 16 + ·)) 0

/-- The character with a number, if there is one. -/
def charOf? (n : Nat) : Option Char := if n.isValidChar then some (Char.ofNat n) else none

/-! ## Lower case -/

/-- The lower-case form of a character, where that is ASCII. -/
def toLower (c : Char) : Char := if c = '\u212A' then 'k' else c.toLower

def lowerCase (s : String) : String := String.ofList (s.toList.map toLower)

end FuncSpans.Text
