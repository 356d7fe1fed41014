import FuncSpans.Number.Binary64
import FuncSpans.Number.Decimal
import FuncSpans.Text.Character

/-!
# Numbers of TOML

Digits may have single underscores between them. Integers have 64 bits; of the fractional
numbers only those are refused that are positive and round to infinity.
-/

namespace FuncSpans.Toml

/-- The digits of a text in which each underscore stands between two of them. -/
def digits? (isDigit : Char → Bool) : List Char → Option (List Char)
  | [] => none
  | [c] => if isDigit c then some [c] else none
  | c :: '_' :: rest => if isDigit c then (digits? isDigit rest).map (c :: ·) else none
  | c :: rest => if isDigit c then (digits? isDigit rest).map (c :: ·) else none

/-- The number with some digits in a base. -/
def valueOf (base : Nat) (ds : List Char) : Nat :=
  ds.foldl (fun n d => n * base + (Text.hexValue? d).getD 0) 0

def isOctal (c : Char) : Bool := '0' ≤ c && c ≤ '7'

def isBinary (c : Char) : Bool := c == '0' || c == '1'

def isHex (c : Char) : Bool := (Text.hexValue? c).isSome

/-- The digits of a whole number; only 0 itself starts with a zero. -/
def wholeDigits? (cs : List Char) : Option (List Char) :=
  match cs with
  | '0' :: _ :: _ => none
  | cs => digits? Char.isDigit cs

/-- Takes a sign off; the flag says whether it is a minus. -/
def cutSign : List Char → Bool × List Char
  | '-' :: rest => (true, rest)
  | '+' :: rest => (false, rest)
  | cs => (false, cs)

/-- The integer, if it has no more than 64 bits. -/
def inRange? (n : Int) : Option Int :=
  if -0x8000000000000000 ≤ n ∧ n < 0x8000000000000000 then some n else none

/-- The integer that a text spells. -/
def integer? (cs : List Char) : Option Int :=
  let based (base : Nat) (ds : Option (List Char)) : Option Int :=
    ds.bind fun ds => inRange? (valueOf base ds)
  match cs with
  | '0' :: 'x' :: ds => based 16 (digits? isHex ds)
  | '0' :: 'o' :: ds => based 8 (digits? isOctal ds)
  | '0' :: 'b' :: ds => based 2 (digits? isBinary ds)
  | cs =>
    let (negative, ds) := cutSign cs
    (wholeDigits? ds).bind fun ds =>
      inRange? (if negative then -(valueOf 10 ds : Int) else valueOf 10 ds)

/-- The exponent that a text spells after its mark. -/
def exponent? (cs : List Char) : Option Int :=
  let (negative, ds) := cutSign cs
  (digits? Char.isDigit ds).map fun ds =>
    if negative then -(valueOf 10 ds : Int) else valueOf 10 ds

/-- Whether a character may stand between the parts of a fractional number. -/
def isDigitOrMark (c : Char) : Bool := c.isDigit || c == '_'

/-- The fractional number that a text without a sign spells. -/
def decimal? (cs : List Char) : Option Decimal :=
  let after := cs.dropWhile isDigitOrMark
  (wholeDigits? (cs.takeWhile isDigitOrMark)).bind fun whole =>
    match after with
    | '.' :: rest =>
      let after := rest.dropWhile isDigitOrMark
      (digits? Char.isDigit (rest.takeWhile isDigitOrMark)).bind fun fraction =>
        let number (e : Int) : Decimal := ⟨valueOf 10 (whole ++ fraction), e - fraction.length⟩
        match after with
        | [] => some (number 0)
        | c :: rest => if c = 'e' ∨ c = 'E' then (exponent? rest).map number else none
    | c :: rest =>
      if c = 'e' ∨ c = 'E' then (exponent? rest).map fun e => ⟨valueOf 10 whole, e⟩ else none
    | [] => none

/-- The least number that rounds to infinity. -/
def leastInfinite : Nat := Nat.pow 2 1024 - Nat.pow 2 970

/-- Whether a decimal rounds to infinity. -/
def overflows (d : Decimal) : Bool :=
  if d.digits = 0 then false
  else if d.leading > 308 then true
  else if d.leading < 308 then false
  else if 0 ≤ d.exponent then leastInfinite ≤ d.digits * Nat.pow 10 d.exponent.toNat
  else leastInfinite * Nat.pow 10 (-d.exponent).toNat ≤ d.digits

/-- Whether a text spells a fractional number. -/
def isFloat (cs : List Char) : Bool :=
  let (negative, body) := cutSign cs
  body == ['i', 'n', 'f'] || body == ['n', 'a', 'n'] ||
    match decimal? body with
    | some d => negative || !overflows d
    | none => false

end FuncSpans.Toml
