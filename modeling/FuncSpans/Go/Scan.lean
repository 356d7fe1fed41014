import FuncSpans.Text.Identifier
import FuncSpans.Go.Token

/-!
# Spelling of tokens

A `Scan` says how many characters at the front of a text spell a token of one kind, if any
do. Every scan takes as many characters as its kind allows. The alternatives of a literal are
scanned apart and the longest one counts.
-/

namespace FuncSpans.Go

/-- Reads the longest spelling at the front of a text and returns its length. -/
abbrev Scan := List Char → Option Nat

namespace Scan

/-- One character of a class. -/
def one (p : Char → Bool) : Scan
  | [] => none
  | c :: _ => if p c then some 1 else none

/-- One given character. -/
def char (x : Char) : Scan := one (· == x)

/-- The first scan, then the second on what is left. -/
def andThen (a b : Scan) : Scan := fun cs =>
  (a cs).bind fun n => (b (cs.drop n)).map (n + ·)

/-- The scan if it succeeds, else nothing read. -/
def optional (a : Scan) : Scan := fun cs => some ((a cs).getD 0)

/-- The longer of two spellings. -/
def longer (a b : Scan) : Scan := fun cs =>
  match a cs, b cs with
  | some m, some n => some (max m n)
  | some m, none => some m
  | none, n => n

/-- All the scans one after the other. -/
def all : List Scan → Scan
  | [] => fun _ => some 0
  | a :: as => a.andThen (all as)

/-- The longest spelling of several kinds. -/
def longest : List Scan → Scan
  | [] => fun _ => none
  | a :: as => a.longer (longest as)

/-- Between `low` and `high` characters of a class, as many as there are. -/
def between (low high : Nat) (p : Char → Bool) : Scan := fun cs =>
  let n := min high (cs.takeWhile p).length
  if low ≤ n then some n else none

/-- Exactly `n` characters of a class. -/
def exactly (n : Nat) (p : Char → Bool) : Scan := between n n p

/-- At least `low` characters of a class. -/
def atLeast (low : Nat) (p : Char → Bool) : Scan := fun cs =>
  let n := (cs.takeWhile p).length
  if low ≤ n then some n else none

/-! ## Numbers -/

def isBinaryDigit (c : Char) : Bool := c == '0' || c == '1'

def isOctalDigit (c : Char) : Bool := '0' ≤ c && c ≤ '7'

def isHexDigit (c : Char) : Bool :=
  c.isDigit || ('a' ≤ c && c ≤ 'f') || ('A' ≤ c && c ≤ 'F')

/-- The length of what goes on with digits, each after at most one `_`. -/
def moreDigits (p : Char → Bool) : List Char → Nat
  | '_' :: d :: cs => if p d then moreDigits p cs + 2 else 0
  | d :: cs => if p d then moreDigits p cs + 1 else 0
  | [] => 0

/-- Digits, single `_` allowed between two of them. -/
def digits (p : Char → Bool) : Scan
  | d :: cs => if p d then some (moreDigits p cs + 1) else none
  | [] => none

def decimalDigits : Scan := digits Char.isDigit

def hexDigits : Scan := digits isHexDigit

def oneOf (s : List Char) : Scan := one s.contains

def underscore : Scan := optional (char '_')

def integer : Scan := longest [
  all [char '0', oneOf ['b', 'B'], underscore, digits isBinaryDigit],
  char '0',
  all [one (fun c => '1' ≤ c && c ≤ '9'), optional (all [underscore, decimalDigits])],
  all [char '0', optional (oneOf ['o', 'O']), underscore, digits isOctalDigit],
  all [char '0', oneOf ['x', 'X'], underscore, hexDigits]]

def exponent (mark : List Char) : Scan :=
  all [oneOf mark, optional (oneOf ['+', '-']), decimalDigits]

def decimalExponent : Scan := exponent ['e', 'E']

def hexMantissa : Scan := longest [
  all [underscore, hexDigits, char '.', optional hexDigits],
  all [underscore, hexDigits],
  all [char '.', hexDigits]]

def float : Scan := longest [
  all [decimalDigits, char '.', optional decimalDigits, optional decimalExponent],
  all [decimalDigits, decimalExponent],
  all [char '.', decimalDigits, optional decimalExponent],
  all [char '0', oneOf ['x', 'X'], hexMantissa, exponent ['p', 'P']]]

/-- A number and the mark of an imaginary one. -/
def imaginary : Scan := all [longest [decimalDigits, integer, float], char 'i']

def number : Scan := longest [integer, float, imaginary]

/-! ## Runes and strings -/

def simpleEscapes : List Char := ['a', 'b', 'f', 'n', 'r', 't', 'v', '\\', '\'', '"']

/-- What stands between the quotes of a rune; a line feed may stand for itself. -/
def runeBody : Scan := longest [
  one (fun c => c != '\'' && c != '\\'),
  all [char '\\', longest [
    all [char 'x', exactly 2 isHexDigit],
    exactly 3 isOctalDigit,
    all [char 'u', exactly 4 isHexDigit],
    all [char 'U', exactly 8 isHexDigit],
    oneOf simpleEscapes]]]

/-- A rune between single quotes. -/
def rune : Scan := all [char '\'', runeBody, char '\'']

/-- An escape inside a string: any character may follow the backslash, but `x`, `u` and `U`
ask for their digits. -/
def escape : Scan := all [char '\\', longest [
  one (fun c => c != 'x' && c != 'u' && c != 'U'),
  between 2 3 Char.isDigit,
  all [char 'x', atLeast 2 isHexDigit],
  all [char 'u', exactly 4 isHexDigit],
  all [char 'U', exactly 8 isHexDigit]]]

def stringContent : Scan := atLeast 1 (fun c => c != '"' && c != '\n' && c != '\\')

def rawContent : Scan := atLeast 0 (· != '`')

/-! ## Words, comments and marks -/

/-- An identifier or a keyword. -/
def word : Scan
  | c :: cs =>
    if Text.isIdentifierStart c then some ((cs.takeWhile Text.isIdentifierContinue).length + 1)
    else none
  | [] => none

/-- The length of a text up to the end of its first `*` `/`. -/
def throughClose : List Char → Option Nat
  | '*' :: '/' :: _ => some 2
  | _ :: cs => (throughClose cs).map (· + 1)
  | [] => none

/-- A comment; a block comment has to be closed. -/
def comment : Scan
  | '/' :: '/' :: cs => some ((cs.takeWhile (· != '\n')).length + 2)
  | '/' :: '*' :: cs => (throughClose cs).map (· + 2)
  | _ => none

/-- The marks of the language, each with its class. -/
def marks : List (List Char × Token) := [
  ([';'], .semicolon), (['.'], .dot), (['.', '.', '.'], .ellipsis), ([','], .comma),
  ([':'], .colon), (['('], .leftParen), ([')'], .rightParen), (['['], .leftBracket),
  ([']'], .rightBracket), (['{'], .leftBrace), (['}'], .rightBrace), (['='], .assign),
  ([':', '='], .define), (['*', '='], .assignOp), (['/', '='], .assignOp),
  (['%', '='], .assignOp), (['<', '<', '='], .assignOp), (['>', '>', '='], .assignOp),
  (['&', '='], .assignOp), (['&', '^', '='], .assignOp), (['+', '='], .assignOp),
  (['-', '='], .assignOp), (['|', '='], .assignOp), (['^', '='], .assignOp),
  (['+', '+'], .increment), (['-', '-'], .decrement), (['<', '-'], .arrow), (['*'], .star),
  (['&'], .ampersand), (['/'], .multiplyOp), (['%'], .multiplyOp), (['<', '<'], .multiplyOp),
  (['>', '>'], .multiplyOp), (['&', '^'], .multiplyOp), (['+'], .sign), (['-'], .sign),
  (['^'], .sign), (['|'], .bar), (['=', '='], .compareOp), (['!', '='], .compareOp),
  (['<'], .compareOp), (['<', '='], .compareOp), (['>'], .compareOp), (['>', '='], .compareOp),
  (['&', '&'], .andOp), (['|', '|'], .orOp), (['!'], .bang), (['~'], .tilde),
  (['`'], .backquote), (['"'], .openQuote)]

/-- The reserved words, which never are identifiers. -/
def reservedWords : List (List Char × Token) := [
  ("package".toList, .kwPackage), ("import".toList, .kwImport), ("const".toList, .kwConst),
  ("var".toList, .kwVar), ("type".toList, .kwType), ("func".toList, .kwFunc),
  ("struct".toList, .kwStruct), ("interface".toList, .kwInterface), ("map".toList, .kwMap),
  ("chan".toList, .kwChan), ("fallthrough".toList, .kwFallthrough),
  ("break".toList, .kwBreak), ("continue".toList, .kwBreak), ("goto".toList, .kwGoto),
  ("return".toList, .kwReturn), ("go".toList, .kwGo), ("defer".toList, .kwGo),
  ("if".toList, .kwIf), ("else".toList, .kwElse), ("for".toList, .kwFor),
  ("range".toList, .kwRange), ("switch".toList, .kwSwitch), ("select".toList, .kwSelect),
  ("case".toList, .kwCase), ("default".toList, .kwDefault)]

/-- The words that are identifiers where the class they name cannot stand. -/
def softWords : List (List Char × Token) := [
  ("nil".toList, .constant), ("true".toList, .constant), ("false".toList, .constant),
  ("iota".toList, .constant), ("new".toList, .allocator), ("make".toList, .allocator)]

end Scan

end FuncSpans.Go
