import FuncSpans.Json.Reader

/-!
# Printing JSON

Values are printed over several lines: each element and each member has a line of its own,
indented by two blanks per level. Only quotes, backslashes and control characters are escaped.
-/

namespace FuncSpans.Json

/-- A hexadecimal digit in lower case. -/
def hexDigit (n : Nat) : Char := Nat.digitChar n

/-- A character inside quotes. -/
def escapeChar (c : Char) : List Char :=
  if c = '"' then ['\\', '"']
  else if c = '\\' then ['\\', '\\']
  else if c = '\n' then ['\\', 'n']
  else if c = '\r' then ['\\', 'r']
  else if c = '\t' then ['\\', 't']
  else if c = '\x08' then ['\\', 'b']
  else if c = '\x0c' then ['\\', 'f']
  else if c.toNat < 0x20 then
    ['\\', 'u', '0', '0', hexDigit (c.toNat / 16), hexDigit (c.toNat % 16)]
  else [c]

/-- A text in quotes. -/
def quote (cs : List Char) : List Char := '"' :: cs.flatMap escapeChar ++ ['"']

/-- The start of a line at some depth. -/
def lineStart (depth : Nat) : List Char := '\n' :: List.replicate (2 * depth) ' '

mutual

/-- Prints a value whose first character stands at some depth. -/
def print (depth : Nat) : Json → List Char
  | .null => ['n', 'u', 'l', 'l']
  | .bool true => ['t', 'r', 'u', 'e']
  | .bool false => ['f', 'a', 'l', 's', 'e']
  | .number spelling => spelling
  | .string text => quote text
  | .broken => quote ['\uFFFD']
  | .array [] => ['[', ']']
  | .array (e :: es) =>
    '[' :: lineStart (depth + 1) ++ print (depth + 1) e ++ printElements (depth + 1) es ++
      lineStart depth ++ [']']
  | .object [] => ['{', '}']
  | .object ((k, v) :: ms) =>
    '{' :: lineStart (depth + 1) ++ quote k ++ [':', ' '] ++ print (depth + 1) v ++
      printMembers (depth + 1) ms ++ lineStart depth ++ ['}']

/-- Prints the elements after the first one. -/
def printElements (depth : Nat) : List Json → List Char
  | [] => []
  | e :: es => ',' :: lineStart depth ++ print depth e ++ printElements depth es

/-- Prints the members after the first one. -/
def printMembers (depth : Nat) : List (List Char × Json) → List Char
  | [] => []
  | (k, v) :: ms =>
    ',' :: lineStart depth ++ quote k ++ [':', ' '] ++ print depth v ++ printMembers depth ms

end

end FuncSpans.Json
