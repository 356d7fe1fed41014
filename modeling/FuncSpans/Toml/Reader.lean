import FuncSpans.Toml.Basic
import FuncSpans.Toml.Moment
import FuncSpans.Toml.Table
import FuncSpans.Toml.Text

/-!
# Reading TOML

A text is read line by line. A line is blank, defines a key, or is the header of the lines
after it; a value may go over several lines if it is a string or an array.
-/

namespace FuncSpans.Toml

/-! ## Keys -/

/-- A character of a key without quotes. -/
def isBare (c : Char) : Bool := c.isAlphanum || c == '_' || c == '-'

/-- Reads a part of a key. -/
def readKeyPart : List Char → Option (Key × List Char)
  | '"' :: rest => readQuoted rest
  | '\'' :: rest => readLiteral rest
  | cs => match cs.takeWhile isBare with
    | [] => none
    | key => some (key, cs.dropWhile isBare)

/-- Reads the parts of a dotted key, and the blanks around them. -/
def readKeyParts : Nat → List Char → Option (List Key × List Char)
  | 0, _ => none
  | fuel + 1, cs => match readKeyPart (skipBlank cs) with
    | none => none
    | some (key, rest) => match skipBlank rest with
      | '.' :: rest => (readKeyParts fuel rest).map fun (keys, rest) => (key :: keys, rest)
      | rest => some ([key], rest)

/-- How deep arrays and tables in braces may be in one another, and how many parts a key may
have. -/
def mostNesting : Nat := 79

/-- Reads a key. -/
def readKey (cs : List Char) : Option (List Key × List Char) :=
  match readKeyParts (cs.length + 1) cs with
  | some (keys, rest) => if keys.length ≤ mostNesting then some (keys, rest) else none
  | none => none

/-! ## Values -/

/-- A comment up to the end of its line, if there is one. -/
def skipComment : List Char → List Char
  | '#' :: rest => rest.dropWhile isPlain
  | cs => cs

/-- Skips blanks, line ends and comments. -/
def skipLines : Nat → List Char → List Char
  | 0, cs => cs
  | fuel + 1, cs => match skipBlank cs with
    | '#' :: rest => skipLines fuel (rest.dropWhile isPlain)
    | cs => match lineEnd? cs with
      | some rest => skipLines fuel rest
      | none => cs

/-- A character of a value without quotes and brackets. -/
def isWordChar (c : Char) : Bool :=
  c.isAlphanum || c == '_' || c == '-' || c == '+' || c == '.' || c == ':'

/-- The value that a word is. -/
def ofWord? (word : List Char) : Option Toml :=
  if word = ['t', 'r', 'u', 'e'] then some (.bool true)
  else if word = ['f', 'a', 'l', 's', 'e'] then some (.bool false)
  else if isMoment word then some (.moment word)
  else if isFloat word then some (.float word)
  else (integer? word).map .integer

/-- Reads a value without quotes and brackets. A blank may stand between a date and a time. -/
def readWord (cs : List Char) : Option (Toml × List Char) :=
  let word := cs.takeWhile isWordChar
  let rest := cs.dropWhile isWordChar
  match readDate word, rest with
  | some [], ' ' :: d :: rest =>
    if d.isDigit then
      let time := (d :: rest).takeWhile isWordChar
      if isTimeOfMoment time then
        some (.moment (word ++ ' ' :: time), (d :: rest).dropWhile isWordChar)
      else none
    else some (.moment word, ' ' :: d :: rest)
  | _, _ => (ofWord? word).map (·, rest)

mutual

/-- Reads a value. `room` is how deep it may be. -/
def readValue : Nat → Nat → List Char → Option (Toml × List Char)
  | 0, _, _ => none
  | fuel + 1, room, cs => match cs with
    | '"' :: _ | '\'' :: _ => (readText cs).map fun (t, rest) => (.text t, rest)
    | '[' :: rest => match room with
      | 0 => none
      | room + 1 => (readElements fuel room rest).map fun (es, rest) => (.array es, rest)
    | '{' :: rest => match room with
      | 0 => none
      | room + 1 => match skipBlank rest with
        | '}' :: rest => some (.inline [], rest)
        | rest => match readMembers fuel room [] rest with
          | some (ms, rest) => some (.inline ms, rest)
          | none => none
    | cs => readWord cs

/-- Reads elements up to the bracket after them. -/
def readElements : Nat → Nat → List Char → Option (List Toml × List Char)
  | 0, _, _ => none
  | fuel + 1, room, cs => match skipLines cs.length cs with
    | ']' :: rest => some ([], rest)
    | cs => match readValue fuel room cs with
      | none => none
      | some (v, rest) => match skipLines rest.length rest with
        | ',' :: rest => (readElements fuel room rest).map fun (vs, rest) => (v :: vs, rest)
        | ']' :: rest => some ([v], rest)
        | _ => none

/-- Reads members up to the brace after them, and adds them to those before. -/
def readMembers : Nat → Nat → Members → List Char → Option (Members × List Char)
  | 0, _, _, _ => none
  | fuel + 1, room, before, cs => match readKey cs with
    | some (key, '=' :: rest) => match readValue fuel room (skipBlank rest) with
      | none => none
      | some (v, rest) => match Members.define key v before with
        | none => none
        | some members => match skipBlank rest with
          | ',' :: rest => readMembers fuel room members rest
          | '}' :: rest => some (members, rest)
          | _ => none
    | _ => none

end

/-! ## Lines -/

/-- A line that counts. -/
inductive Line where
  | define (key : List Key) (value : Toml)
  | header (key : List Key)
  /-- A header in double brackets. -/
  | element (key : List Key)

/-- Reads the end of a line, and a comment before it. -/
def readLineEnd (cs : List Char) : Option (List Char) :=
  match skipComment (skipBlank cs) with
  | [] => some []
  | cs => lineEnd? cs

/-- Reads a line that starts with something other than a blank, up to its end. -/
def readLine (cs : List Char) : Option (Line × List Char) :=
  match cs with
  | '[' :: '[' :: rest => match readKey rest with
    | some (key, ']' :: ']' :: rest) => some (.element key, rest)
    | _ => none
  | '[' :: rest => match readKey rest with
    | some (key, ']' :: rest) => some (.header key, rest)
    | _ => none
  | cs => match readKey cs with
    | some (key, '=' :: rest) =>
      let rest := skipBlank rest
      (readValue (2 * rest.length + 2) mostNesting rest).map fun (v, rest) => (.define key v, rest)
    | _ => none

/-- Reads lines. -/
def readLines : Nat → List Char → Option (List Line)
  | 0, _ => none
  | fuel + 1, cs => match skipLines cs.length cs with
    | [] => some []
    | cs => match readLine cs with
      | none => none
      | some (line, rest) => match readLineEnd rest with
        | none => none
        | some rest => (readLines fuel rest).map (line :: ·)

/-! ## Documents -/

/-- The definitions up to the first header, and those after each header. -/
def sections : List Line → List (List Key × Toml) × List Section
  | [] => ([], [])
  | .define key v :: lines =>
    let (ds, ss) := sections lines
    ((key, v) :: ds, ss)
  | .header key :: lines =>
    let (ds, ss) := sections lines
    ([], ⟨false, key, ds⟩ :: ss)
  | .element key :: lines =>
    let (ds, ss) := sections lines
    ([], ⟨true, key, ds⟩ :: ss)

/-- Reads a text. A byte order mark at its start does not count. -/
def read (cs : List Char) : Option Members :=
  let cs := match cs with
    | '\uFEFF' :: rest => rest
    | cs => cs
  match readLines (cs.length + 1) cs with
  | none => none
  | some lines =>
    let (ds, ss) := sections lines
    (Members.defineAll ds []).bind (Members.addSections ss)

end FuncSpans.Toml
