import FuncSpans.Text.Character

/-!
# JSON values

A number is kept as it is spelled, so that no digit is lost. The members of an object are kept
in order, with repetitions. An escape in a string may stand for half of a surrogate pair; a
string without the other half is a value, but it has no text.

`Json.read` accepts a value with white space around it and nothing else. A step of the reader
answers with what it has read and with the rest of the text.
-/

namespace FuncSpans

/-- A JSON value. -/
inductive Json where
  | null
  | bool (b : Bool)
  | number (spelling : List Char)
  | string (text : List Char)
  | array (elements : List Json)
  | object (members : List (List Char × Json))
  /-- A string without a text, or an object with such a string as a name. -/
  | broken

namespace Json

/-- White space between tokens. -/
def isBlank (c : Char) : Bool := c == ' ' || c == '\t' || c == '\n' || c == '\r'

def skipBlank (cs : List Char) : List Char := cs.dropWhile isBlank

/-! ## Strings -/

/-- What a letter after a backslash stands for. -/
def escaped? : Char → Option Nat
  | '"' => some '"'.toNat
  | '\\' => some '\\'.toNat
  | '/' => some '/'.toNat
  | 'b' => some 0x08
  | 'f' => some 0x0C
  | 'n' => some '\n'.toNat
  | 'r' => some '\r'.toNat
  | 't' => some '\t'.toNat
  | _ => none

/-- Puts a code before those that have been read. -/
def consCode (n : Option Nat) (r : Option (List Nat × List Char)) :
    Option (List Nat × List Char) :=
  match n, r with
  | some n, some (ns, rest) => some (n :: ns, rest)
  | _, _ => none

/-- Reads the codes of a string up to its closing quote. -/
def readCodes : List Char → Option (List Nat × List Char)
  | [] => none
  | '"' :: rest => some ([], rest)
  | '\\' :: 'u' :: a :: b :: c :: d :: rest =>
    consCode (Text.hexNumber? [a, b, c, d]) (readCodes rest)
  | '\\' :: c :: rest => consCode (escaped? c) (readCodes rest)
  | c :: rest => if c.toNat < 0x20 then none else consCode (some c.toNat) (readCodes rest)

/-- Whether a code is the first half of a surrogate pair. -/
def isHighHalf (n : Nat) : Bool := 0xD800 ≤ n && n < 0xDC00

/-- Whether a code is the second half of a surrogate pair. -/
def isLowHalf (n : Nat) : Bool := 0xDC00 ≤ n && n < 0xE000

/-- The text of some codes; `none` if half of a pair stands alone. -/
def textOf? : List Nat → Option (List Char)
  | [] => some []
  | n :: ns =>
    if isHighHalf n then
      match ns with
      | [] => none
      | m :: ms =>
        if isLowHalf m then
          (textOf? ms).map (Char.ofNat (0x10000 + (n - 0xD800) * 0x400 + (m - 0xDC00)) :: ·)
        else none
    else if isLowHalf n then none
    else (textOf? ns).map (Char.ofNat n :: ·)

/-- Reads a string after its opening quote; the text is `none` if it has none. -/
def readString (cs : List Char) : Option (Option (List Char) × List Char) :=
  (readCodes cs).map fun (ns, rest) => (textOf? ns, rest)

/-! ## Numbers -/

/-- Takes at least one digit. -/
def readDigits (cs : List Char) : Option (List Char × List Char) :=
  match cs.takeWhile Char.isDigit with
  | [] => none
  | ds => some (ds, cs.dropWhile Char.isDigit)

/-- Takes a whole number; only 0 itself starts with a zero. -/
def readWhole : List Char → Option (List Char × List Char)
  | '0' :: rest => if rest.head?.any Char.isDigit then none else some (['0'], rest)
  | cs => readDigits cs

/-- Takes a fraction, if there is one. -/
def readFraction : List Char → Option (List Char × List Char)
  | '.' :: rest => (readDigits rest).map fun (ds, rest) => ('.' :: ds, rest)
  | cs => some ([], cs)

/-- Takes an exponent, if there is one. -/
def readExponent : List Char → Option (List Char × List Char)
  | c :: rest =>
    if c = 'e' ∨ c = 'E' then
      match rest with
      | '+' :: rest => (readDigits rest).map fun (ds, rest) => (c :: '+' :: ds, rest)
      | '-' :: rest => (readDigits rest).map fun (ds, rest) => (c :: '-' :: ds, rest)
      | rest => (readDigits rest).map fun (ds, rest) => (c :: ds, rest)
    else some ([], c :: rest)
  | [] => some ([], [])

/-- Takes a number without a sign. -/
def readUnsigned (cs : List Char) : Option (List Char × List Char) :=
  (readWhole cs).bind fun (whole, cs) =>
    (readFraction cs).bind fun (fraction, cs) =>
      (readExponent cs).map fun (exponent, cs) => (whole ++ fraction ++ exponent, cs)

/-- Takes a number. -/
def readNumber : List Char → Option (List Char × List Char)
  | '-' :: rest => (readUnsigned rest).map fun (ds, rest) => ('-' :: ds, rest)
  | cs => readUnsigned cs

/-! ## Values -/

/-- An object with one more member. A name without a text breaks it. -/
def consMember (name : Option (List Char)) (value : Json) : Json → Json
  | .object members => match name with
    | some name => .object ((name, value) :: members)
    | none => .broken
  | j => j

mutual

/-- Reads a value. -/
def readValue : Nat → List Char → Option (Json × List Char)
  | 0, _ => none
  | fuel + 1, cs => match skipBlank cs with
    | 'n' :: 'u' :: 'l' :: 'l' :: rest => some (.null, rest)
    | 't' :: 'r' :: 'u' :: 'e' :: rest => some (.bool true, rest)
    | 'f' :: 'a' :: 'l' :: 's' :: 'e' :: rest => some (.bool false, rest)
    | '"' :: rest => (readString rest).map fun (text, rest) =>
        ((text.map Json.string).getD .broken, rest)
    | '[' :: rest => match skipBlank rest with
      | ']' :: rest => some (.array [], rest)
      | rest => (readElements fuel rest).map fun (es, rest) => (.array es, rest)
    | '{' :: rest => match skipBlank rest with
      | '}' :: rest => some (.object [], rest)
      | rest => readMembers fuel rest
    | cs => (readNumber cs).map fun (spelling, rest) => (.number spelling, rest)

/-- Reads elements up to the bracket after them. -/
def readElements : Nat → List Char → Option (List Json × List Char)
  | 0, _ => none
  | fuel + 1, cs => match readValue fuel cs with
    | none => none
    | some (e, rest) => match skipBlank rest with
      | ',' :: rest => (readElements fuel rest).map fun (es, rest) => (e :: es, rest)
      | ']' :: rest => some ([e], rest)
      | _ => none

/-- Reads members up to the brace after them, as an object. -/
def readMembers : Nat → List Char → Option (Json × List Char)
  | 0, _ => none
  | fuel + 1, cs => match skipBlank cs with
    | '"' :: rest => match readString rest with
      | none => none
      | some (name, rest) => match skipBlank rest with
        | ':' :: rest => match readValue fuel rest with
          | none => none
          | some (v, rest) => match skipBlank rest with
            | ',' :: rest => (readMembers fuel rest).map fun (ms, rest) =>
                (consMember name v ms, rest)
            | '}' :: rest => some (consMember name v (.object []), rest)
            | _ => none
        | _ => none
    | _ => none

end

/-- Reads a text that is one value. -/
def read (cs : List Char) : Option Json :=
  match readValue (2 * cs.length + 2) cs with
  | some (v, rest) => if skipBlank rest = [] then some v else none
  | none => none

end Json

end FuncSpans
