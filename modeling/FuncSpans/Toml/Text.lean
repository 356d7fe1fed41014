import FuncSpans.Text.Character

/-!
# Strings of TOML

A string is in quotes or apostrophes, one or three of them. Escapes count between quotes only.
Three of them allow line ends, which are read as line feeds, and up to two of them in a row as
part of the text.
-/

namespace FuncSpans.Toml

/-- A blank within a line. -/
def isBlank (c : Char) : Bool := c == ' ' || c == '\t'

def skipBlank (cs : List Char) : List Char := cs.dropWhile isBlank

/-- A character that may stand in a comment or in a string. -/
def isPlain (c : Char) : Bool := c == '\t' || (0x20 ≤ c.toNat && c != '\x7f')

/-- Takes a line end. -/
def lineEnd? : List Char → Option (List Char)
  | '\n' :: rest => some rest
  | '\r' :: '\n' :: rest => some rest
  | _ => none

/-- What a letter after a backslash stands for. -/
def escaped? : Char → Option Char
  | 'b' => some '\x08'
  | 't' => some '\t'
  | 'n' => some '\n'
  | 'f' => some '\x0c'
  | 'r' => some '\r'
  | '"' => some '"'
  | '\\' => some '\\'
  | _ => none

/-- Puts an item before those that have been read. -/
def consRead {α : Type} (x : Option α) (r : Option (List α × List Char)) :
    Option (List α × List Char) :=
  match x, r with
  | some x, some (xs, rest) => some (x :: xs, rest)
  | _, _ => none

/-- The character with some hexadecimal digits. -/
def hexChar? (ds : List Char) : Option Char := (Text.hexNumber? ds).bind Text.charOf?

/-- Reads a string on one line after its quote. -/
def readQuoted : List Char → Option (List Char × List Char)
  | [] => none
  | '"' :: rest => some ([], rest)
  | '\\' :: 'u' :: a :: b :: c :: d :: rest =>
    consRead (hexChar? [a, b, c, d]) (readQuoted rest)
  | '\\' :: 'U' :: a :: b :: c :: d :: e :: f :: g :: h :: rest =>
    consRead (hexChar? [a, b, c, d, e, f, g, h]) (readQuoted rest)
  | '\\' :: c :: rest => consRead (escaped? c) (readQuoted rest)
  | c :: rest => if isPlain c then consRead (some c) (readQuoted rest) else none

/-- Reads a string on one line after its apostrophe. -/
def readLiteral : List Char → Option (List Char × List Char)
  | [] => none
  | '\'' :: rest => some ([], rest)
  | c :: rest => if isPlain c then consRead (some c) (readLiteral rest) else none

/-- Reads a string over several lines after its apostrophes. -/
def readLongLiteral : List Char → Option (List Char × List Char)
  | [] => none
  | '\'' :: '\'' :: '\'' :: '\'' :: '\'' :: rest => some (['\'', '\''], rest)
  | '\'' :: '\'' :: '\'' :: '\'' :: rest => some (['\''], rest)
  | '\'' :: '\'' :: '\'' :: rest => some ([], rest)
  | '\r' :: '\n' :: rest => consRead (some '\n') (readLongLiteral rest)
  | c :: rest =>
    if isPlain c || c == '\n' then consRead (some c) (readLongLiteral rest) else none

/-- A piece of a string with escapes over several lines. -/
inductive Piece where
  /-- A character as it is written. -/
  | plain (c : Char)
  /-- A character by an escape. -/
  | escaped (c : Char)
  /-- A backslash at the end of a line. -/
  | joint
  deriving DecidableEq, Repr

/-- Reads the pieces of a string over several lines after its quotes. -/
def readPieces : List Char → Option (List Piece × List Char)
  | [] => none
  | '"' :: '"' :: '"' :: '"' :: '"' :: rest => some ([.plain '"', .plain '"'], rest)
  | '"' :: '"' :: '"' :: '"' :: rest => some ([.plain '"'], rest)
  | '"' :: '"' :: '"' :: rest => some ([], rest)
  | '\\' :: 'u' :: a :: b :: c :: d :: rest =>
    consRead ((hexChar? [a, b, c, d]).map .escaped) (readPieces rest)
  | '\\' :: 'U' :: a :: b :: c :: d :: e :: f :: g :: h :: rest =>
    consRead ((hexChar? [a, b, c, d, e, f, g, h]).map .escaped) (readPieces rest)
  | '\\' :: c :: rest =>
    if isBlank c || c == '\n' || c == '\r' then consRead (some .joint) (readPieces (c :: rest))
    else consRead ((escaped? c).map .escaped) (readPieces rest)
  | '\r' :: '\n' :: rest => consRead (some (.plain '\n')) (readPieces rest)
  | c :: rest =>
    if isPlain c || c == '\n' then consRead (some (.plain c)) (readPieces rest) else none

/-- What has been seen of a joint. -/
inductive Gap where
  /-- There is none. -/
  | closed
  /-- The line end is still to come. -/
  | before
  /-- White space does not count until something else comes. -/
  | after
  deriving DecidableEq, Repr

/-- The text of some pieces. A joint takes the line end after it away, and all white space
after that. -/
def textOf? : Gap → List Piece → Option (List Char)
  | .before, [] => none
  | _, [] => some []
  | .before, .plain c :: ps =>
    if c = '\n' then textOf? .after ps else if isBlank c then textOf? .before ps else none
  | .before, _ :: _ => none
  | .after, .plain c :: ps =>
    if c = '\n' || isBlank c then textOf? .after ps else (textOf? .closed ps).map (c :: ·)
  | .closed, .plain c :: ps => (textOf? .closed ps).map (c :: ·)
  | _, .escaped c :: ps => (textOf? .closed ps).map (c :: ·)
  | _, .joint :: ps => textOf? .before ps

/-- Reads a string with escapes over several lines after its quotes. -/
def readLongQuoted (cs : List Char) : Option (List Char × List Char) :=
  match readPieces cs with
  | none => none
  | some (ps, rest) => (textOf? .closed ps).map (·, rest)

/-- A text without the line end at its start. -/
def dropLineEnd (cs : List Char) : List Char := (lineEnd? cs).getD cs

/-- Reads a string. -/
def readText : List Char → Option (List Char × List Char)
  | '"' :: '"' :: '"' :: rest => readLongQuoted (dropLineEnd rest)
  | '"' :: rest => readQuoted rest
  | '\'' :: '\'' :: '\'' :: rest => readLongLiteral (dropLineEnd rest)
  | '\'' :: rest => readLiteral rest
  | _ => none

end FuncSpans.Toml
