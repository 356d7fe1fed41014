import FuncSpans.Go.Cursor
import FuncSpans.Go.Scan

/-!
# Reading one token

What the next token is depends on the tokens that can stand at this point: only those are
looked for, and of them the longest spelling is taken. Blanks and comments are stepped over
first. A line feed is a blank like any other unless the end of an item can stand here. Right
after an operand the end of the text can stand for such a line feed.
-/

namespace FuncSpans.Go

/-- A token with its place. -/
structure Lexeme where
  token : Token
  text : List Char
  start : Cursor
  next : Cursor

namespace Lexeme

/-- Blanks between tokens: the space and the characters U+0009 to U+000D. -/
def isBlank (c : Char) : Bool := c == ' ' || ('\t' ≤ c && c ≤ '\r')

/-- The longer of two candidates, the first one on a tie. -/
def better : Option (Token × Nat) → Option (Token × Nat) → Option (Token × Nat)
  | none, b => b
  | a, none => a
  | some (s, m), some (t, n) => if m < n then some (t, n) else some (s, m)

/-- A scan as a candidate, if its token is wanted. -/
def candidate (wanted : TokenSet) (t : Token) (s : Scan) (cs : List Char) : Option (Token × Nat) :=
  if wanted.contains t then (s cs).map (t, ·) else none

/-- The longest wanted mark at the front of a text. -/
def mark (wanted : TokenSet) (cs : List Char) : Option (Token × Nat) :=
  Scan.marks.foldl (fun best (spelling, t) =>
    if wanted.contains t && spelling.isPrefixOf cs then better best (some (t, spelling.length))
    else best) none

/-- The longest wanted token that is neither a word nor a part of a string. -/
def plain (wanted : TokenSet) (cs : List Char) : Option (Token × Nat) :=
  better (mark wanted cs)
    (better (candidate wanted .constant Scan.number cs)
      (candidate wanted .constant Scan.rune cs))

/-- The wanted part of a string that stands right here. -/
def stringPart (wanted : TokenSet) (cs : List Char) : Option (Token × Nat) :=
  better (candidate wanted .stringContent Scan.stringContent cs)
    (better (candidate wanted .escape Scan.escape cs)
      (candidate wanted .closeQuote (Scan.char '"') cs))

/-- The class of a word: a reserved word is nothing else, another word with a class of its own
has it where that class is wanted and is an identifier elsewhere. -/
def classOfWord (wanted : TokenSet) (w : List Char) : Option Token :=
  let t := match Scan.reservedWords.lookup w with
    | some t => t
    | none => match Scan.softWords.lookup w with
      | some t => if wanted.contains t then t else .identifier
      | none => .identifier
  if wanted.contains t then some t else none

def words : TokenSet := .ofList
  ((Scan.reservedWords ++ Scan.softWords).map (·.2) ++ [.identifier])

/-- What stands at the front of a text. -/
inductive Front where
  | token (t : Token) (length : Nat)
  | comment (length : Nat)
  /-- One blank to step over. -/
  | blank
  /-- Nothing that can stand here. -/
  | unexpected

/-- Looks at the front of a text. Parts of a string are wanted only where no blank has been
stepped over since the token or comment before. -/
def front (wanted : TokenSet) (stepped : Bool) (cs : List Char) : Front :=
  match cs with
  | [] =>
    if wanted.contains .endOfFile then .token .endOfFile 0
    else if wanted.contains .newline && wanted.contains .compareOp then .token .newline 0
    else .unexpected
  | c :: _ =>
    if (c == '\n' || c == '\x00') && wanted.contains .newline then .token .newline 1
    else if wanted.contains .rawContent then
      .token .rawContent ((Scan.rawContent cs).getD 0)
    else
      match if stepped then none else stringPart wanted cs with
      | some (t, n) => .token t n
      | none =>
        match Scan.comment cs with
        | some n => .comment n
        | none =>
          match plain wanted cs with
          | some (t, n) => .token t n
          | none =>
            match Scan.word cs with
            | some n =>
              if wanted.meets words then
                match classOfWord wanted (cs.take n) with
                | some t => .token t n
                | none => .unexpected
              else .unexpected
            | none => if isBlank c then .blank else .unexpected

/-- Steps over the blanks and comments in front of a token. Returns the place behind them, and
whether a blank has been stepped over since the token or comment before. -/
def seek (wanted : TokenSet) : Nat → Bool → Cursor → Bool × Cursor
  | 0, stepped, c => (stepped, c)
  | fuel + 1, stepped, c =>
    match front wanted stepped c.rest with
    | .comment n => seek wanted fuel false (c.skip n)
    | .blank => seek wanted fuel true c.next
    | .token .. | .unexpected => (stepped, c)

/-- The place where a token is looked for. -/
def place (wanted : TokenSet) (c : Cursor) : Bool × Cursor :=
  seek wanted (c.remaining + 1) false c

/-- Reads a token, if one can stand here. -/
def read (wanted : TokenSet) (c : Cursor) : Option Lexeme :=
  let (stepped, c) := place wanted c
  match front wanted stepped c.rest with
  | .token t n => some ⟨t, c.rest.take n, c, c.skip n⟩
  | .comment _ | .blank | .unexpected => none

/-- The first place that is neither in blanks nor in comments. -/
def pastBlanks (c : Cursor) : Cursor := (place .empty c).2

end Lexeme

end FuncSpans.Go
