/-!
# Terminal symbols of Go

The terminals of the grammar are classes of tokens that no rule tells apart: the assignment
operators other than `=` are one class, so are the literals, and so on. A `TokenSet` is a set
of classes, kept as the bits of a number.
-/

namespace FuncSpans.Go

/-- A class of tokens that every rule of the grammar treats alike. -/
inductive Token where
  /-- The end of the text. -/
  | endOfFile
  /-- A line feed or a NUL that ends an item. -/
  | newline
  | semicolon
  | identifier
  /-- Number and rune literals and `nil`, `true`, `false`, `iota`. -/
  | constant
  /-- `new` and `make`. -/
  | allocator
  | kwPackage
  | kwImport
  | kwConst
  | kwVar
  | kwType
  | kwFunc
  | kwStruct
  | kwInterface
  | kwMap
  | kwChan
  | kwFallthrough
  /-- `break` and `continue`. -/
  | kwBreak
  | kwGoto
  | kwReturn
  /-- `go` and `defer`. -/
  | kwGo
  | kwIf
  | kwElse
  | kwFor
  | kwRange
  | kwSwitch
  | kwSelect
  | kwCase
  | kwDefault
  | dot
  | ellipsis
  | comma
  | colon
  | leftParen
  | rightParen
  | leftBracket
  | rightBracket
  | leftBrace
  | rightBrace
  | assign
  /-- `:=` -/
  | define
  /-- An operator followed by `=`, such as `+=`. -/
  | assignOp
  | increment
  | decrement
  /-- `<-` -/
  | arrow
  | star
  | ampersand
  /-- `/`, `%`, `<<`, `>>` and `&^`. -/
  | multiplyOp
  /-- `+`, `-` and `^`. -/
  | sign
  /-- `|` -/
  | bar
  | compareOp
  /-- `&&` -/
  | andOp
  /-- `||` -/
  | orOp
  | bang
  | tilde
  /-- A back quote, at either end of a raw string. -/
  | backquote
  | rawContent
  /-- The quote that opens a string. -/
  | openQuote
  | stringContent
  | escape
  /-- The quote that closes a string. -/
  | closeQuote
  deriving DecidableEq, Repr

/-- A set of terminals. -/
structure TokenSet where
  bits : Nat
  deriving DecidableEq

namespace TokenSet

def empty : TokenSet := ⟨0⟩

def singleton (t : Token) : TokenSet := ⟨1 <<< t.ctorIdx⟩

def union (s t : TokenSet) : TokenSet := ⟨s.bits ||| t.bits⟩

def contains (s : TokenSet) (t : Token) : Bool := s.bits.testBit t.ctorIdx

/-- Whether some token is in both sets. -/
def meets (s t : TokenSet) : Bool := s.bits &&& t.bits != 0

def ofList (ts : List Token) : TokenSet := ts.foldl (fun s t => s.union (singleton t)) empty

instance : Union TokenSet := ⟨union⟩

end TokenSet

end FuncSpans.Go
