import FuncSpans.Go.Lexeme
import FuncSpans.Go.Repair.Tree

/-!
# What comes next in a text with faults

Where no token that the grammar wants can be read, any token at all is looked for. Characters
that spell none are put together into one fault. Comments are not stepped over: a repair can
stand on either side of one.
-/

namespace FuncSpans.Go.Repair

/-- What comes next. -/
structure Lookahead where
  tree : Tree
  /-- Its token; a comment and a fault have none. -/
  token : Option Token
  /-- Whether it is a word that may also be an identifier. -/
  soft : Bool

namespace Lookahead

/-- The tokens that are looked for where nothing is known of what can stand there. -/
def anything : TokenSet :=
  ⟨(1 <<< (Token.closeQuote.ctorIdx + 1)) - 1 -
    (TokenSet.ofList [.newline, .rawContent, .stringContent]).bits⟩

/-- What has been found at a place. -/
structure Found where
  /-- The token, or none for a comment. -/
  token : Option Token
  start : Cursor
  length : Nat

/-- Looks for a token or comment, stepping over blanks; else the place where none can be read. -/
def search (wanted : TokenSet) : Nat → Bool → Cursor → Except Cursor Found
  | 0, _, c => .error c
  | fuel + 1, stepped, c =>
    match Lexeme.front wanted stepped c.rest with
    | .token t n => .ok ⟨some t, c, n⟩
    | .comment n => .ok ⟨none, c, n⟩
    | .blank => search wanted fuel true c.next
    | .unexpected => .error c

def find (wanted : TokenSet) (c : Cursor) : Except Cursor Found :=
  search wanted (c.remaining + 1) false c

/-- The end of the characters that spell no token, the last of which is just before a place. -/
def faultEnd : Nat → Cursor → Cursor
  | 0, c => c
  | fuel + 1, c =>
    match find anything c with
    | .ok _ => c
    | .error d => faultEnd fuel d.next

/-- The class of a word where some tokens are wanted. A reserved word is an identifier only
where neither itself nor an identifier is wanted. -/
def classOfWord (wanted : Option TokenSet) (t : Token) (word : List Char) : Token × Bool :=
  let wants := fun t => (wanted.map (·.contains t)).getD true
  match Scan.reservedWords.lookup word, Scan.softWords.lookup word with
  | some r, _ => (if wants r || wants .identifier then r else .identifier, false)
  | none, some s => if wants s then (s, true) else (.identifier, false)
  | none, none => (t, false)

/-- What has been found, as a tree. -/
def ofFound (wanted : Option TokenSet) (c : Cursor) (f : Found) : Lookahead :=
  let span : Span := ⟨c, f.start, f.start.skip f.length⟩
  match f.token with
  | none => ⟨.leaf .comment span, none, false⟩
  | some t =>
    let (t, soft) :=
      if Lexeme.words.contains t then classOfWord wanted t (f.start.rest.take f.length)
      else (t, false)
    ⟨.leaf (.symbol (.token t)) span, some t, soft⟩

/-- Reads what comes next, where some tokens are wanted or nothing is known. -/
def read (wanted : Option TokenSet) (c : Cursor) : Lookahead :=
  match wanted.map (find · c) with
  | some (.ok f) => ofFound wanted c f
  | _ =>
    match find anything c with
    | .ok f => ofFound wanted c f
    | .error d => ⟨.leaf .fault ⟨c, d, faultEnd c.remaining d.next⟩, none, false⟩

def isEnd (a : Lookahead) : Bool := a.token == some .endOfFile

/-- A soft word taken as an identifier. -/
def asIdentifier (a : Lookahead) : Lookahead :=
  ⟨{ a.tree with kind := .symbol (.token .identifier) }, some .identifier, false⟩

end Lookahead

end FuncSpans.Go.Repair
