import FuncSpans.Go.Grammar

/-!
# Left corners

The left corners of a phrase are the phrases that one of its derivations can start with. For
each corner the table knows the tokens that may follow it inside the phrase, and whether it
can reach to the end of the phrase, so that what follows the phrase may follow it too.
-/

namespace FuncSpans.Go

/-- A phrase that can start another one. -/
structure Corner where
  phrase : Phrase
  /-- The tokens that may follow the corner inside the whole phrase. -/
  ahead : TokenSet
  /-- Whether the corner can be the whole phrase. -/
  atEnd : Bool

namespace Corner

/-- Whether the second corner adds nothing to the first. -/
def covers (a b : Corner) : Bool :=
  a.ahead.union b.ahead == a.ahead && (a.atEnd || !b.atEnd)

/-- Adds a corner to a table; the flag says whether the table has changed. -/
def insert (b : Corner) : List Corner → List Corner × Bool
  | [] => ([b], true)
  | a :: as =>
    if a.phrase = b.phrase then
      if a.covers b then (a :: as, false)
      else (⟨a.phrase, a.ahead.union b.ahead, a.atEnd || b.atEnd⟩ :: as, true)
    else
      let (as, changed) := insert b as
      (a :: as, changed)

/-- The tokens that can start a symbol, given those of the phrases. -/
def starts (first : Phrase → TokenSet) : Symbol → TokenSet
  | .token t => .singleton t
  | .phrase x => first x

/-- The corners that the productions of a corner add. -/
def children (first : Phrase → TokenSet) (productions : List Production) (a : Corner) :
    List Corner :=
  productions.filterMap fun r =>
    match r.symbols with
    | .phrase x :: [] => some ⟨x, a.ahead, a.atEnd⟩
    | .phrase x :: s :: _ => some ⟨x, starts first s, false⟩
    | _ => none

/-- Adds the children of every corner once. -/
def grow (first : Phrase → TokenSet) (productions : Phrase → List Production)
    (table : List Corner) : List Corner × Bool :=
  table.foldl (fun acc a =>
    (children first (productions a.phrase) a).foldl (fun (table, changed) b =>
      let (table, more) := insert b table
      (table, changed || more)) acc) (table, false)

/-- Adds children until nothing changes, at most `fuel` times. -/
def close (first : Phrase → TokenSet) (productions : Phrase → List Production) :
    Nat → List Corner → List Corner
  | 0, table => table
  | fuel + 1, table =>
    match grow first productions table with
    | (table, true) => close first productions fuel table
    | (table, false) => table

end Corner

/-! ## Tables -/

namespace Grammar

/-- How many phrases there are. -/
def phraseCount : Nat := Phrase.fileItems.ctorIdx + 1

/-- A function on phrases, evaluated once for each of them. -/
def tabulate {α : Type} (f : Phrase → α) : Array α :=
  (Array.range phraseCount).map fun i => f (Phrase.ofNat i)

def productionTable : Array (List Production) := tabulate productions

def productionsOf (x : Phrase) : List Production := productionTable.getD x.ctorIdx []

/-- The phrases at the left edge of a phrase, whatever follows them. -/
def cornersAlone (x : Phrase) : List Corner :=
  Corner.close (fun _ => .empty) productionsOf phraseCount [⟨x, .empty, true⟩]

/-- The tokens that a production starts with by itself. -/
def ownStart (r : Production) : TokenSet :=
  match r.symbols with
  | .token t :: _ => .singleton t
  | _ => .empty

/-- The tokens that can start a phrase. -/
def firstOf (x : Phrase) : TokenSet :=
  (cornersAlone x).foldl (fun s c =>
    (productionsOf c.phrase).foldl (fun s r => s.union (ownStart r)) s) .empty

def firstTable : Array TokenSet := tabulate firstOf

/-- The tokens that can start a phrase, from the table. -/
def first (x : Phrase) : TokenSet := firstTable.getD x.ctorIdx .empty

/-- The tokens that can start a symbol. -/
def firstOfSymbol : Symbol → TokenSet := Corner.starts first

def cornerTable : Array (List Corner) := tabulate fun x =>
  Corner.close first productionsOf (2 * phraseCount) [⟨x, .empty, true⟩]

/-- The left corners of a phrase, from the table. -/
def corners (x : Phrase) : List Corner := cornerTable.getD x.ctorIdx []

/-- A production that can start a phrase. -/
structure Opening where
  production : Production
  ahead : TokenSet
  atEnd : Bool

/-- The productions at the left edge of a phrase that start with a symbol. -/
def openingsOf (x : Phrase) (s : Symbol) : List Opening :=
  (corners x).flatMap fun c => (productionsOf c.phrase).filterMap fun r =>
    if r.symbols.head? = some s then some ⟨r, c.ahead, c.atEnd⟩ else none

end Grammar

end FuncSpans.Go
