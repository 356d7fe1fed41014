import FuncSpans.Go.Corner

/-!
# States of the parser

A state is the set of productions that may be under way at a place, each with what is left of
it and the tokens that may follow it. `State.advance` steps over a symbol; `State.ended` and
`State.shifts` say what a token that comes next allows. Where it would allow both to end a
production and to go on with another one, levels decide, then associativity; where these are
silent the choice is left open, and both ways are followed.
-/

namespace FuncSpans.Go

/-- A production under way. -/
structure Item where
  production : Production
  /-- What is left of its symbols. -/
  rest : List Symbol
  /-- The tokens that may follow it. -/
  ahead : TokenSet

namespace Item

/-- A number for the production and the place in it. -/
def key (i : Item) : Nat :=
  (i.production.phrase.ctorIdx * 64 + i.production.index) * 16 + i.rest.length

/-- Whether the item is a whole item of a file. -/
def endsItem (i : Item) : Bool := i.production.phrase = .item && i.rest.isEmpty

/-- Adds an item to a list ordered by key; items of one key are joined. -/
def insert (a : Item) : List Item → List Item
  | [] => [a]
  | b :: bs =>
    if a.key < b.key then a :: b :: bs
    else if a.key = b.key then ⟨b.production, b.rest, b.ahead.union a.ahead⟩ :: bs
    else b :: insert a bs

end Item

/-- The productions under way at a place, ordered by key. -/
structure State where
  items : List Item

namespace State

/-- Whether two states have the same items. -/
def same (s t : State) : Bool :=
  go s.items t.items
where
  go : List Item → List Item → Bool
    | [], [] => true
    | a :: as, b :: bs => a.key == b.key && a.ahead == b.ahead && go as bs
    | _, _ => false

/-- The phrases that may start here, each with what may follow it. -/
def heads (s : State) : List (Phrase × TokenSet) :=
  s.items.foldl (fun heads i =>
    match i.rest with
    | .phrase x :: rest =>
      let ahead := match rest with
        | [] => i.ahead
        | y :: _ => Grammar.firstOfSymbol y
      add x ahead heads
    | _ => heads) []
where
  add (x : Phrase) (ahead : TokenSet) : List (Phrase × TokenSet) → List (Phrase × TokenSet)
    | [] => [(x, ahead)]
    | (y, a) :: hs => if x = y then (y, a.union ahead) :: hs else (y, a) :: add x ahead hs

/-- The state after a symbol. -/
def advance (s : State) (x : Symbol) : State :=
  let moved := s.items.foldl (fun acc i =>
    match i.rest with
    | y :: rest => if y = x then Item.insert ⟨i.production, rest, i.ahead⟩ acc else acc
    | [] => acc) []
  ⟨s.heads.foldl (fun acc (h, ahead) =>
    (Grammar.openingsOf h x).foldl (fun acc o =>
      Item.insert ⟨o.production, o.production.symbols.drop 1,
        if o.atEnd then o.ahead.union ahead else o.ahead⟩ acc) acc) moved⟩

/-- Whether a whole item of a file has been read. -/
def isWhole (s : State) : Bool := s.items.any Item.endsItem

/-- The tokens that can come next. -/
def wanted (s : State) : TokenSet :=
  s.items.foldl (fun acc i =>
    acc.union (match i.rest with
      | [] => i.ahead
      | x :: _ => Grammar.firstOfSymbol x)) .empty

/-- Whether some item goes on with a token. -/
def goesOn (s : State) (t : Token) : Bool :=
  s.items.any fun i => match i.rest with
    | [] => false
    | x :: _ => (Grammar.firstOfSymbol x).contains t

/-- The productions that may end before a token. -/
def endings (s : State) (t : Token) : List Production :=
  s.items.filterMap fun i =>
    if i.rest.isEmpty && i.ahead.contains t then some i.production else none

/-- The productions of the highest level among some. -/
def tightest (rs : List Production) : List Production :=
  rs.filter fun r => rs.all fun r' => r'.level ≤ r.level

/-- The levels of the productions that go on with a token. -/
def rivalLevels (s : State) (t : Token) : List Int :=
  s.items.filterMap fun i => match i.rest with
    | [] => none
    | x :: _ =>
      if (Grammar.firstOfSymbol x).contains t then some i.production.level else none

/-- What a token that comes next allows. -/
structure Choice where
  /-- The productions to end. -/
  ended : List Production
  /-- Whether to go on with the token. -/
  shifts : Bool

/-- The choice before a token. -/
def choose (s : State) (t : Token) : Choice :=
  let ended := tightest (s.endings t)
  match ended, s.goesOn t with
  | [], shifts => ⟨[], shifts⟩
  | ended, false => ⟨ended, false⟩
  | e :: es, true =>
    let rivals := s.rivalLevels t
    let more := rivals.any (e.level < ·)
    let less := rivals.any (· < e.level)
    if more && !less then ⟨[], true⟩
    else if less && !more then ⟨e :: es, false⟩
    else if more then ⟨e :: es, true⟩
    else if (e :: es).all (·.assoc == some .left) then ⟨e :: es, false⟩
    else if (e :: es).all (·.assoc == some .right) then ⟨[], true⟩
    else ⟨e :: es, true⟩

/-- The state in which an item of a file starts. -/
def start : State :=
  ⟨(Grammar.productionsOf .item).foldl (fun acc r => Item.insert ⟨r, r.symbols, .empty⟩ acc) []⟩

end State

end FuncSpans.Go
