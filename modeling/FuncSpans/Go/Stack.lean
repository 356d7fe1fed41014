import FuncSpans.Go.Automaton
import FuncSpans.Go.Lexeme

/-!
# Reading one item

Readings of an item are followed side by side, one token a round: of all places that readings
have come to, the leftmost is left in each round. A `Stack` is what readings of one state at one
place share; its links lead to what was below. Every phrase covers at least one token, so a link
always leads to an earlier round, and all links of a place are known when it is left.

`Item.readings` returns the places where the item can end, each with what the item declares.
-/

namespace FuncSpans.Go

/-! ## What is recorded of a phrase -/

/-- A declaration that the rest of the program wants to know of. -/
inductive Declared where
  | package (name : List Char)
  | function (name : List Char) (first last : Nat)
  deriving DecidableEq, Repr

/-- What is known of a symbol that has been read. -/
structure Part where
  /-- The spelling of a token, and the name of a phrase that has one. -/
  text : List Char
  /-- The line of the first character. -/
  first : Nat
  /-- The line of the last token's end. -/
  last : Nat
  /-- The declaration that the phrase is or, for an item, begins with. -/
  declared : Option Declared

namespace Part

def ofLexeme (l : Lexeme) : Part := ⟨l.text, l.start.line, l.next.line, none⟩

/-- What a named phrase declares. -/
def declares (x : Phrase) (name : List Char) (first last : Nat) : Option Declared :=
  match x with
  | .packageClause => some (.package name)
  | .functionDeclaration | .methodDeclaration => some (.function name first last)
  | _ => none

/-- What is known of a phrase, from what is known of its symbols. -/
def ofProduction (r : Production) (parts : List Part) : Part :=
  let first := (parts.head?.map (·.first)).getD 0
  let last := (parts.getLast?.map (·.last)).getD 0
  match r.namedBy with
  | some i =>
    let name := (parts[i]?.map (·.text)).getD []
    ⟨name, first, last, declares r.phrase name first last⟩
  | none =>
    ⟨[], first, last, if r.phrase = .item then parts.head?.bind (·.declared) else none⟩

end Part

/-! ## Stacks -/

/-- What lies below the tops of readings. -/
inductive Stack where
  /-- The state, the round in which its place has been left, and what lies below. -/
  | node (state : State) (round : Nat) (links : List (Part × Stack))

namespace Stack

def state : Stack → State
  | .node s _ _ => s

def round : Stack → Nat
  | .node _ n _ => n

def links : Stack → List (Part × Stack)
  | .node _ _ ls => ls

/-- Whether two nodes are the same state at the same place. -/
def same (a b : Stack) : Bool := a.round == b.round && a.state.same b.state

/-- Takes a number of parts off, in all ways; the leftmost part comes first. -/
def pop : Nat → Stack → List (List Part × Stack)
  | 0, s => [([], s)]
  | n + 1, s => s.links.flatMap fun (part, below) =>
      (pop n below).map fun (parts, base) => (parts ++ [part], base)

/-- Takes the part of a link and a number of parts below it off. -/
def popLink (n : Nat) (link : Part × Stack) : List (List Part × Stack) :=
  (link.2.pop n).map fun (parts, base) => (parts ++ [link.1], base)

end Stack

/-- A state that readings are in, with what lies below it. -/
structure Head where
  state : State
  links : List (Part × Stack)

namespace Head

/-- Adds a link to the head of a state; `none` if it is there already. -/
def insert (s : State) (link : Part × Stack) : List Head → Option (List Head)
  | [] => some [⟨s, [link]⟩]
  | h :: hs =>
    if h.state.same s then
      if h.links.any (·.2.same link.2) then none
      else some (⟨h.state, h.links ++ [link]⟩ :: hs)
    else (insert s link hs).map (h :: ·)

/-- Adds the head of a state with one link, and all heads that ending productions before the
token `t` leads to. -/
def settle (t : Token) : Nat → State → Part × Stack → List Head → List Head
  | 0, _, _, heads => heads
  | fuel + 1, s, link, heads =>
    match insert s link heads with
    | none => heads
    | some heads =>
      (s.choose t).ended.foldl (fun heads r =>
        (Stack.popLink (r.symbols.length - 1) link).foldl (fun heads (parts, base) =>
          settle t fuel (base.state.advance (.phrase r.phrase))
            (Part.ofProduction r parts, base) heads) heads) heads

/-- How many productions may have to end one after the other in a round. -/
def depth (round : Nat) : Nat := (round + 1) * (Grammar.phraseCount + 1)

/-- The heads before a token, once productions have ended. -/
def before (round : Nat) (t : Token) (top : Head) : List Head :=
  if top.links.isEmpty then [top]
  else top.links.foldl (fun heads link => settle t (depth round) top.state link heads) []

/-- What the item below a head declares, if there is a whole item. -/
def whole? (h : Head) : Option (Option Declared) :=
  h.state.items.findSome? fun i =>
    if i.endsItem then
      (h.links.flatMap (Stack.popLink (i.production.symbols.length - 1))).head?.map
        fun (parts, _) => (Part.ofProduction i.production parts).declared
    else none

end Head

/-! ## Fronts -/

/-- The readings that have come to one place. -/
structure Front where
  place : Cursor
  /-- Whether only an empty token leads here, or none at all: the next one is not empty. -/
  still : Bool
  tops : List Head

namespace Front

/-- Adds a reading to the fronts, which are ordered by place. -/
def insert (c : Cursor) (still : Bool) (s : State) (link : Part × Stack) :
    List Front → List Front
  | [] => [⟨c, still, [⟨s, [link]⟩]⟩]
  | f :: fs =>
    if f.place.remaining < c.remaining then ⟨c, still, [⟨s, [link]⟩]⟩ :: f :: fs
    else if f.place.remaining = c.remaining then
      ⟨f.place, f.still, (Head.insert s link f.tops).getD f.tops⟩ :: fs
    else f :: insert c still s link fs

/-- The readings at a front that have no whole item yet. -/
def going (f : Front) : List Head := f.tops.filter fun top => !top.state.isWhole

/-- The end of an item at a front, with what the item declares. -/
def ends (f : Front) : List (Option Declared × Cursor) :=
  ((f.tops.filterMap Head.whole?).take 1).map (·, f.place)

/-- Takes the heads before a token over it. -/
def shift (round : Nat) (l : Lexeme) (fronts : List Front) (h : Head) : List Front :=
  if (h.state.choose l.token).shifts then
    insert l.next l.text.isEmpty (h.state.advance (.token l.token))
      (Part.ofLexeme l, .node h.state round h.links) fronts
  else fronts

/-- Takes a top at a front one token further. -/
def step (round : Nat) (f : Front) (fronts : List Front) (top : Head) : List Front :=
  match Lexeme.read top.state.wanted f.place with
  | none => fronts
  | some l =>
    if f.still && l.text.isEmpty then fronts
    else (top.before round l.token).foldl (shift round l) fronts

/-- Takes all readings at the leftmost front one token further. -/
def advance (round : Nat) : List Front → List Front
  | [] => []
  | f :: fs => f.going.foldl (step round f) fs

end Front

/-! ## Items -/

namespace Item

/-- The front before the first token of an item. -/
def start (c : Cursor) : List Front := [⟨c, true, [⟨.start, []⟩]⟩]

/-- Follows the readings from the leftmost front on. -/
def follow : Nat → Nat → List Front → List (Option Declared × Cursor) →
    List (Option Declared × Cursor)
  | 0, _, _, ends => ends
  | _, _, [], ends => ends
  | fuel + 1, round, f :: fs, ends =>
    follow fuel (round + 1) (Front.advance round (f :: fs)) (ends ++ f.ends)

/-- Reads one item: the places where it can end, each with what the item declares. In two rounds
at least one character is read. -/
def readings (c : Cursor) : List (Option Declared × Cursor) :=
  follow (2 * c.remaining + 2) 0 (start c) []

end Item

end FuncSpans.Go
