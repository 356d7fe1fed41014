import FuncSpans.Text.Utf8

/-!
# Globs

A glob is matched against the whole of a path, byte by byte. `?` and `*` do not match a slash;
`**` does where it stands alone between slashes, at the start or at the end; `[…]` is one byte
of a class and `{…,…}` a choice. `Glob.remainders` gives what can be left of a text after a
part of the glob; the glob matches if nothing can be left.
-/

namespace FuncSpans

/-- What is wrong with the text of a glob. -/
inductive GlobError where
  | unclosedClass
  | invalidRange (low high : Char)
  | unopenedAlternates
  | unclosedAlternates
  | danglingEscape
  deriving DecidableEq, Repr

namespace GlobError

def message : GlobError → String
  | unclosedClass => "unclosed character class; missing ']'"
  | invalidRange low high =>
    "invalid range; '" ++ String.ofList [low] ++ "' > '" ++ String.ofList [high] ++ "'"
  | unopenedAlternates =>
    "unopened alternate group; missing '\x7b' (maybe escape '\x7d' with '[\x7d]'?)"
  | unclosedAlternates =>
    "unclosed alternate group; missing '\x7d' (maybe escape '\x7b' with '[\x7b]'?)"
  | danglingEscape => "dangling '\\'"

end GlobError

/-- A part of a glob. -/
inductive GlobPart where
  | literal (c : Char)
  /-- One byte, but no slash. -/
  | anyByte
  /-- Any bytes without a slash. -/
  | star
  /-- `**` at the start, with the slash after it. -/
  | anyPrefix
  /-- `**` at the end, with the slash before it. -/
  | anySuffix
  /-- `**` between two slashes. -/
  | anyMiddle
  /-- One byte of some closed ranges, or of none of them. -/
  | byteClass (negated : Bool) (ranges : List (UInt8 × UInt8))
  | choice (alternatives : List (List GlobPart))

/-- A whole glob. -/
structure Glob where
  parts : List GlobPart

namespace Glob

/-! ## Matching -/

def slash : UInt8 := 0x2F

/-- All ends of a text, the text itself included. -/
def suffixes : Bytes → List Bytes
  | [] => [[]]
  | b :: bs => (b :: bs) :: suffixes bs

/-- What can be left after any bytes without a slash. -/
def afterStar : Bytes → List Bytes
  | [] => [[]]
  | b :: bs => (b :: bs) :: if b = slash then [] else afterStar bs

/-- What can be left after any bytes and a slash. -/
def afterSlash : Bytes → List Bytes
  | [] => []
  | b :: bs => if b = slash then bs :: afterSlash bs else afterSlash bs

def afterByte (p : UInt8 → Bool) : Bytes → List Bytes
  | [] => []
  | b :: bs => if p b then [bs] else []

/-- What is left after a given text, if that is what stands there. -/
def afterText : Bytes → Bytes → List Bytes
  | [], bs => [bs]
  | _ :: _, [] => []
  | t :: ts, b :: bs => if t = b then afterText ts bs else []

def inClass (negated : Bool) (ranges : List (UInt8 × UInt8)) (b : UInt8) : Bool :=
  (ranges.any fun (low, high) => low ≤ b && b ≤ high) != negated

/-- A list of ends of one text without repetitions; an end is known by its length. -/
def distinct (ends : List Bytes) : List Bytes :=
  ends.foldr (fun e es => if es.any (·.length == e.length) then es else e :: es) []

mutual

/-- Whether a part says nothing at all: a choice of nothing. -/
def isVoid : GlobPart → Bool
  | .choice alternatives => areVoid alternatives
  | _ => false

/-- Whether every part says nothing. -/
def isVoidList : List GlobPart → Bool
  | [] => true
  | p :: ps => isVoid p && isVoidList ps

/-- Whether every alternative says nothing. -/
def areVoid : List (List GlobPart) → Bool
  | [] => true
  | a :: as => isVoidList a && areVoid as

end

mutual

/-- What can be left of a text after a part. -/
def afterPart : GlobPart → Bytes → List Bytes
  | .literal c, bs => afterText (String.utf8EncodeChar c) bs
  | .anyByte, bs => afterByte (· != slash) bs
  | .star, bs => afterStar bs
  | .anyPrefix, bs => bs :: (afterByte (· == slash) bs ++ afterSlash bs)
  | .anySuffix, bs => (afterByte (· == slash) bs).flatMap suffixes
  | .anyMiddle, bs =>
    (afterByte (· == slash) bs).flatMap fun rest => rest :: afterSlash rest
  | .byteClass negated ranges, bs => afterByte (inClass negated ranges) bs
  | .choice alternatives, bs =>
    if areVoid alternatives then [bs] else afterChoice alternatives bs

/-- What can be left after some parts. -/
def afterParts : List GlobPart → List Bytes → List Bytes
  | [], ends => ends
  | p :: ps, ends => afterParts ps (distinct (ends.flatMap (afterPart p)))

/-- What can be left after one of some alternatives; those that say nothing do not count. -/
def afterChoice : List (List GlobPart) → Bytes → List Bytes
  | [], _ => []
  | a :: as, bs =>
    (if isVoidList a then [] else afterParts a [bs]) ++ afterChoice as bs

end

/-- What can be left of a text after a glob. -/
def remainders (g : Glob) (bs : Bytes) : List Bytes := afterParts g.parts [bs]

/-- Whether a glob matches the whole of a text. A lone `**` matches everything. -/
def matchesText (g : Glob) (bs : Bytes) : Bool :=
  match g.parts with
  | [.anyPrefix] => true
  | _ => (g.remainders bs).any List.isEmpty

/-! ## Reading -/

/-- The byte ranges of a range of characters: each character stands for all its bytes, and
the range runs from the last byte of the first to the first byte of the last. -/
def byteRanges (low high : Char) : List (UInt8 × UInt8) :=
  let a := String.utf8EncodeChar low
  let b := String.utf8EncodeChar high
  if low = high then a.map fun x => (x, x)
  else
    (a.dropLast.map fun x => (x, x)) ++ [(a.getLast?.getD 0, b.headD 0)] ++
      (b.drop 1).map fun x => (x, x)

/-- A class under way. -/
structure ClassState where
  /-- The ranges so far, the last one first. -/
  ranges : List (Char × Char)
  /-- Whether a `-` has been read that may make a range. -/
  open? : Bool

/-- Reads the rest of a class; `none` if it is not closed. -/
def readClass (negated : Bool) (first : Bool) (s : ClassState) :
    List Char → Except GlobError (Option (GlobPart × List Char))
  | [] => .ok none
  | c :: cs =>
    if c = ']' && !first then
      let ranges := if s.open? then ('-', '-') :: s.ranges else s.ranges
      .ok (some (.byteClass negated (ranges.reverse.flatMap fun (a, b) => byteRanges a b), cs))
    else if c = '-' && !first && !s.open? then
      readClass negated false ⟨s.ranges, true⟩ cs
    else
      match s.open?, s.ranges with
      | true, (a, _) :: ranges =>
        if c < a then .error (.invalidRange a c)
        else readClass negated false ⟨(a, c) :: ranges, false⟩ cs
      | _, ranges => readClass negated false ⟨(c, c) :: ranges, false⟩ cs

/-- Reads a class after its bracket. -/
def readClassStart (cs : List Char) : Except GlobError (Option (GlobPart × List Char)) :=
  match cs with
  | '!' :: rest | '^' :: rest => readClass true true ⟨[], false⟩ rest
  | rest => readClass false true ⟨[], false⟩ rest

/-- Alternatives under way: those that are complete and the present one, each backwards. -/
structure Group where
  complete : List (List GlobPart)
  present : List GlobPart

/-- A glob under way. -/
structure ReadState where
  /-- The innermost group. -/
  group : Group
  /-- The groups around it. -/
  outer : List Group
  /-- The character before. -/
  before : Option Char
  /-- Whether brackets have lost their meaning after one that was not closed. -/
  plainBrackets : Bool

namespace ReadState

def push (s : ReadState) (p : GlobPart) : ReadState :=
  { s with group := { s.group with present := p :: s.group.present } }

/-- Replaces the last part. -/
def replace (s : ReadState) (f : Option GlobPart → GlobPart) : ReadState :=
  { s with group := { s.group with
    present := f s.group.present.head? :: s.group.present.tail } }

/-- Two stars that mean no more than one. -/
def twoStars (s : ReadState) : ReadState := (s.push .star).push .star

end ReadState

/-- What `**` means before `rest`: the state after it and whether the slash after it belongs
to it. `before` is the character before the stars. -/
def readStars (s : ReadState) (before : Option Char) (rest : List Char) : ReadState × Bool :=
  let inside := !s.outer.isEmpty
  if s.group.present.isEmpty then
    match rest with
    | [] => (s.push .anyPrefix, false)
    | c :: _ => if c = '/' then (s.push .anyPrefix, true) else (s.twoStars, false)
  else if before = some '/' || (inside && (before = some ',' || before = some '{')) then
    let put (p : GlobPart) : ReadState := s.replace fun last => match last with
      | some .anyPrefix => .anyPrefix
      | some .anySuffix => .anySuffix
      | _ => p
    match rest with
    | [] => (put .anySuffix, false)
    | c :: _ =>
      if inside && (c = ',' || c = '}') then (put .anySuffix, false)
      else if c = '/' then (put .anyMiddle, true)
      else (s.twoStars, false)
  else (s.twoStars, false)

/-- Reads the rest of a glob. -/
def readParts (lenient : Bool) : Nat → ReadState → List Char → Except GlobError ReadState
  | 0, s, _ => .ok s
  | _, s, [] => .ok s
  | fuel + 1, s, c :: cs =>
    let after (x : Char) (s : ReadState) : ReadState := { s with before := some x }
    match c with
    | '?' => readParts lenient fuel (after c (s.push .anyByte)) cs
    | '*' =>
      match cs with
      | '*' :: rest =>
        let (s', slashTaken) := readStars s s.before rest
        if slashTaken then readParts lenient fuel (after '/' s') (rest.drop 1)
        else readParts lenient fuel (after '*' s') rest
      | _ => readParts lenient fuel (after c (s.push .star)) cs
    | '[' =>
      if s.plainBrackets then readParts lenient fuel (after c (s.push (.literal c))) cs
      else match readClassStart cs with
        | .error e => .error e
        | .ok (some (p, rest)) => readParts lenient fuel (after ']' (s.push p)) rest
        | .ok none =>
          if lenient then
            readParts lenient fuel
              (after c ({ s with plainBrackets := true }.push (.literal c))) cs
          else .error .unclosedClass
    | '{' =>
      readParts lenient fuel
        (after c { s with group := ⟨[], []⟩, outer := s.group :: s.outer }) cs
    | '}' =>
      match s.outer with
      | [] => .error .unopenedAlternates
      | g :: outer =>
        let alternatives := (s.group.present :: s.group.complete).reverse.map List.reverse
        readParts lenient fuel
          (after c ({ s with group := g, outer }.push (.choice alternatives))) cs
    | ',' =>
      if s.outer.isEmpty then readParts lenient fuel (after c (s.push (.literal c))) cs
      else
        let group : Group := ⟨s.group.present :: s.group.complete, []⟩
        readParts lenient fuel (after c { s with group }) cs
    | '\\' =>
      match cs with
      | [] => .error .danglingEscape
      | x :: rest => readParts lenient fuel (after x (s.push (.literal x))) rest
    | c => readParts lenient fuel (after c (s.push (.literal c))) cs

/-- Reads a glob. If `lenient`, a bracket that is not closed stands for itself. -/
def read (lenient : Bool) (cs : List Char) : Except GlobError Glob :=
  match readParts lenient (cs.length + 1) ⟨⟨[], []⟩, [], none, false⟩ cs with
  | .error e => .error e
  | .ok s => if s.outer.isEmpty then .ok ⟨s.group.present.reverse⟩ else .error .unclosedAlternates

end Glob

end FuncSpans
