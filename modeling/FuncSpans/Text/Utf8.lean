/-!
# UTF-8

Texts are read from bytes. A byte sequence that is no text can still be shown: each maximal
sequence that begins like a character but is none becomes one replacement character.
-/

namespace FuncSpans

/-- Any bytes: the contents of a file, the name of one, or a whole path. -/
abbrev Bytes := List UInt8

namespace Utf8

/-- The bytes of a text. -/
def encode (cs : List Char) : Bytes := cs.flatMap String.utf8EncodeChar

/-- The bytes of a string. -/
def ofString (s : String) : Bytes := encode s.toList

/-- What stands at the front of some bytes. -/
inductive Front where
  | char (c : Char) (rest : Bytes)
  /-- A maximal sequence that is no character. -/
  | broken (rest : Bytes)

/-- A byte that goes on with a character. -/
def isContinuation (b : UInt8) : Bool := 0x80 ≤ b && b ≤ 0xBF

/-- The range of the second byte after a first byte of three or four. -/
def secondRange (b : UInt8) : UInt8 × UInt8 :=
  if b == 0xE0 then (0xA0, 0xBF)
  else if b == 0xED then (0x80, 0x9F)
  else if b == 0xF0 then (0x90, 0xBF)
  else if b == 0xF4 then (0x80, 0x8F)
  else (0x80, 0xBF)

/-- Whether a byte may stand second after another one. -/
def follows (first second : UInt8) : Bool :=
  (secondRange first).1 ≤ second && second ≤ (secondRange first).2

/-- The character with the bits of its bytes. -/
def assemble (lead : UInt8) (mask : Nat) (more : List UInt8) : Char :=
  Char.ofNat (more.foldl (fun n b => n * 64 + b.toNat % 64) (lead.toNat % mask))

/-- Takes a character off the front of some bytes. -/
def front (b : UInt8) (rest : Bytes) : Front :=
  if b < 0x80 then .char (Char.ofNat b.toNat) rest
  else if 0xC2 ≤ b && b ≤ 0xDF then
    match rest with
    | b1 :: rest1 => if isContinuation b1 then .char (assemble b 32 [b1]) rest1 else .broken rest
    | [] => .broken rest
  else if 0xE0 ≤ b && b ≤ 0xEF then
    match rest with
    | b1 :: rest1 =>
      if follows b b1 then
        match rest1 with
        | b2 :: rest2 =>
          if isContinuation b2 then .char (assemble b 16 [b1, b2]) rest2 else .broken rest1
        | [] => .broken rest1
      else .broken rest
    | [] => .broken rest
  else if 0xF0 ≤ b && b ≤ 0xF4 then
    match rest with
    | b1 :: rest1 =>
      if follows b b1 then
        match rest1 with
        | b2 :: rest2 =>
          if isContinuation b2 then
            match rest2 with
            | b3 :: rest3 =>
              if isContinuation b3 then .char (assemble b 8 [b1, b2, b3]) rest3
              else .broken rest2
            | [] => .broken rest2
          else .broken rest1
        | [] => .broken rest1
      else .broken rest
    | [] => .broken rest
  else .broken rest

/-- Reads at most `fuel` characters; the flag says whether broken sequences are allowed. -/
def read (lossy : Bool) : Nat → Bytes → Option (List Char)
  | _, [] => some []
  | 0, _ => none
  | fuel + 1, b :: rest =>
    match front b rest with
    | .char c rest => (read lossy fuel rest).map (c :: ·)
    | .broken rest =>
      if lossy then (read lossy fuel rest).map ('\uFFFD' :: ·) else none

/-- The text that some bytes are, if they are one. -/
def decode? (bs : Bytes) : Option (List Char) := read false bs.length bs

/-- The text that some bytes are shown as. -/
def decodeLossy (bs : Bytes) : List Char := (read true bs.length bs).getD []

/-- Whether some bytes are a text. -/
def isText (bs : Bytes) : Bool := (decode? bs).isSome

end Utf8

end FuncSpans
