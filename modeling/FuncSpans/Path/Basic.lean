import FuncSpans.Text.Utf8

/-!
# Paths

A path is any bytes, read as components between slashes. Empty components and `.` components
are dropped, but a `.` at the very front of a relative path counts. Two paths are equivalent
if they have the same components; `clean` writes a path in the one form that has no `.` at
all.
-/

namespace FuncSpans

/-- A path as it is written. -/
abbrev Path := Bytes

namespace Path

/-- A slash. -/
def slash : UInt8 := 0x2F

/-- A full stop. -/
def stop : UInt8 := 0x2E

/-- The path with the bytes of a text. -/
def ofString (s : String) : Path := Utf8.ofString s

/-- The path as text. -/
def display (p : Path) : String := String.ofList (Utf8.decodeLossy p)

/-- What a path leads through. -/
inductive Component where
  /-- The top of an absolute path. -/
  | root
  /-- A leading `.`. -/
  | current
  /-- A `..`. -/
  | parent
  | normal (name : Bytes)
  deriving DecidableEq

/-- The parts of a path between slashes, empty ones included. -/
def split : Path → List Bytes
  | [] => [[]]
  | b :: bs =>
    if b = slash then [] :: split bs
    else match split bs with
      | [] => [[b]]
      | p :: ps => (b :: p) :: ps

/-- Whether a path starts at the root. -/
def isAbsolute (p : Path) : Bool := p.head? == some slash

namespace Component

/-- The component that a part of a path is, if it is one. -/
def ofPart? (part : Bytes) : Option Component :=
  if part = [] ∨ part = [stop] then none
  else if part = [stop, stop] then some .parent
  else some (.normal part)

/-- A component as it is written between slashes. -/
def text : Component → Bytes
  | .root => []
  | .current => [stop]
  | .parent => [stop, stop]
  | .normal name => name

end Component

/-- The components of a path without any `.`. -/
def steps (p : Path) : List Component :=
  (if p.isAbsolute then [.root] else []) ++ p.split.filterMap Component.ofPart?

/-- The components of a path. -/
def components (p : Path) : List Component :=
  match p.split with
  | part :: _ => if part = [stop] then .current :: p.steps else p.steps
  | [] => p.steps

/-- Whether two paths are equal component by component. -/
def equivalent (p q : Path) : Bool := p.components == q.components

/-- Parts of a path with slashes between them. -/
def joinParts : List Bytes → Path
  | [] => []
  | [part] => part
  | part :: parts => part ++ slash :: joinParts parts

/-- Writes components as a path. -/
def ofComponents : List Component → Path
  | .root :: cs => slash :: joinParts (cs.map Component.text)
  | cs => joinParts (cs.map Component.text)

/-- The path without `.` components, repeated slashes and slashes at the end; `.` for a path
of nothing else. -/
def clean (p : Path) : Path :=
  match p.steps with
  | [] => [stop]
  | cs => ofComponents cs

/-- The components of the directory that a path is in. -/
def parentComponents : List Component → Option (List Component)
  | [] => none
  | [.root] => none
  | cs => some cs.dropLast

/-- The directory that a path is in, `.` if the path does not name it. -/
def directory (p : Path) : Path :=
  match parentComponents p.components with
  | none | some [] => [stop]
  | some cs => ofComponents cs

/-- The name that a path ends in. -/
def fileName? (p : Path) : Option Bytes :=
  match p.components.getLast? with
  | some (.normal name) => some name
  | _ => none

/-- What follows the last full stop of a name, unless that stop is the first byte. -/
def extensionOf (name : Bytes) : Option Bytes :=
  let ext := (name.reverse.takeWhile (· != stop)).reverse
  if ext.length + 1 < name.length then some ext else none

/-- The bytes of `go`. -/
def goExtension : Bytes := [0x67, 0x6F]

/-- The bytes of `_test.go`. -/
def testSuffix : Bytes := [0x5F, 0x74, 0x65, 0x73, 0x74, 0x2E, 0x67, 0x6F]

/-- Whether the extension is `go`. -/
def isGoSource (p : Path) : Bool :=
  match p.fileName? with
  | some name => extensionOf name == some goExtension
  | none => false

/-- Whether the name is a text that ends in `_test.go`. -/
def isTestFile (p : Path) : Bool :=
  match p.fileName? with
  | some name => testSuffix.isSuffixOf name && Utf8.isText name
  | none => false

/-- The path of an entry of a directory. -/
def child (p : Path) (name : Bytes) : Path :=
  match p with
  | [] => name
  | _ => if p.getLast? = some slash then p ++ name else p ++ slash :: name

/-- The path that another one is when it starts from a directory; an absolute one stays as it is. -/
def join (p q : Path) : Path := if q.isAbsolute then q else p.child q

end Path

end FuncSpans
