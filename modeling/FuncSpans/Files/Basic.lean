import FuncSpans.Path.Basic

/-!
# Trees of files

A `FileSystem` is a tree of directories, files and symbolic links with a current directory.
`find` follows a path through it as an operating system does: links are followed, at most
forty of them, and every way to fail has its `Fault`. `write` puts a file where a path leads.
-/

namespace FuncSpans

/-- What stands under a name. -/
inductive Node where
  | file (content : Bytes)
  /-- A directory; its entries are in the order of the bytes of their names. -/
  | directory (entries : List (Bytes × Node))
  | link (target : Path)

/-- The entries of a directory. -/
abbrev Entries := List (Bytes × Node)

/-- Why a path leads nowhere. -/
inductive Fault where
  | notFound
  | notADirectory
  | isADirectory
  | nameTooLong
  | tooManyLinks
  | nulByte
  deriving DecidableEq, Repr

/-- What is said of a fault. -/
def Fault.message : Fault → String
  | .notFound => "No such file or directory (os error 2)"
  | .notADirectory => "Not a directory (os error 20)"
  | .isADirectory => "Is a directory (os error 21)"
  | .nameTooLong => "File name too long (os error 36)"
  | .tooManyLinks => "Too many levels of symbolic links (os error 40)"
  | .nulByte => "file name contained an unexpected NUL byte"

/-- Whether one name comes before another, byte by byte. -/
def Bytes.before : Bytes → Bytes → Bool
  | [], [] => false
  | [], _ :: _ => true
  | _ :: _, [] => false
  | a :: as, b :: bs => a < b || (a == b && Bytes.before as bs)

namespace Entries

/-- Puts a node under a name, in place of what was there. -/
def put (name : Bytes) (n : Node) : Entries → Entries
  | [] => [(name, n)]
  | (m, x) :: es =>
    if name = m then (name, n) :: es
    else if Bytes.before name m then (name, n) :: (m, x) :: es
    else (m, x) :: put name n es

/-- Puts a node at the end of a way of names; directories on the way are made if they are
missing, and take the place of what is no directory. -/
def putAt : List Bytes → Node → Entries → Entries
  | [], _, es => es
  | [name], n, es => es.put name n
  | name :: names, n, es =>
    let inner := match es.lookup name with
      | some (.directory inner) => inner
      | _ => []
    es.put name (.directory (putAt names n inner))

end Entries

/-- A place in a tree: the directories on the way to it, the innermost first. -/
abbrev Location := List (Bytes × Entries)

/-- A tree of files and a current directory in it. -/
structure FileSystem where
  top : Entries
  /-- The names on the way to the current directory, the outermost first. -/
  current : List Bytes

namespace FileSystem

/-- The entries at a place. -/
def entriesAt (fs : FileSystem) : Location → Entries
  | [] => fs.top
  | (_, es) :: _ => es

/-- The absolute path of a place. -/
def textOf (loc : Location) : Path :=
  Path.slash :: Path.joinParts (loc.reverse.map (·.1))

/-- Where a path leads, if it leads as far as a directory. -/
inductive Target where
  | directory (loc : Location)
  | file (loc : Location) (name content : Bytes)
  /-- A name in a directory that nothing stands under. -/
  | missing (loc : Location) (name : Bytes)

/-- What a path leads to. -/
inductive Found where
  | directory (loc : Location)
  | file (content : Bytes)

/-- Names in a path that count: empty ones do not, but after a slash at the end there has to
be a directory. -/
def partsOf (p : Path) : List Bytes :=
  let parts := p.split
  parts.filter (· ≠ []) ++ if parts.getLast? = some [] then [[Path.stop]] else []

/-- How long a name may be. -/
def longestName : Nat := 255

/-- How long a path may be. -/
def longestPath : Nat := 4095

/-- How many links may be followed. -/
def mostLinks : Nat := 40

/-- Follows names from a place; `next` goes on after a link. -/
def follow (fs : FileSystem) (next : List Bytes → Location → Except Fault Target) :
    List Bytes → Location → Except Fault Target
  | [], loc => .ok (.directory loc)
  | part :: rest, loc =>
    if part = [Path.stop] then follow fs next rest loc
    else if part = [Path.stop, Path.stop] then follow fs next rest loc.tail
    else if longestName < part.length then .error .nameTooLong
    else match (fs.entriesAt loc).lookup part with
      | none => if rest = [] then .ok (.missing loc part) else .error .notFound
      | some (.directory es) => follow fs next rest ((part, es) :: loc)
      | some (.file content) =>
        if rest = [] then .ok (.file loc part content) else .error .notADirectory
      | some (.link target) =>
        next (partsOf target ++ rest) (if target.isAbsolute then [] else loc)

/-- Follows names from a place through at most a number of links. -/
def followLinks (fs : FileSystem) : Nat → List Bytes → Location → Except Fault Target
  | 0 => follow fs fun _ _ => .error .tooManyLinks
  | n + 1 => follow fs (followLinks fs n)

/-- Where a path leads. -/
def target (fs : FileSystem) (p : Path) : Except Fault Target :=
  if p.contains 0 then .error .nulByte
  else if p = [] then .error .notFound
  else if longestPath < p.length then .error .nameTooLong
  else followLinks fs mostLinks ((if p.isAbsolute then [] else fs.current) ++ partsOf p) []

/-- What a path leads to. -/
def find (fs : FileSystem) (p : Path) : Except Fault Found :=
  match fs.target p with
  | .error e => .error e
  | .ok (.missing ..) => .error .notFound
  | .ok (.directory loc) => .ok (.directory loc)
  | .ok (.file _ _ content) => .ok (.file content)

/-- Whether a path leads to a file. -/
def isFile (fs : FileSystem) (p : Path) : Bool :=
  match fs.find p with
  | .ok (.file _) => true
  | _ => false

/-- Whether a path leads anywhere. -/
def hasPath (fs : FileSystem) (p : Path) : Bool := (fs.find p).isOk

/-- Why the entries of a directory cannot be listed, if they cannot be. -/
def closed? (fs : FileSystem) (p : Path) : Option Fault :=
  match fs.find p with
  | .ok (.directory _) => none
  | .ok (.file _) => some .notADirectory
  | .error e => some e

/-- The bytes of a file. -/
def readBytes (fs : FileSystem) (p : Path) : Except Fault Bytes :=
  match fs.find p with
  | .ok (.file content) => .ok content
  | .ok (.directory _) => .error .isADirectory
  | .error e => .error e

/-- The text of a file, or why there is none. -/
def readText (fs : FileSystem) (p : Path) : Except String (List Char) :=
  match fs.readBytes p with
  | .error e => .error e.message
  | .ok content =>
    match Utf8.decode? content with
    | some text => .ok text
    | none => .error "stream did not contain valid UTF-8"

/-- Puts new entries at a place and returns all entries of the tree. -/
def rebuild (fs : FileSystem) : Location → Entries → Entries
  | [], es => es
  | (name, _) :: loc, es => rebuild fs loc ((fs.entriesAt loc).put name (.directory es))

/-- Writes a file, which is made if it is missing. -/
def write (fs : FileSystem) (p : Path) (content : Bytes) : Except Fault FileSystem :=
  match fs.target p with
  | .error e => .error e
  | .ok (.directory _) => .error .isADirectory
  | .ok (.file loc name _) | .ok (.missing loc name) =>
    .ok { fs with top := fs.rebuild loc ((fs.entriesAt loc).put name (.file content)) }

end FileSystem

end FuncSpans
