import FuncSpans.Files.Basic
import FuncSpans.Ignore.RuleSet

/-!
# Frames

A directory may hold three kinds of ignore files. An entry is decided by the first kind that
has a rule about it, and for that kind by the innermost directory that has one. Lines with an
invalid glob are no rules. There are complaints about them, which are heard only if the directory
is one around the root of a walk.
-/

namespace FuncSpans

/-- The kinds of ignore files, the stronger one first. -/
inductive IgnoreKind where
  | ignore
  | gitignore
  | gitExclude
  deriving DecidableEq, Repr

namespace IgnoreKind

/-- All kinds, the stronger one first. -/
def all : List IgnoreKind := [.ignore, .gitignore, .gitExclude]

/-- The file of a kind in a directory. -/
def fileName : IgnoreKind → String
  | .ignore => ".ignore"
  | .gitignore => ".gitignore"
  | .gitExclude => ".git/info/exclude"

end IgnoreKind

/-- The rules of the ignore files of one directory. -/
structure Frame where
  directory : Path
  rules : IgnoreKind → RuleSet
  /-- What is said of those of the files that have a line with an invalid glob. -/
  complaints : List String

namespace Frame

/-- The rules of one ignore file; one that cannot be read has none. -/
def readRules (fs : FileSystem) (directory : Path) (kind : IgnoreKind) : RuleSet :=
  match fs.readBytes (directory.child (Path.ofString kind.fileName)) with
  | .ok content => RuleSet.ofFile directory content
  | .error _ => RuleSet.empty directory

/-- What is said of one ignore file; of one that cannot be read nothing is said. -/
def readComplaints (fs : FileSystem) (directory : Path) (kind : IgnoreKind) : List String :=
  match fs.readBytes (directory.child (Path.ofString kind.fileName)) with
  | .ok content => RuleSet.complaints (directory.child (Path.ofString kind.fileName)) content
  | .error _ => []

/-- The frame of a directory. -/
def read (fs : FileSystem) (directory : Path) : Frame :=
  let ignore := readRules fs directory .ignore
  let gitignore := readRules fs directory .gitignore
  let gitExclude := readRules fs directory .gitExclude
  { directory
    rules := fun
      | .ignore => ignore
      | .gitignore => gitignore
      | .gitExclude => gitExclude
    complaints := IgnoreKind.all.flatMap (readComplaints fs directory) }

/-- The frames of the directories around a place, the innermost first. -/
def around (fs : FileSystem) (place : Location) : List Frame :=
  match place with
  | [] => []
  | _ :: outer => read fs (FileSystem.textOf outer) :: around fs outer

/-- What frames decide of an entry that each of them knows by a path. -/
def verdict? (frames : List (Frame × Path)) (isDirectory : Bool) : Option Verdict :=
  IgnoreKind.all.findSome? fun kind =>
    frames.findSome? fun (frame, path) => (frame.rules kind).verdict? path isDirectory

end Frame

end FuncSpans
