import FuncSpans.Ignore.Frame
import FuncSpans.Settings.Basic
import FuncSpans.Error

/-!
# Walks

A walk goes through a directory depth first, the entries of each directory in the order of
their names, and takes the source files. An entry that is skipped is not gone into. The root
itself is never skipped.

A walk fails if there are complaints about an ignore file around its root, or else at the first
directory that it goes into and cannot open.
-/

namespace FuncSpans

/-- What a walk needs to know of everything below its root. -/
structure Walk where
  files : FileSystem
  /-- The root as it is written. -/
  root : Path
  /-- The rules of the exclude patterns. -/
  excludes : RuleSet
  includeTests : Bool
  respectIgnoreFiles : Bool
  /-- The absolute path of the root. -/
  rootPlace : Path
  /-- The frames around the root, the innermost first. -/
  around : List Frame

namespace Walk

/-- The name of the directories that are for data of tests. -/
def testDataName : Bytes := Path.ofString "testdata"

/-- A path below the root, relative to the root. -/
def belowRoot (w : Walk) (path : Path) : Path :=
  if w.root.equivalent RuleSet.here then path
  else RuleSet.dropSlash (RuleSet.dropStart (RuleSet.dropDotSlash w.root) path)

/-- What the ignore files decide of an entry. `inner` are the frames from the directory of the
entry up to the root. -/
def ignoreVerdict? (w : Walk) (inner : List Frame) (path : Path) (isDirectory : Bool) :
    Option Verdict :=
  if w.respectIgnoreFiles then
    let path := RuleSet.dropDotSlash path
    let absolute := w.rootPlace.join (w.belowRoot path)
    Frame.verdict? (inner.map (·, path) ++ w.around.map (·, absolute)) isDirectory
  else none

/-- Whether a name is hidden: it begins with a stop, and does not end in one. -/
def isHidden (name : Bytes) : Bool :=
  name.head? == some Path.stop && name.getLast? != some Path.stop

/-- Whether an entry is skipped: by an exclude pattern, by an ignore file, or because it is
hidden and no ignore file keeps it. -/
def skips (w : Walk) (inner : List Frame) (path : Path) (name : Bytes) (isDirectory : Bool) :
    Bool :=
  match w.excludes.verdict? (RuleSet.dropDotSlash path) isDirectory with
  | some .skip => true
  | _ => match w.ignoreVerdict? inner path isDirectory with
    | some .skip => true
    | some .keep => false
    | none => isHidden name

/-- Whether a file is one to count. -/
def takes (w : Walk) (path : Path) : Bool :=
  path.isGoSource && (w.includeTests || !path.isTestFile)

/-- What is said of a directory that cannot be opened. -/
def closedMessage (directory : Path) (fault : Fault) : String :=
  directory.display ++ ": IO error for operation on " ++ directory.display ++ ": " ++ fault.message

mutual

/-- The files taken at an entry, or what is said of a directory that cannot be opened. -/
def filesAt (w : Walk) (inner : List Frame) (path : Path) (name : Bytes) :
    Node → List (Except String Path)
  | .link _ => []
  | .file _ => if w.skips inner path name false || !w.takes path then [] else [.ok path.clean]
  | .directory entries =>
    if w.skips inner path name true || name == testDataName then []
    else match w.files.closed? path with
      | some fault => [.error (closedMessage path fault)]
      | none => filesIn w (Frame.read w.files path :: inner) path entries

/-- The files taken among the entries of a directory, and the failures there. -/
def filesIn (w : Walk) (inner : List Frame) (directory : Path) :
    List (Bytes × Node) → List (Except String Path)
  | [] => []
  | (name, node) :: entries =>
    filesAt w inner (directory.child name) name node ++ filesIn w inner directory entries

end

/-- The root that names no directory but the standard input, which holds no file. -/
def standardInput : Path := Path.ofString "-"

/-- The files, up to the first failure. -/
def untilFailure : List (Except String Path) → Except RunError (List Path)
  | [] => .ok []
  | .error reason :: _ => .error (.walk reason)
  | .ok path :: found => match untilFailure found with
    | .error e => .error e
    | .ok paths => .ok (path :: paths)

/-- The complaints about ignore files around the root, from the outermost directory inwards. -/
def complaints (w : Walk) : List String :=
  if w.respectIgnoreFiles then w.around.reverse.flatMap (·.complaints) else []

/-- The frames around a root at some place. A root whose absolute path is too long has none. -/
def framesAround (fs : FileSystem) (place : Location) : List Frame :=
  if FileSystem.longestPath < (FileSystem.textOf place).length then [] else Frame.around fs place

/-- A walk through a directory at some place. -/
def start (fs : FileSystem) (settings : RunSettings) (excludes : RuleSet) (root : Path)
    (place : Location) : Walk where
  files := fs
  root := root
  excludes := excludes
  includeTests := settings.includeTests
  respectIgnoreFiles := settings.respectIgnoreFiles
  rootPlace := FileSystem.textOf place
  around := framesAround fs place

/-- The files of a directory at some place, in the order of the walk. -/
def collect (fs : FileSystem) (settings : RunSettings) (root : Path)
    (place : Location) : Except RunError (List Path) :=
  match RuleSet.ofPatterns root settings.exclude with
  | .error (pattern, reason) => .error (.badPattern pattern reason)
  | .ok excludes =>
    if root.equivalent standardInput then .ok []
    else
      let w := start fs settings excludes root place
      match w.complaints with
      | [] => untilFailure (filesIn w [Frame.read fs root] root (fs.entriesAt place))
      | complaints => .error (.walk (String.intercalate "\n" complaints))

end Walk

end FuncSpans
