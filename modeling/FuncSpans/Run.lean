import FuncSpans.Go.File
import FuncSpans.Record.Store
import FuncSpans.Walk

/-!
# Runs

A run counts the functions of one file, or of all files that a walk takes. It answers with all
of them or with an error. The files of a directory are read on several threads, so that of the
errors of several files any may be the answer (`Run.Answers`); `run` answers with the first one
in the order of the walk.
-/

namespace FuncSpans

namespace Run

/-- The group of a file. -/
def groupOf (grouping : Grouping) (path : Path) (file : Go.SourceFile) : String :=
  match grouping with
  | .directory => path.directory.display
  | .package => String.ofList file.package

/-- The records of a file. -/
def recordsOf (grouping : Grouping) (path : Path) (file : Go.SourceFile) : List Record :=
  file.functions.map fun f =>
    { group := groupOf grouping path file
      package := String.ofList file.package
      name := String.ofList f.name
      file := path
      startsAt := f.first
      endsAt := f.last }

/-- Adds a file to a store. Its group is made even if it declares no function. -/
def addFile (grouping : Grouping) (s : Store) (path : Path) (file : Go.SourceFile) : Store :=
  (recordsOf grouping path file).foldl Store.insert (s.ensure (groupOf grouping path file))

/-- Reads a source file. -/
def readFile (fs : FileSystem) (path : Path) : Except RunError Go.SourceFile :=
  match fs.readText path with
  | .error reason => .error (.unreadable path reason)
  | .ok text => match Go.SourceFile.parse text with
    | .error (line, column) => .error (.syntaxError path line column)
    | .ok file => .ok file

/-- Reads files in turn, up to the first that cannot be read. -/
def readFiles (fs : FileSystem) : List Path → Except RunError (List (Path × Go.SourceFile))
  | [] => .ok []
  | path :: paths => match readFile fs path with
    | .error e => .error e
    | .ok file => match readFiles fs paths with
      | .error e => .error e
      | .ok files => .ok ((path, file) :: files)

/-- A store of some files. -/
def storeOf (grouping : Grouping) (files : List (Path × Go.SourceFile)) : Store :=
  files.foldl (fun s (path, file) => addFile grouping s path file) .empty

/-- Counts the functions of some files. -/
def ofFiles (fs : FileSystem) (settings : RunSettings) (paths : List Path) :
    Except RunError Store :=
  match readFiles fs paths with
  | .error e => .error e
  | .ok files => .ok (storeOf settings.grouping files)

end Run

/-- The threads on which the files of a directory are read. -/
structure Pool where
  /-- Why so many threads cannot be started, if they cannot be. -/
  refusal? : Nat → Option String

/-- The threads are always started. -/
def Pool.ready : Pool := ⟨fun _ => none⟩

namespace Run

/-- How many threads a run asks for. -/
def threads (settings : RunSettings) : Nat := max settings.workers 1

/-- The files that a run reads, or why it reads none. A file as root is always read. -/
def sources (pool : Pool) (fs : FileSystem) (settings : RunSettings) (root : Path) :
    Except RunError (List Path) :=
  match fs.find root with
  | .error .notFound => .error (.notFound root)
  | .error fault => .error (.unreadable root fault.message)
  | .ok (.file _) => if root.isGoSource then .ok [root.clean] else .error (.notAGoFile root)
  | .ok (.directory place) => match Walk.collect fs settings root place with
    | .error e => .error e
    | .ok paths => match pool.refusal? (threads settings) with
      | some reason => .error (.pool reason)
      | none => .ok paths

/-- What a run may answer: with all of its files, or with the error of some file. -/
inductive Answers (pool : Pool) (fs : FileSystem) (settings : RunSettings) (root : Path) :
    Except RunError Store → Prop
  | refused {e : RunError} : sources pool fs settings root = .error e →
      Answers pool fs settings root (.error e)
  | counted {paths : List Path} {files : List (Path × Go.SourceFile)} :
      sources pool fs settings root = .ok paths → readFiles fs paths = .ok files →
      Answers pool fs settings root (.ok (storeOf settings.grouping files))
  | failed {paths : List Path} {path : Path} {e : RunError} :
      sources pool fs settings root = .ok paths → path ∈ paths → readFile fs path = .error e →
      Answers pool fs settings root (.error e)

end Run

/-- Counts the functions under a root, with threads that may not start. -/
def runOn (pool : Pool) (fs : FileSystem) (settings : RunSettings) (root : Path) :
    Except RunError Store :=
  match Run.sources pool fs settings root with
  | .error e => .error e
  | .ok paths => Run.ofFiles fs settings paths

/-- Counts the functions under a root. -/
def run (fs : FileSystem) (settings : RunSettings) (root : Path) : Except RunError Store :=
  runOn .ready fs settings root

end FuncSpans
