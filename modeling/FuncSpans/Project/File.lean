import FuncSpans.Files.Basic
import FuncSpans.Json.Reader
import FuncSpans.Project.Settings
import FuncSpans.Toml.Reader

/-!
# Project files

The settings of a project stand in a file beside the files to count. The first file that can
be read counts; a file that is missing or invalid is passed over as a whole.
-/

namespace FuncSpans

/-- The files that can hold the settings of a project. -/
inductive ProjectFile where
  | toml
  | json
  deriving DecidableEq, Repr

namespace ProjectFile

/-- All project files, in the order in which they are tried. -/
def all : List ProjectFile := [.toml, .json]

def name : ProjectFile → String
  | .toml => "gofuncount.toml"
  | .json => ".gofuncountrc.json"

/-- The settings that the text of a file holds. -/
def settings? (f : ProjectFile) (cs : List Char) : Option ProjectSettings :=
  match f with
  | .toml => (Toml.read cs).bind fun ms =>
    ProjectSettings.ofValue? .toml (.table (ProjectValue.ofTomlMembers ms))
  | .json => (Json.read cs).bind fun v =>
    ProjectSettings.ofValue? .json (ProjectValue.ofJson v)

/-- The settings that the file in a directory holds. -/
def load? (fs : FileSystem) (directory : Path) (f : ProjectFile) : Option ProjectSettings :=
  match fs.readText (directory.child (Path.ofString f.name)) with
  | .ok cs => f.settings? cs
  | .error _ => none

/-- The directory whose project files count for a root: the root, or where it is if it is a
file. -/
def directoryOf (fs : FileSystem) (root : Path) : Path :=
  if fs.isFile root then Path.ofComponents ((Path.parentComponents root.components).getD [.current])
  else root

end ProjectFile

/-- The settings of the project that a root belongs to. -/
def ProjectSettings.load (fs : FileSystem) (root : Path) : ProjectSettings :=
  (ProjectFile.all.findSome? (ProjectFile.load? fs (ProjectFile.directoryOf fs root))).getD .silent

end FuncSpans
